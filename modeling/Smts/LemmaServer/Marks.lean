import Smts.LemmaServer.Scoping

namespace Smts.LemmaServer

open Smts.Lib
open Smts.Lib.Prog

namespace State

variable (s : State)

/-- The marks of a client on the lemmas of an instance. -/
def marks (name : Bytes) (client : Nat) : Table Pointer Bool :=
  Table.find [] client (s.solvers name)

def Marked (name : Bytes) (client : Nat) (l : Pointer) : Prop :=
  Table.find false l (s.marks name client) = true

/-- All tables have one entry for each key. -/
def Distinct : Prop :=
  ∀ name, ((s.solvers name).map Prod.fst).Nodup ∧
    ∀ e ∈ s.solvers name, (e.2.map Prod.fst).Nodup

variable {s} {name : Bytes} {client : Nat} {l : Pointer}

theorem Distinct.marks (h : s.Distinct) (name : Bytes) (client : Nat) :
    ((s.marks name client).map Prod.fst).Nodup := by
  by_cases hnil : s.marks name client = []
  · rw [hnil]
    exact List.nodup_nil
  · exact (h name).2 _ (Table.mem_of_find hnil)

theorem Marked.mem (h : s.Marked name client l) :
    (client, s.marks name client) ∈ s.solvers name ∧ (l, true) ∈ s.marks name client := by
  have hl : (l, true) ∈ s.marks name client := by
    have hmem := Table.mem_of_find (d := false) (k := l) (t := s.marks name client)
      (by rw [h]; exact Bool.noConfusion)
    rwa [h] at hmem
  have hne : s.marks name client ≠ [] := List.ne_nil_of_mem hl
  exact ⟨Table.mem_of_find hne, hl⟩

theorem Distinct.marked (h : s.Distinct) {m : Table Pointer Bool}
    (hm : (client, m) ∈ s.solvers name) (hl : (l, true) ∈ m) : s.Marked name client l := by
  have hmarks : s.marks name client = m := Table.find_of_mem (h name).1 hm
  rw [Marked, hmarks]
  exact Table.find_of_mem ((h name).2 _ hm) hl

end State

section Collect

variable {μ : Type} {env : Env} {n : Nat}

theorem eraseMarks_eq {ms : List μ} (h : cutSize < n) :
    eraseMarks ms n = (ms.drop (n - cutSize), n - min ms.length (n - cutSize)) := by
  induction ms generalizing n with
  | nil => simp [eraseMarks]
  | cons m ms ih =>
    rw [eraseMarks]
    split
    · next hcut =>
      have hn : n - cutSize = 1 := by omega
      rw [hn, List.drop_one, List.tail_cons, Nat.min_eq_right (by simp)]
    · next hcut =>
      have hn : n - cutSize = n - 1 - cutSize + 1 := by omega
      have hcount : n - 1 - min ms.length (n - 1 - cutSize) =
          n - min (ms.length + 1) (n - 1 - cutSize + 1) := by omega
      rw [ih (by omega), hn, List.drop_succ_cons, List.length_cons, hcount]

theorem eraseMarks_suffix (ms : List μ) (n : Nat) : (eraseMarks ms n).1 <:+ ms := by
  induction ms generalizing n with
  | nil => exact List.suffix_refl []
  | cons m ms ih =>
    rw [eraseMarks]
    split
    · exact List.suffix_cons m ms
    · exact (ih (n - 1)).trans (List.suffix_cons m ms)

theorem keys_eraseTables (ts : Table Nat (Table Pointer Bool)) (n : Nat) :
    (eraseTables env ts n).1.map Prod.fst = ts.map Prod.fst := by
  induction ts generalizing n with
  | nil => rfl
  | cons e ts ih =>
    rw [eraseTables]
    dsimp only
    split
    · rfl
    · rw [List.map_cons, List.map_cons, ih]

theorem nodup_eraseTables {ts : Table Nat (Table Pointer Bool)}
    (h : ∀ e ∈ ts, (e.2.map Prod.fst).Nodup) (n : Nat) :
    ∀ e ∈ (eraseTables env ts n).1, (e.2.map Prod.fst).Nodup := by
  induction ts generalizing n with
  | nil => exact fun e he => nomatch he
  | cons e ts ih =>
    have hhead (n : Nat) : ((eraseMarks (env.walk e.2) n).1.map Prod.fst).Nodup := by
      have hwalk : ((env.walk e.2).map Prod.fst).Nodup :=
        ((env.walk_perm e.2).map Prod.fst).nodup_iff.mpr (h e List.mem_cons_self)
      exact hwalk.sublist ((eraseMarks_suffix _ n).sublist.map _)
    have htail : ∀ e ∈ ts, (e.2.map Prod.fst).Nodup :=
      fun e he => h e (List.mem_cons_of_mem _ he)
    rw [eraseTables]
    dsimp only
    split
    · intro e' he'
      rcases List.mem_cons.mp he' with rfl | he'
      · exact hhead n
      · exact htail e' he'
    · intro e' he'
      rcases List.mem_cons.mp he' with rfl | he'
      · exact hhead n
      · exact ih htail _ e' he'

/-- The marks of an instance, in the order of `garbageCollect`. -/
def entries (env : Env) (ts : Table Nat (Table Pointer Bool)) : List (Nat × Pointer × Bool) :=
  ts.flatMap fun e => (env.walk e.2).map fun m => (e.1, m)

theorem mem_entries {ts : Table Nat (Table Pointer Bool)} {e : Nat × Pointer × Bool}
    (h : e ∈ entries env (env.walk ts)) : ∃ m, (e.1, m) ∈ ts ∧ e.2 ∈ m := by
  obtain ⟨t, ht, he⟩ := List.mem_flatMap.mp h
  obtain ⟨m, hm, rfl⟩ := List.mem_map.mp he
  exact ⟨t.2, (env.walk_perm ts).mem_iff.mp ht, (env.walk_perm t.2).mem_iff.mp hm⟩

/-- Only the first `n - cutSize` marks are erased. -/
theorem mem_eraseTables {ts : Table Nat (Table Pointer Bool)} {client : Nat}
    {m : Table Pointer Bool} {e : Pointer × Bool} (h : cutSize < n) (hm : (client, m) ∈ ts)
    (he : e ∈ m) (hkept : (client, e) ∉ (entries env ts).take (n - cutSize)) :
    ∃ m', (client, m') ∈ (eraseTables env ts n).1 ∧ e ∈ m' := by
  induction ts generalizing n with
  | nil => exact absurd hm List.not_mem_nil
  | cons t ts ih =>
    have hlen : ((env.walk t.2).map fun m => (t.1, m)).length = (env.walk t.2).length :=
      List.length_map _
    rw [entries, List.flatMap_cons, List.take_append, List.mem_append, not_or, hlen] at hkept
    rw [eraseTables, eraseMarks_eq h]
    dsimp only
    rcases List.mem_cons.mp hm with rfl | hm
    · have hdrop : e ∈ (env.walk m).drop (n - cutSize) := by
        have hwalk : e ∈ env.walk m := (env.walk_perm m).mem_iff.mpr he
        rw [← List.take_append_drop (n - cutSize) (env.walk m), List.mem_append] at hwalk
        refine hwalk.resolve_left fun htake => hkept.1 ?_
        rw [← List.map_take]
        exact List.mem_map_of_mem htake
      split
      · exact ⟨_, List.mem_cons_self, hdrop⟩
      · exact ⟨_, List.mem_cons_self, hdrop⟩
    · split
      · exact ⟨m, List.mem_cons_of_mem _ hm, he⟩
      · next hcut =>
        have hn : n - min (env.walk t.2).length (n - cutSize) - cutSize =
            n - cutSize - (env.walk t.2).length := by omega
        have hlt : cutSize < n - min (env.walk t.2).length (n - cutSize) := by omega
        obtain ⟨m', hm', he'⟩ := ih hlt hm (by rw [hn]; exact hkept.2)
        exact ⟨m', List.mem_cons_of_mem _ hm', he'⟩

end Collect

end Smts.LemmaServer
