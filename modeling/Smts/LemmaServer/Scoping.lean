import Mathlib.Data.List.Infix
import Smts.LemmaServer.Worker

namespace Smts.LemmaServer

open Smts.Lib
open Smts.Lib.Prog
open Smts.Server (render)

/-- The AND indices of a path, which alternates OR index and AND index. -/
def ands : List Nat → List Nat
  | _ :: a :: p => a :: ands p
  | _ => []

theorem ands_concat (p : List Nat) (i : Nat) :
    ands (p ++ [i]) = if p.length % 2 = 1 then ands p ++ [i] else ands p := by
  induction p using ands.induct with
  | case1 o a p ih =>
    simp only [List.cons_append, ands, ih, List.length_cons]
    by_cases h : p.length % 2 = 1
    · rw [if_pos h, if_pos (by omega)]
    · rw [if_neg h, if_neg (by omega)]
  | case2 p hp =>
    match p with
    | [] => rfl
    | [_] => rfl
    | o :: a :: p => exact absurd rfl (hp o a p)

theorem ands_prefix {p q : List Nat} (h : p <+: q) : ands p <+: ands q := by
  obtain ⟨r, rfl⟩ := h
  induction p using ands.induct with
  | case1 o a p ih => exact (List.prefix_cons_inj a).mpr ih
  | case2 p hp =>
    match p with
    | [] => exact List.nil_prefix
    | [_] => exact List.nil_prefix
    | o :: a :: p => exact absurd rfl (hp o a p)

theorem inits_concat (p : List Nat) (i : Nat) : (p ++ [i]).inits = p.inits ++ [p ++ [i]] := by
  simp [List.inits_append]

theorem getLastD_inits (p : List Nat) : p.inits.getLastD [] = p := by
  induction p using List.reverseRecOn with
  | nil => rfl
  | append_singleton p i _ => rw [inits_concat, List.getLastD_concat]

/-- A push or a pull. -/
structure Task where
  client : Nat
  name : Bytes
  path : List Nat
  push : Bool
  count : Nat
  body : List NetLemma := []
  rest : Header := []

namespace Task

def sign (t : Task) : UInt8 := if t.push then '+'.toUInt8 else '-'.toUInt8

def event (t : Task) : Event where
  header := (utf8 "name", t.name) :: (utf8 "node", utf8 (render t.path)) ::
    (utf8 "lemmas", t.sign :: decimal t.count) :: t.rest
  body := t.body

/-- All numbers that are read fit an `int`. -/
def Readable (t : Task) : Prop := t.count < 2 ^ 31 ∧ ∀ i ∈ ands t.path, i < 2 ^ 31

instance (t : Task) : Decidable t.Readable :=
  inferInstanceAs (Decidable (_ ∧ _))

end Task

/-- What was pushed for a name since its last clear, latest task first. -/
def pushed (name : Bytes) : List Task → List (List Nat × NetLemma)
  | [] => []
  | t :: ts =>
    if t.name = name ∧ t.Readable then
      if t.count = 0 then []
      else if t.push then t.body.map (fun l => (t.path, l)) ++ pushed name ts
      else pushed name ts
    else pushed name ts

/-- What is stored at each node satisfies `P`. -/
def Stored (P : Bytes → Address → NetLemma → Prop) (s : State) : Prop :=
  ∀ ⦃name t a index⦄, s.lemmas name = some t → t.lookup a = some index →
    ∀ e ∈ index, e.2.clause = e.1 ∧ P name a e.2.toNetLemma

namespace Stored

variable {P Q : Bytes → Address → NetLemma → Prop} {s s' : State} {name : Bytes}

theorem of_lemmas (h : Stored P s) (heq : s'.lemmas = s.lemmas) : Stored P s' := by
  intro n t a index ht
  rw [heq] at ht
  exact h ht

theorem imp (h : Stored P s) (hPQ : ∀ n a l, P n a l → Q n a l) : Stored Q s :=
  fun _ _ _ _ ht ha e he => (h ht ha e he).imp_right (hPQ _ _ _)

/-- One instance's tree changes. -/
theorem update (h : Stored P s) {o : Option (Trie Index)}
    (heq : s'.lemmas = Function.update s.lemmas name o)
    (ho : ∀ t, o = some t → ∀ a index, t.lookup a = some index →
      ∀ e ∈ index, e.2.clause = e.1 ∧ P name a e.2.toNetLemma) :
    Stored P s' := by
  intro n t a index ht
  rw [heq] at ht
  by_cases hn : n = name
  · subst hn
    rw [Function.update_self] at ht
    exact ho t ht a index
  · rw [Function.update_of_ne hn] at ht
    exact h ht

theorem grow (h : Stored P s) (a : Address) (n : Nat) :
    Stored P (modifyTree name (Trie.update (Trie.grow [] n) a) s).2 := by
  refine h.update rfl fun t ht b index hb e he => ?_
  obtain ⟨t', ht', rfl⟩ := Option.map_eq_some_iff.mp ht
  rcases Trie.eq_of_lookup_update_grow a hb with hb | rfl
  · exact h ht' hb e he
  · exact nomatch he

/-- One node's index changes. -/
theorem mapVal (h : Stored P s) (a : Address) (f : Index → Index)
    (hf : ∀ index, (∀ e ∈ index, e.2.clause = e.1 ∧ P name a e.2.toNetLemma) →
      ∀ e ∈ f index, e.2.clause = e.1 ∧ P name a e.2.toNetLemma) :
    Stored P (modifyTree name (Trie.update (Trie.mapVal f) a) s).2 := by
  refine h.update rfl fun t ht b index hb e he => ?_
  obtain ⟨t', ht', rfl⟩ := Option.map_eq_some_iff.mp ht
  rw [Trie.lookup_update_mapVal] at hb
  split at hb
  · next hba =>
    subst hba
    obtain ⟨index', hi, rfl⟩ := Option.map_eq_some_iff.mp hb
    exact hf index' (h ht' hi) e he
  · exact h ht' hb e he

theorem increase (h : Stored P s) (a : Address) (clause : Bytes) :
    Stored P (modifyTree name (Trie.update (Trie.mapVal (Index.increase clause)) a) s).2 := by
  refine h.mapVal a _ fun index hi e he => ?_
  obtain ⟨e', he', rfl⟩ := List.mem_map.mp he
  have := hi e' he'
  split <;> exact this

theorem addLemma (h : Stored P s) {a : Address} {l : NetLemma} (hl : P name a l) :
    Stored P (modifyTree name (Trie.update (Trie.mapVal (Index.addLemma l)) a) s).2 := by
  refine h.mapVal a _ fun index hi e he => ?_
  rcases (List.mem_orderedInsert _).mp he with rfl | he
  · exact ⟨rfl, hl⟩
  · exact hi e he

theorem open_ (h : Stored P s) : Stored P (LemmaServer.open_ name s).2 := by
  refine h.update rfl fun t ht a index ha e he => ?_
  rw [Option.some.injEq] at ht
  subst ht
  cases ht : s.lemmas name with
  | some t =>
    rw [ht] at ha
    exact h ht ha e he
  | none =>
    rw [ht] at ha
    cases a with
    | nil =>
      cases ha
      exact nomatch he
    | cons => exact nomatch ha

end Stored

section Worker

variable {P : Bytes → Address → NetLemma → Prop} {s : State} {name : Bytes} {client : Nat}

/-- Nothing but marks changes. -/
def MarksOnly (s s' : State) : Prop := s'.lemmas = s.lemmas ∧ s'.sent = s.sent

theorem MarksOnly.trans {s s' s'' : State} (h : MarksOnly s s') (h' : MarksOnly s' s'') :
    MarksOnly s s'' :=
  ⟨h'.1.trans h.1, h'.2.trans h.2⟩

theorem wp_modifyMarks {Q : Unit → State → Prop} {E : Exn → State → Prop}
    (f : Table Pointer Bool → Table Pointer Bool) (h : ∀ s', MarksOnly s s' → Q () s') :
    wp (modifyMarks name client f) Q E s :=
  h _ ⟨rfl, rfl⟩

theorem wp_garbageCollect {Q : Unit → State → Prop} {E : Exn → State → Prop} (env : Env)
    (n : Nat) (h : ∀ s', MarksOnly s s' → Q () s') : wp (garbageCollect env n name) Q E s := by
  rw [garbageCollect, wp_modify]
  refine h _ ?_
  dsimp only
  split <;> exact ⟨rfl, rfl⟩

theorem wp_forEach_mark {E : Exn → State → Prop} (ls : List (Pointer × Lemma)) :
    wp (forEach (fun l => mark name client l.1) ls) (fun _ s' => MarksOnly s s') E s :=
  wp_forEach (I := fun _ s' => MarksOnly s s')
    (fun _ _ _ h => wp_modifyMarks _ fun _ h' => h.trans h') ⟨rfl, rfl⟩

theorem open_root : ((open_ name s).2.lemmas name).isSome := by
  simp [LemmaServer.open_]

/-- The nodes on the way to `p` exist. -/
def Grown (name : Bytes) (p : List Nat) (s : State) : Prop :=
  ∀ a ∈ p.inits, ((s.lemmas name).bind (Trie.lookup a)).isSome

theorem Grown.child {p : List Nat} (h : Grown name p s) {i n : Nat} (hi : i < n) :
    Grown name (p ++ [i]) (modifyTree name (Trie.update (Trie.grow [] n) p) s).2 := by
  have hp := h p ((List.mem_inits p p).mpr (List.prefix_refl p))
  obtain ⟨index, hindex⟩ := Option.isSome_iff_exists.mp hp
  obtain ⟨t, ht, hlookup⟩ := Option.bind_eq_some_iff.mp hindex
  have htree : (modifyTree name (Trie.update (Trie.grow [] n) p) s).2.lemmas name =
      some (Trie.update (Trie.grow [] n) p t) := by simp [modifyTree, ht]
  intro a ha
  rw [htree, Option.bind_some]
  rw [inits_concat, List.mem_append, List.mem_singleton] at ha
  rcases ha with ha | rfl
  · obtain ⟨v, hv⟩ := Option.isSome_iff_exists.mp (h a ha)
    rw [ht, Option.bind_some] at hv
    rw [Trie.lookup_update_grow p hv]
    rfl
  · exact Trie.lookup_update_grow_child (by rw [hlookup]; rfl) hi

/-- The loop over the path makes and visits the nodes on the AND indices, or stops at
one that is too large. -/
theorem wp_resolve (h : Stored P s) (hroot : (s.lemmas name).isSome) (p : List Nat) :
    wp (foldEach (visit name) ([[]], 0) (p.map decimal))
      (fun acc s' => acc.1 = (ands p).inits ∧ (∀ i ∈ ands p, i < 2 ^ 31) ∧ Stored P s' ∧
        Grown name (ands p) s' ∧ s' = { s with lemmas := s'.lemmas })
      (fun _ s' => ¬ (∀ i ∈ ands p, i < 2 ^ 31) ∧ Stored P s' ∧
        s' = { s with lemmas := s'.lemmas }) s := by
  have hgrown : Grown name [] s := by
    intro a ha
    obtain ⟨t, ht⟩ := Option.isSome_iff_exists.mp hroot
    obtain rfl := List.mem_singleton.mp ha
    rw [ht]
    rfl
  refine wp_mono (wp_foldEach (I := fun acc rest s' => ∃ done todo, p = done ++ todo ∧
      rest = todo.map decimal ∧ acc = ((ands done).inits, done.length) ∧
      (∀ i ∈ ands done, i < 2 ^ 31) ∧ Stored P s' ∧ Grown name (ands done) s' ∧
      s' = { s with lemmas := s'.lemmas }) ?_
      ⟨[], p, rfl, rfl, rfl, by simp [ands], h, hgrown, rfl⟩) ?_ fun _ _ h => h
  · rintro acc token rest s' ⟨done, todo, rfl, hrest, rfl, hlt, hst, hgrown, hframe⟩
    cases todo with
    | nil => exact nomatch hrest
    | cons i todo =>
      obtain ⟨rfl, rfl⟩ := List.cons.inj hrest
      have happ : done ++ i :: todo = (done ++ [i]) ++ todo := by simp
      have hands := ands_concat done i
      unfold visit
      by_cases hodd : done.length % 2 = 1
      · rw [if_pos hodd] at hands
        rw [if_pos hodd, stoi_decimal]
        by_cases hi : i < 2 ^ 31
        · rw [if_pos hi]
          refine ⟨done ++ [i], todo, happ, rfl, ?_, ?_, hst.grow _ _, ?_, ?_⟩
          · rw [hands, inits_concat, getLastD_inits, List.length_append]
            rfl
          · rw [hands]
            simpa [or_imp, forall_and] using ⟨hlt, hi⟩
          · rw [hands, getLastD_inits]
            exact hgrown.child (by omega)
          · rw [hframe]
        · rw [if_neg hi]
          refine ⟨fun hall => hi (hall i ?_), hst, hframe⟩
          rw [happ]
          have hpre := ands_prefix (List.prefix_append (done ++ [i]) todo)
          rw [hands] at hpre
          exact hpre.subset (by simp)
      · rw [if_neg hodd] at hands
        rw [if_neg hodd]
        exact ⟨done ++ [i], todo, happ, rfl, by simp [hands], hands ▸ hlt, hst, hands ▸ hgrown,
          hframe⟩
  · rintro acc s' ⟨done, todo, rfl, htodo, rfl, hlt, hst, hgrown, hframe⟩
    obtain rfl := List.map_eq_nil_iff.mp htodo.symm
    rw [List.append_nil]
    exact ⟨rfl, hlt, hst, hgrown, hframe⟩

theorem wp_index {Q : Index → State → Prop} {a : Address}
    (h : ∀ index t, s.lemmas name = some t → t.lookup a = some index → Q index s)
    {E : Exn → State → Prop} (hE : E .dangling s) : wp (index name a) Q E s := by
  rw [index, wp_bind, wp_gets]
  split
  · next heq =>
    obtain ⟨t, ht, ha⟩ := Option.bind_eq_some_iff.mp heq
    exact h _ t ht ha
  · exact hE

theorem wp_pushLemma {path : List Nat} {l : NetLemma} (h : Stored P s)
    (hl : (s.lemmas name).isSome → ∀ k ≤ path.length, l.level = k → P name (path.take k) l) :
    wp (pushLemma name client path.inits l)
      (fun _ s' => Stored P s' ∧ s'.sent = s.sent ∧
        (s'.lemmas name).isSome = (s.lemmas name).isSome)
      (fun _ s' => Stored P s' ∧ s'.sent = s.sent) s := by
  unfold pushLemma
  split
  · exact ⟨h, rfl⟩
  · next hlevel =>
    obtain ⟨k, hk⟩ := Int.eq_ofNat_of_zero_le (a := l.level) (by omega)
    have hlen : k < path.inits.length := by omega
    have ha : path.inits.getD l.level.toNat [] = path.take k := by
      rw [hk, Int.toNat_natCast, List.getD_eq_getElem?_getD, List.getElem?_eq_getElem hlen,
        List.getElem_inits]
      rfl
    rw [wp_bind, ha]
    refine wp_index (fun index t ht hi => ?_) ⟨h, rfl⟩
    have hP : P name (path.take k) l := by
      rw [List.length_inits] at hlen
      exact hl (by rw [ht]; rfl) k (Nat.le_of_lt_succ hlen) hk
    have hsome : ∀ f, ((modifyTree name f s).2.lemmas name).isSome = (s.lemmas name).isSome := by
      intro f
      simp [modifyTree]
    split
    · exact ⟨(h.increase _ _).of_lemmas rfl, rfl, hsome _⟩
    · exact ⟨(h.addLemma hP).of_lemmas rfl, rfl, hsome _⟩

theorem wp_push {env : Env} {path : List Nat} {body : List NetLemma} (h : Stored P s)
    (hl : (s.lemmas name).isSome → ∀ l ∈ body, ∀ k ≤ path.length, l.level = k →
      P name (path.take k) l) :
    wp (push env name client path.inits body) (fun _ s' => Stored P s' ∧ s'.sent = s.sent)
      (fun _ s' => Stored P s' ∧ s'.sent = s.sent) s := by
  rw [push, wp_bind]
  refine wp_modifyMarks _ fun s₁ h₁ => ?_
  rw [wp_bind]
  refine wp_garbageCollect _ _ fun s₂ h₂ => ?_
  have hmarks := h₁.trans h₂
  refine wp_mono (wp_forEach (I := fun rest s' => (∀ l ∈ rest, l ∈ body) ∧ Stored P s' ∧
    s'.sent = s.sent ∧ (s'.lemmas name).isSome = (s.lemmas name).isSome) ?_
    ⟨fun _ h => h, h.of_lemmas hmarks.1, hmarks.2, by rw [hmarks.1]⟩)
    (fun _ _ h => ⟨h.2.1, h.2.2.1⟩) fun _ _ h => h
  rintro l rest s' ⟨hrest, hst, hsent, hsome⟩
  refine wp_mono (wp_pushLemma hst fun h => hl (hsome ▸ h) l (hrest l (by simp))) ?_ ?_
  · rintro - s'' ⟨hst', hsent', hsome'⟩
    exact ⟨fun l hl => hrest l (List.mem_cons_of_mem _ hl), hst', hsent'.trans hsent,
      hsome'.trans hsome⟩
  · rintro - s'' ⟨hst', hsent'⟩
    exact ⟨hst', hsent'.trans hsent⟩

/-- What a pull collects is stored at a node it visited. -/
def Found (P : Bytes → Address → NetLemma → Prop) (name : Bytes) (path : List Address)
    (ls : List (Pointer × Lemma)) : Prop :=
  ∀ x ∈ ls, ∃ a ∈ path, P name a x.2.toNetLemma

theorem wp_filter {path : List Address} {ls : List (Pointer × Lemma)} {a : Address}
    (h : Stored P s) (hls : Found P name path ls) (ha : a ∈ path) :
    wp (filter name client ls a) (fun ls s' => Found P name path ls ∧ MarksOnly s s')
      (fun _ s' => MarksOnly s s') s := by
  rw [filter, wp_bind]
  refine wp_index (fun index t ht hi => ?_) ⟨rfl, rfl⟩
  refine wp_mono (wp_foldEach (I := fun ls rest s' => (∀ e ∈ rest, e ∈ index) ∧
    Found P name path ls ∧ MarksOnly s s') ?_ ⟨fun _ h => h, hls, rfl, rfl⟩) (fun _ _ h => h.2)
    fun _ _ h => h
  rintro ls e rest s' ⟨hrest, hfound, hmarks⟩
  have hrest' : ∀ e ∈ rest, e ∈ index := fun e he => hrest e (List.mem_cons_of_mem _ he)
  rw [marked, wp_bind, wp_bind]
  refine wp_modifyMarks _ fun s'' hmarks' => ?_
  rw [wp_gets]
  split
  · exact ⟨hrest', hfound, hmarks.trans hmarks'⟩
  · refine ⟨hrest', fun x hx => ?_, hmarks.trans hmarks'⟩
    rcases List.mem_append.mp hx with hx | hx
    · exact hfound x hx
    · rw [List.mem_singleton] at hx
      subst hx
      exact ⟨a, ha, (h ht hi e (hrest e (by simp))).2⟩

theorem mem_select {env : Env} {request : Nat} {ls : List (Pointer × Lemma)}
    {x : Pointer × Lemma} (h : x ∈ select env request ls) : x ∈ ls := by
  unfold select at h
  split at h
  · rcases List.mem_append.mp h with h | h
    · have := List.mem_of_mem_take ((env.partialSort_perm _ _ _).mem_iff.mp h)
      exact (env.nthElement_perm _ _ _).mem_iff.mp this
    · exact (env.nthElement_perm _ _ _).mem_iff.mp (List.mem_of_mem_drop h)
  · exact h

/-- A pull ends with one reply, of lemmas stored at nodes it visited. -/
def Answered (P : Bytes → Address → NetLemma → Prop) (header : Header) (client : Nat)
    (path : List Address) (s s' : State) : Prop :=
  s'.lemmas = s.lemmas ∧ ∃ (n : Nat) (ls : List NetLemma),
    s'.sent = s.sent ++ [⟨client, header.set "lemmas" (decimal n), ls⟩] ∧
    ∀ l ∈ ls, ∃ a ∈ path, P (get header "name") a l

theorem wp_answer {env : Env} {header : Header} {path : List Address} {s' : State}
    {ls : List NetLemma} (h : MarksOnly s s')
    (hls : ∀ l ∈ ls, ∃ a ∈ path, P (get header "name") a l) :
    wp (answer env header client ls) (fun _ s'' => Answered P header client path s s'')
      (fun _ s'' => MarksOnly s s'') s' := by
  unfold answer
  split
  · exact ⟨h.1, _, ls, congrArg (· ++ _) h.2, hls⟩
  · exact h

theorem wp_pull {env : Env} {header : Header} {path : List Address} {request : Nat}
    (h : Stored P s) :
    wp (pull env header client path request)
      (fun _ s' => Answered P header client path s s') (fun _ s' => MarksOnly s s') s := by
  rw [pull, wp_bind]
  refine wp_modifyMarks _ fun s₁ h₁ => ?_
  rw [wp_bind]
  refine wp_mono (wp_foldEach (I := fun ls rest s' => (∀ a ∈ rest, a ∈ path) ∧
    Found P (get header "name") path ls ∧ MarksOnly s s') ?_ ⟨fun _ h => h, by simp [Found], h₁⟩)
    ?_ fun _ _ h => h
  · rintro ls a rest s' ⟨hrest, hfound, hmarks⟩
    refine wp_mono (wp_filter (h.of_lemmas hmarks.1) hfound (hrest a (by simp))) ?_
      fun _ _ h => hmarks.trans h
    rintro ls s'' ⟨hfound', hmarks'⟩
    exact ⟨fun a ha => hrest a (List.mem_cons_of_mem _ ha), hfound', hmarks.trans hmarks'⟩
  rintro ls s₂ ⟨-, hfound, hmarks⟩
  have hls : ∀ l ∈ ((select env request ls).take request).map (·.2.toNetLemma),
      ∃ a ∈ path, P (get header "name") a l := by
    intro l hl
    obtain ⟨x, hx, rfl⟩ := List.mem_map.mp hl
    exact hfound x (mem_select (List.mem_of_mem_take hx))
  rw [wp_bind, wp_gets, wp_bind, wp_when]
  exact ⟨fun _ => wp_mono (wp_forEach_mark _) (fun _ s₃ h₃ => wp_answer (hmarks.trans h₃) hls)
    fun _ _ h => hmarks.trans h, fun _ => wp_answer hmarks hls⟩

end Worker

/-- A stored lemma was pushed by a task of the history whose path leads there on its
AND indices. -/
def FromPush (ts : List Task) (name : Bytes) (a : Address) (l : NetLemma) : Prop :=
  l.level = a.length ∧ ∃ x ∈ pushed name ts, x.2 = l ∧ (ands x.1).take a.length = a

theorem mem_pushed {name : Bytes} {ts : List Task} {x : List Nat × NetLemma}
    (h : x ∈ pushed name ts) :
    ∃ t ∈ ts, t.push = true ∧ t.name = name ∧ t.path = x.1 ∧ x.2 ∈ t.body := by
  induction ts with
  | nil => exact nomatch h
  | cons t ts ih =>
    have hrest : x ∈ pushed name ts →
        ∃ t' ∈ t :: ts, t'.push = true ∧ t'.name = name ∧ t'.path = x.1 ∧ x.2 ∈ t'.body := by
      intro h
      obtain ⟨t', ht', h'⟩ := ih h
      exact ⟨t', List.mem_cons_of_mem _ ht', h'⟩
    unfold pushed at h
    split at h
    · next hname =>
      split at h
      · exact nomatch h
      · split at h
        · next hpush =>
          rcases List.mem_append.mp h with h | h
          · obtain ⟨l, hl, rfl⟩ := List.mem_map.mp h
            exact ⟨t, List.mem_cons_self, hpush, hname.1, rfl, hl⟩
          · exact hrest h
        · exact hrest h
    · exact hrest h

theorem pushed_unreadable {t : Task} (h : ¬ t.Readable) (name : Bytes) (ts : List Task) :
    pushed name (t :: ts) = pushed name ts :=
  if_neg fun h' => h h'.2

theorem pushed_of_ne {t : Task} {name : Bytes} (h : name ≠ t.name) (ts : List Task) :
    pushed name (t :: ts) = pushed name ts :=
  if_neg fun h' => h h'.1.symm

theorem pushed_subset {t : Task} (h : t.count ≠ 0) (name : Bytes) (ts : List Task) :
    pushed name ts ⊆ pushed name (t :: ts) := by
  rw [pushed, if_neg h]
  split
  · split
    · exact List.subset_append_right _ _
    · exact fun _ h => h
  · exact fun _ h => h

theorem mem_pushed_push {t : Task} {l : NetLemma} (h : t.Readable) (hcount : t.count ≠ 0)
    (hpush : t.push = true) (hl : l ∈ t.body) (ts : List Task) :
    (t.path, l) ∈ pushed t.name (t :: ts) := by
  rw [pushed, if_pos ⟨rfl, h⟩, if_neg hcount, if_pos hpush]
  exact List.mem_append_left _ (List.mem_map_of_mem hl)

theorem FromPush.cons {t : Task} (h : t.count ≠ 0) {ts : List Task} {name : Bytes} {a : Address}
    {l : NetLemma} : FromPush ts name a l → FromPush (t :: ts) name a l
  | ⟨hlevel, x, hx, hl⟩ => ⟨hlevel, x, pushed_subset h name ts hx, hl⟩

theorem stored_unreadable {t : Task} {ts : List Task} {s : State} (h : ¬ t.Readable)
    (hs : Stored (FromPush ts) s) : Stored (FromPush (t :: ts)) s :=
  hs.imp fun _ _ _ ⟨hlevel, x, hx, hl⟩ => ⟨hlevel, x, by rwa [pushed_unreadable h], hl⟩

theorem stored_clear {t : Task} {ts : List Task} {s : State} (hs : Stored (FromPush ts) s) :
    Stored (FromPush (t :: ts)) (clear t.name s).2 := by
  intro name tree a index ht ha e he
  simp only [clear, modify_run] at ht
  by_cases hn : name = t.name
  · subst hn
    rw [Function.update_self] at ht
    exact nomatch ht
  · rw [Function.update_of_ne hn] at ht
    obtain ⟨hclause, hlevel, x, hx, hl⟩ := hs ht ha e he
    exact ⟨hclause, hlevel, x, by rwa [pushed_of_ne hn], hl⟩

/-- No lemma was pushed from a node that the puller's path only seems to share: the
same AND indices down to its level under different OR indices. -/
def Apart (ts : List Task) (t : Task) : Prop :=
  t.push = false → t.Readable → ∀ x ∈ pushed t.name (t :: ts), ∀ k : Nat, x.2.level = k →
    (ands x.1).take k = (ands t.path).take k → x.1.take (2 * k) = t.path.take (2 * k)

section Event

variable (t : Task)

theorem get_name : get t.event.header "name" = t.name := rfl

theorem get_node : get t.event.header "node" = utf8 (render t.path) := rfl

theorem get_lemmas : get t.event.header "lemmas" = t.sign :: decimal t.count := rfl

theorem sign_eq_plus : t.sign = '+'.toUInt8 ↔ t.push = true := by
  rw [Task.sign]
  cases t.push with
  | true => exact iff_of_true rfl rfl
  | false => exact iff_of_false (by decide) Bool.false_ne_true

theorem sign_eq_minus : t.sign = '-'.toUInt8 ↔ t.push = false := by
  rw [Task.sign]
  cases t.push with
  | true => exact iff_of_false (by decide) (Ne.symm Bool.false_ne_true)
  | false => exact iff_of_true rfl rfl

end Event

/-- What a task may leave behind: at most one reply, if it is a pull. -/
def Left (ts : List Task) (t : Task) (s s' : State) : Prop :=
  Stored (FromPush (t :: ts)) s' ∧ (s'.sent = s.sent ∨ t.push = false ∧ t.Readable ∧
    ∃ (n : Nat) (ls : List NetLemma),
      s'.sent = s.sent ++ [⟨t.client, t.event.header.set "lemmas" (decimal n), ls⟩] ∧
      ∀ l ∈ ls, ∃ a ∈ (ands t.path).inits, FromPush (t :: ts) t.name a l)

theorem wp_serve {ts : List Task} {s s' : State} (env : Env) {t : Task} (hread : t.Readable)
    (h : Stored (FromPush (t :: ts)) s') (hsent : s'.sent = s.sent)
    (hcount : (s'.lemmas t.name).isSome → t.count ≠ 0) :
    wp (if t.push = true then push env t.name t.client (ands t.path).inits t.event.body
      else if t.push = false then pull env t.event.header t.client (ands t.path).inits t.count
      else pure ()) (fun _ s'' => Left ts t s s'') (fun _ s'' => Left ts t s s'') s' := by
  cases hpush : t.push with
  | true =>
    refine wp_mono (wp_push h fun hsome l hl k hk hlevel => ?_) ?_ ?_
    · refine ⟨by rw [hlevel, List.length_take_of_le hk], (t.path, l),
        mem_pushed_push hread (hcount hsome) hpush hl ts, rfl, ?_⟩
      rw [List.length_take_of_le hk]
    · exact fun _ _ h => ⟨h.1, .inl (h.2.trans hsent)⟩
    · exact fun _ _ h => ⟨h.1, .inl (h.2.trans hsent)⟩
  | false =>
    refine wp_mono (wp_pull h) ?_ ?_
    · rintro - s'' ⟨hlemmas, n, ls, hls, hfound⟩
      exact ⟨h.of_lemmas hlemmas, .inr ⟨hpush, hread, n, ls, by rw [hls, hsent], hfound⟩⟩
    · exact fun _ _ h' => ⟨h.of_lemmas h'.1, .inl (h'.2.trans hsent)⟩

theorem wp_lemmaWorker {ts : List Task} {s : State} (env : Env) (t : Task)
    (h : Stored (FromPush ts) s) :
    wp (lemmaWorker env t.client t.event) (fun _ s' => Left ts t s s')
      (fun _ s' => Left ts t s s') s := by
  have hstop : ∀ s', ¬ t.Readable → Stored (FromPush ts) s' → s'.sent = s.sent → Left ts t s s' :=
    fun s' hread hst hsent => ⟨stored_unreadable hread hst, .inl hsent⟩
  simp only [lemmaWorker, get_name, get_node, get_lemmas, substr1, List.head?_cons,
    Option.some.injEq, sign_eq_plus, sign_eq_minus, List.drop_succ_cons,
    List.drop_zero, reduceCtorEq, if_false, inner_render, Except.bind, stoi_decimal, wp_bind]
  by_cases hcount : t.count < 2 ^ 31
  · rw [if_pos hcount, wp_ofExcept_ok, open_, wp_modify, wp_ofExcept_ok, tokens_render]
    refine wp_mono (wp_resolve h.open_ open_root t.path) ?_ ?_
    · rintro ⟨path, n⟩ s₁ ⟨rfl, hlt, hst, -, hframe⟩
      have hsent : s₁.sent = s.sent := by rw [hframe]; rfl
      have hread : t.Readable := ⟨hcount, hlt⟩
      have hrequest : ((t.count : Int) % 2 ^ 32).toNat = t.count := by omega
      dsimp only
      rw [hrequest, wp_when]
      refine ⟨fun hzero => ?_, fun hcount => ?_⟩
      · refine wp_serve env hread (stored_clear hst) hsent fun hsome => ?_
        simp at hsome
      · exact wp_serve env hread (hst.imp fun _ _ _ => FromPush.cons hcount) hsent fun _ => hcount
    · rintro - s₁ ⟨hbig, hst, hframe⟩
      exact hstop s₁ (fun hr => hbig hr.2) hst (by rw [hframe]; rfl)
  · rw [if_neg hcount]
    exact hstop s (fun hr => hcount hr.1) h rfl

/-- A run of the pool thread and the closing of sockets, with the tasks run so far,
latest first. -/
inductive Run (G : List Task → Task → Prop) : List Task → State → Prop
  | start (sendAgain : Bool) : Run G [] { sendAgain }
  | work {ts : List Task} {s : State} (env : Env) (t : Task) :
      Run G ts s → G ts t → Run G (t :: ts) (lemmaWorker env t.client t.event s).2
  | close {ts : List Task} {s : State} (client : Nat) : Run G ts s → Run G ts (forget client s)

/-- The reply belongs to a pull, and each lemma in it was pushed for the same name from
below the AND node that stands at its level above the puller. -/
def Scoped (ts : List Task) (r : Reply) : Prop :=
  ∃ p ∈ ts, p.push = false ∧ r.client = p.client ∧
    (∃ n : Nat, r.header = p.event.header.set "lemmas" (decimal n)) ∧
    ∀ l ∈ r.body, ∃ t ∈ ts, t.push = true ∧ t.name = p.name ∧ l ∈ t.body ∧
      ∃ k : Nat, l.level = k ∧ t.path.take (2 * k) = p.path.take (2 * k)

theorem Scoped.cons {ts : List Task} {r : Reply} (h : Scoped ts r) (t : Task) :
    Scoped (t :: ts) r := by
  obtain ⟨p, hp, hpush, hclient, hheader, hbody⟩ := h
  refine ⟨p, List.mem_cons_of_mem _ hp, hpush, hclient, hheader, fun l hl => ?_⟩
  obtain ⟨t', ht', h'⟩ := hbody l hl
  exact ⟨t', List.mem_cons_of_mem _ ht', h'⟩

theorem left_scoped {ts : List Task} {t : Task} {s s' : State} (hG : Apart ts t)
    (hs : ∀ r ∈ s.sent, Scoped ts r) (h : Left ts t s s') : ∀ r ∈ s'.sent, Scoped (t :: ts) r := by
  intro r hr
  rcases h.2 with hsent | ⟨hpush, hread, n, ls, hsent, hfound⟩
  · rw [hsent] at hr
    exact (hs r hr).cons t
  rw [hsent] at hr
  rcases List.mem_append.mp hr with hr | hr
  · exact (hs r hr).cons t
  · rw [List.mem_singleton] at hr
    subst hr
    refine ⟨t, List.mem_cons_self, hpush, rfl, ⟨n, rfl⟩, fun l hl => ?_⟩
    obtain ⟨a, ha, hlevel, x, hx, rfl, htake⟩ := hfound l hl
    obtain ⟨t', ht', hpush', hname, hpath, hbody⟩ := mem_pushed hx
    have hprefix := (List.mem_inits a _).mp ha
    refine ⟨t', ht', hpush', hname, hbody, a.length, hlevel, ?_⟩
    rw [hpath]
    exact hG hpush hread x hx a.length hlevel
      (htake.trans (List.prefix_iff_eq_take.mp hprefix))

theorem run_invariant {ts : List Task} {s : State} (h : Run Apart ts s) :
    Stored (FromPush ts) s ∧ ∀ r ∈ s.sent, Scoped ts r := by
  induction h with
  | start sendAgain => exact ⟨fun _ _ _ _ h => (nomatch h), fun _ h => (nomatch h)⟩
  | work env t _ hG ih =>
    have hleft := wp_final (wp_lemmaWorker env t ih.1)
    exact ⟨hleft.1, left_scoped hG ih.2 hleft⟩
  | close client _ ih => exact ⟨ih.1.of_lemmas rfl, ih.2⟩

theorem lemmas_scoped {ts : List Task} {s : State} (h : Run Apart ts s) :
    ∀ r ∈ s.sent, Scoped ts r :=
  (run_invariant h).2

/-- A lemma is pushed from below the second partition of one splitting. -/
def deepPush : Task where
  client := 1
  name := utf8 "a.smt2"
  path := [0, 1, 0, 0]
  push := true
  count := 1
  body := [⟨utf8 "x", 1⟩]

def pullAt (path : List Nat) : Task where
  client := 2
  name := utf8 "a.smt2"
  path := path
  push := false
  count := 5

def answers (ts : List Task) : State :=
  ts.foldr (fun t s => (lemmaWorker .sorting t.client t.event s).2) {}

theorem apart_pullAt : Apart [deepPush] (pullAt [0, 1]) := by
  intro _ _ x hx k hk _
  have hpushed : pushed (pullAt [0, 1]).name [pullAt [0, 1], deepPush] =
      [([0, 1, 0, 0], ⟨utf8 "x", 1⟩)] := by decide +kernel
  rw [hpushed, List.mem_singleton] at hx
  subst hx
  obtain rfl : k = 1 := by
    have : (1 : Int) = k := hk
    omega
  decide

theorem lemmas_scoped_ancestor :
    (answers [pullAt [0, 1], deepPush]).sent.map Reply.body = [[⟨utf8 "x", 1⟩]] ∧
      ∀ r ∈ (answers [pullAt [0, 1], deepPush]).sent, Scoped [pullAt [0, 1], deepPush] r :=
  ⟨by decide +kernel, lemmas_scoped (.work .sorting _ (.work .sorting _ (.start false)
    fun h => nomatch h) apart_pullAt)⟩

/-- The same AND index below another OR node of the same parent. -/
def siblingPush : Task := { deepPush with path := [1, 1, 0, 0] }

theorem lemmas_cross_or_nodes :
    ∃ ts s, Run (fun _ _ => True) ts s ∧
      (∀ t ∈ ts, t.path.length % 2 = 0 ∧ ∀ l ∈ t.body, 2 * l.level ≤ t.path.length) ∧
      ∃ r ∈ s.sent, ¬ Scoped ts r := by
  have hsent : (answers [pullAt [0, 1], siblingPush]).sent =
      [⟨2, (pullAt [0, 1]).event.header.set "lemmas" (utf8 "1"), [⟨utf8 "x", 1⟩]⟩] := by decide +kernel
  refine ⟨[pullAt [0, 1], siblingPush], answers [pullAt [0, 1], siblingPush],
    .work .sorting _ (.work .sorting _ (.start false) trivial) trivial, by decide, _,
    hsent ▸ List.mem_singleton_self _, ?_⟩
  rintro ⟨p, hp, hpush, -, -, hbody⟩
  obtain ⟨t, ht, hpush', -, -, k, hk, htake⟩ := hbody ⟨utf8 "x", 1⟩ (List.mem_singleton_self _)
  obtain rfl : k = 1 := by
    have : (1 : Int) = k := hk
    omega
  simp only [List.mem_cons, List.not_mem_nil, or_false] at hp ht
  rcases hp with rfl | rfl
  · rcases ht with rfl | rfl
    · exact nomatch hpush'
    · exact absurd htake (by decide)
  · exact nomatch hpush

end Smts.LemmaServer
