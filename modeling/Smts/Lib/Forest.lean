import Mathlib.Data.List.Nodup
import Mathlib.Logic.Function.Basic
import Mathlib.Logic.Relation

namespace Smts.Lib

/-- A growing forest of nodes that point to their parent and list their
children.  A child that was dropped from its parent's list keeps its parent
pointer, so the two directions agree only one way. -/
structure Forest where
  size : Nat
  parent : Nat → Option Nat
  children : Nat → List Nat
  root : Nat → Nat
  parent_lt : ∀ {c p}, parent c = some p → p < c
  lt_size : ∀ {c p}, parent c = some p → c < size
  parent_of_mem : ∀ {c p}, c ∈ children p → parent c = some p
  nodup : ∀ p, (children p).Nodup
  root_of_parent : ∀ {c p}, parent c = some p → root c = root p
  root_of_none : ∀ {n}, parent n = none → root n = n

namespace Forest

def empty : Forest where
  size := 0
  parent _ := none
  children _ := []
  root n := n
  parent_lt h := nomatch h
  lt_size h := nomatch h
  parent_of_mem h := nomatch h
  nodup _ := List.nodup_nil
  root_of_parent h := nomatch h
  root_of_none _ := rfl

variable (F : Forest)

theorem parent_size : F.parent F.size = none := by
  cases h : F.parent F.size with
  | none => rfl
  | some p => exact absurd (F.lt_size h) (Nat.lt_irrefl _)

variable {F}

theorem mem_lt_size {c p : Nat} (h : c ∈ F.children p) : c < F.size :=
  F.lt_size (F.parent_of_mem h)

theorem lt_of_mem {c p : Nat} (h : c ∈ F.children p) : p < c :=
  F.parent_lt (F.parent_of_mem h)

theorem parent_of_size_le {c : Nat} (h : F.size ≤ c) : F.parent c = none := by
  cases hp : F.parent c with
  | none => rfl
  | some p => exact absurd (F.lt_size hp) (Nat.not_lt.mpr h)

theorem children_of_size_le {p : Nat} (h : F.size ≤ p) : F.children p = [] := by
  refine List.eq_nil_iff_forall_not_mem.mpr fun c hc => ?_
  have := lt_of_mem hc
  have := mem_lt_size hc
  omega

variable (F)

def addRoot : Forest where
  size := F.size + 1
  parent := F.parent
  children := F.children
  root := F.root
  parent_lt := F.parent_lt
  lt_size h := Nat.lt_succ_of_lt (F.lt_size h)
  parent_of_mem := F.parent_of_mem
  nodup := F.nodup
  root_of_parent := F.root_of_parent
  root_of_none := F.root_of_none

def addChild (p : Nat) (hp : p < F.size) : Forest where
  size := F.size + 1
  parent := Function.update F.parent F.size (some p)
  children := Function.update F.children p (F.children p ++ [F.size])
  root := Function.update F.root F.size (F.root p)
  parent_lt {c q} h := by
    by_cases hc : c = F.size
    · subst hc
      simp only [Function.update_self, Option.some.injEq] at h
      omega
    · rw [Function.update_of_ne hc] at h
      exact F.parent_lt h
  lt_size {c q} h := by
    by_cases hc : c = F.size
    · omega
    · rw [Function.update_of_ne hc] at h
      exact Nat.lt_succ_of_lt (F.lt_size h)
  parent_of_mem {c q} h := by
    have old : c ∈ F.children q → Function.update F.parent F.size (some p) c = some q := by
      intro hq
      rw [Function.update_of_ne (Nat.ne_of_lt (mem_lt_size hq))]
      exact F.parent_of_mem hq
    by_cases hq : q = p
    · subst hq
      rw [Function.update_self, List.mem_append, List.mem_singleton] at h
      rcases h with h | rfl
      · exact old h
      · rw [Function.update_self]
    · rw [Function.update_of_ne hq] at h
      exact old h
  nodup q := by
    by_cases hq : q = p
    · subst hq
      rw [Function.update_self]
      refine List.Nodup.append (F.nodup q) (List.nodup_singleton _) ?_
      intro c hc hs
      rw [List.mem_singleton] at hs
      exact Nat.lt_irrefl _ (hs ▸ mem_lt_size hc)
    · rw [Function.update_of_ne hq]
      exact F.nodup q
  root_of_parent {c q} h := by
    by_cases hc : c = F.size
    · subst hc
      simp only [Function.update_self, Option.some.injEq] at h
      subst h
      rw [Function.update_self, Function.update_of_ne (Nat.ne_of_lt hp)]
    · rw [Function.update_of_ne hc] at h
      have hlt : q < F.size := Nat.lt_trans (F.parent_lt h) (F.lt_size h)
      rw [Function.update_of_ne hc, Function.update_of_ne (Nat.ne_of_lt hlt)]
      exact F.root_of_parent h
  root_of_none {n} h := by
    by_cases hn : n = F.size
    · subst hn; simp at h
    · rw [Function.update_of_ne hn] at h ⊢
      exact F.root_of_none h

def clear (p : Nat) : Forest where
  size := F.size
  parent := F.parent
  children := Function.update F.children p []
  root := F.root
  parent_lt := F.parent_lt
  lt_size := F.lt_size
  parent_of_mem {c q} h := by
    by_cases hq : q = p
    · subst hq; simp at h
    · rw [Function.update_of_ne hq] at h
      exact F.parent_of_mem h
  nodup q := by
    by_cases hq : q = p
    · subst hq; simp
    · rw [Function.update_of_ne hq]
      exact F.nodup q
  root_of_parent := F.root_of_parent
  root_of_none := F.root_of_none

/-- `F.Reaches a b` says that `b` is `a` or lies below it through the lists of
children. -/
def Reaches : Nat → Nat → Prop :=
  Relation.ReflTransGen fun p c => c ∈ F.children p

/-- The node is still listed, level by level, under its root. -/
def Attached (n : Nat) : Prop := F.Reaches (F.root n) n

variable {F}

theorem Reaches.refl (n : Nat) : F.Reaches n n := Relation.ReflTransGen.refl

theorem Reaches.trans {a b c : Nat} (h₁ : F.Reaches a b) (h₂ : F.Reaches b c) :
    F.Reaches a c := Relation.ReflTransGen.trans h₁ h₂

theorem Reaches.child {a p c : Nat} (h : F.Reaches a p) (hc : c ∈ F.children p) :
    F.Reaches a c := Relation.ReflTransGen.tail h hc

theorem Reaches.of_mem {p c : Nat} (hc : c ∈ F.children p) : F.Reaches p c :=
  (Reaches.refl p).child hc

theorem Reaches.children_ne_nil {a b : Nat} (h : F.Reaches a b) (hne : a ≠ b) :
    F.children a ≠ [] := by
  rcases Relation.ReflTransGen.cases_head h with he | ⟨c, hc, _⟩
  · exact absurd he hne
  · exact List.ne_nil_of_mem hc

theorem Reaches.le {a b : Nat} (h : F.Reaches a b) : a ≤ b := by
  induction h with
  | refl => exact Nat.le_refl _
  | tail _ hc ih => exact Nat.le_of_lt (Nat.lt_of_le_of_lt ih (lt_of_mem hc))

theorem Reaches.root_eq {a b : Nat} (h : F.Reaches a b) : F.root b = F.root a := by
  induction h with
  | refl => rfl
  | tail _ hc ih => rw [F.root_of_parent (F.parent_of_mem hc), ih]

theorem Reaches.lt_size {a b : Nat} (h : F.Reaches a b) (ha : a < F.size) : b < F.size := by
  induction h with
  | refl => exact ha
  | tail _ hc _ => exact mem_lt_size hc

/-- The last step of a walk downwards goes through the parent. -/
theorem Reaches.parent_cases {a b : Nat} (h : F.Reaches a b) :
    a = b ∨ ∃ p, F.parent b = some p ∧ b ∈ F.children p ∧ F.Reaches a p := by
  cases h with
  | refl => exact Or.inl rfl
  | tail hp hc => exact Or.inr ⟨_, F.parent_of_mem hc, hc, hp⟩

theorem Reaches.parent_of_ne {a b p : Nat} (h : F.Reaches a b) (hp : F.parent b = some p)
    (hne : a ≠ b) : F.Reaches a p ∧ b ∈ F.children p := by
  rcases h.parent_cases with rfl | ⟨q, hq, hc, ha⟩
  · exact absurd rfl hne
  · rw [hp, Option.some.injEq] at hq
    subst hq
    exact ⟨ha, hc⟩

/-- Two nodes above the same node lie on one walk. -/
theorem Reaches.total {a b n : Nat} (ha : F.Reaches a n) (hb : F.Reaches b n) :
    F.Reaches a b ∨ F.Reaches b a := by
  induction ha generalizing b with
  | refl => exact Or.inr hb
  | tail hap hc ih =>
    rcases hb.parent_cases with rfl | ⟨q, hq, _, hbq⟩
    · exact Or.inl (Reaches.child hap hc)
    · rw [F.parent_of_mem hc, Option.some.injEq] at hq
      subst hq
      exact ih hbq

theorem Reaches.antisymm {a b : Nat} (h₁ : F.Reaches a b) (h₂ : F.Reaches b a) : a = b :=
  Nat.le_antisymm h₁.le h₂.le

/-- Walks survive every change that drops no listed child along them. -/
theorem Reaches.mono {G : Forest} {a b : Nat} (h : F.Reaches a b)
    (hsub : ∀ p c, c ∈ F.children p → c ∈ G.children p) : G.Reaches a b := by
  induction h with
  | refl => exact Reaches.refl _
  | tail _ hc ih => exact ih.child (hsub _ _ hc)

theorem root_parent (F : Forest) (n : Nat) : F.parent (F.root n) = none := by
  induction n using Nat.strongRecOn with
  | ind n ih =>
    cases h : F.parent n with
    | none => rw [F.root_of_none h, h]
    | some p => rw [F.root_of_parent h]; exact ih p (F.parent_lt h)

theorem root_root (F : Forest) (n : Nat) : F.root (F.root n) = F.root n :=
  F.root_of_none (F.root_parent n)

theorem attached_of_none {n : Nat} (h : F.parent n = none) : F.Attached n := by
  rw [Attached, F.root_of_none h]
  exact Reaches.refl n

theorem Attached.below {a b : Nat} (h : F.Attached a) (hab : F.Reaches a b) : F.Attached b := by
  rw [Attached, hab.root_eq]
  exact Reaches.trans h hab

theorem Attached.child {p c : Nat} (h : F.Attached p) (hc : c ∈ F.children p) : F.Attached c :=
  h.below (Reaches.of_mem hc)

theorem Attached.mem_of_parent {n p : Nat} (h : F.Attached n) (hp : F.parent n = some p) :
    n ∈ F.children p := by
  refine (Reaches.parent_of_ne h hp ?_).2
  intro he
  rw [← he, F.root_parent] at hp
  exact nomatch hp

theorem Attached.parent {n p : Nat} (h : F.Attached n) (hp : F.parent n = some p) :
    F.Attached p := by
  have hne : F.root n ≠ n := by
    intro he
    rw [← he, F.root_parent] at hp
    exact nomatch hp
  rw [Attached, ← F.root_of_parent hp]
  exact (Reaches.parent_of_ne h hp hne).1

theorem Attached.above {a n : Nat} (h : F.Attached n) (ha : F.Reaches a n) : F.Attached a := by
  rcases Reaches.total h ha with hra | har
  · rw [Attached, ← ha.root_eq]
    exact hra
  · rcases har.parent_cases with rfl | ⟨p, hp, _⟩
    · exact attached_of_none (F.root_parent n)
    · rw [F.root_parent] at hp
      exact nomatch hp

/-- The nodes from `n` up to its root. -/
def lineage (F : Forest) (n : Nat) : List Nat :=
  match h : F.parent n with
  | none => [n]
  | some p =>
    have : p < n := F.parent_lt h
    n :: F.lineage p

theorem lineage_none {n : Nat} (h : F.parent n = none) : F.lineage n = [n] := by
  rw [lineage]
  split
  · rfl
  · next p hp => rw [h] at hp; exact nomatch hp

theorem lineage_some {n p : Nat} (h : F.parent n = some p) :
    F.lineage n = n :: F.lineage p := by
  rw [lineage]
  split
  · next hp => rw [h] at hp; exact nomatch hp
  · next q hq =>
    rw [h, Option.some.injEq] at hq
    rw [hq]

theorem self_mem_lineage (n : Nat) : n ∈ F.lineage n := by
  cases h : F.parent n with
  | none => rw [lineage_none h]; exact List.mem_singleton_self n
  | some p => rw [lineage_some h]; exact List.mem_cons_self

/-- A lineage reads only the parents of the nodes up to `n`. -/
theorem lineage_congr {G : Forest} {n : Nat} (h : ∀ m, m ≤ n → G.parent m = F.parent m) :
    G.lineage n = F.lineage n := by
  induction n using Nat.strongRecOn with
  | ind n ih =>
    cases hp : F.parent n with
    | none => rw [lineage_none hp, lineage_none ((h n (Nat.le_refl n)).trans hp)]
    | some p =>
      have hlt := F.parent_lt hp
      rw [lineage_some hp, lineage_some ((h n (Nat.le_refl n)).trans hp),
        ih p hlt fun m hm => h m (Nat.le_trans hm (Nat.le_of_lt hlt))]

theorem le_of_mem_lineage {m n : Nat} (h : m ∈ F.lineage n) : m ≤ n := by
  induction n using Nat.strongRecOn with
  | ind n ih =>
    cases hp : F.parent n with
    | none => rw [lineage_none hp, List.mem_singleton] at h; exact Nat.le_of_eq h
    | some p =>
      rw [lineage_some hp, List.mem_cons] at h
      have hlt := F.parent_lt hp
      rcases h with rfl | h
      · exact Nat.le_refl _
      · exact Nat.le_trans (ih p hlt h) (Nat.le_of_lt hlt)

theorem Reaches.mem_lineage {a n : Nat} (h : F.Reaches a n) : a ∈ F.lineage n := by
  induction h with
  | refl => exact self_mem_lineage a
  | tail _ hc ih => rw [lineage_some (F.parent_of_mem hc)]; exact List.mem_cons_of_mem _ ih

theorem Attached.reaches_of_mem {a n : Nat} (h : F.Attached n) (ha : a ∈ F.lineage n) :
    F.Reaches a n := by
  induction n using Nat.strongRecOn with
  | ind n ih =>
    cases hp : F.parent n with
    | none => rw [lineage_none hp, List.mem_singleton] at ha; exact ha ▸ Reaches.refl _
    | some p =>
      rw [lineage_some hp, List.mem_cons] at ha
      rcases ha with rfl | ha
      · exact Reaches.refl _
      · exact (ih p (F.parent_lt hp) (h.parent hp) ha).child (h.mem_of_parent hp)

/-- The nodes from `n` up to `a`, without `a` itself. -/
def below (F : Forest) (a n : Nat) : List Nat := (F.lineage n).takeWhile (· ≠ a)

@[simp] theorem below_self (a : Nat) : F.below a a = [] := by
  rw [below]
  cases h : F.parent a with
  | none => simp [lineage_none h]
  | some p => simp [lineage_some h]

theorem below_child {a p c : Nat} (h : F.Reaches a p) (hc : c ∈ F.children p) :
    F.below a c = c :: F.below a p := by
  have hne : c ≠ a := Nat.ne_of_gt (Nat.lt_of_le_of_lt h.le (lt_of_mem hc))
  rw [below, lineage_some (F.parent_of_mem hc), List.takeWhile_cons, below]
  simp [hne]

theorem below_append {a n : Nat} (h : F.Reaches a n) :
    F.below a n ++ F.lineage a = F.lineage n := by
  induction h with
  | refl => rw [below_self, List.nil_append]
  | tail hap hc ih =>
    rw [below_child hap hc, List.cons_append, ih, lineage_some (F.parent_of_mem hc)]

theorem lt_of_mem_below {a m n : Nat} (h : F.Reaches a n) (hm : m ∈ F.below a n) : a < m := by
  induction h with
  | refl =>
    rw [below_self] at hm
    exact absurd hm List.not_mem_nil
  | tail hap hc ih =>
    rw [below_child hap hc, List.mem_cons] at hm
    rcases hm with rfl | hm
    · exact Nat.lt_of_le_of_lt (Reaches.le hap) (lt_of_mem hc)
    · exact ih hm

theorem root_mem_lineage (F : Forest) (n : Nat) : F.root n ∈ F.lineage n := by
  induction n using Nat.strongRecOn with
  | ind n ih =>
    cases h : F.parent n with
    | none =>
      rw [F.root_of_none h]
      exact self_mem_lineage n
    | some p =>
      rw [lineage_some h, F.root_of_parent h]
      exact List.mem_cons_of_mem _ (ih p (F.parent_lt h))

theorem root_lt_size (F : Forest) {n : Nat} (hn : n < F.size) : F.root n < F.size :=
  Nat.lt_of_le_of_lt (le_of_mem_lineage (F.root_mem_lineage n)) hn

/-- The node reached from `r` by a list of child positions. -/
def follow (F : Forest) (r : Nat) : List Nat → Option Nat
  | [] => some r
  | i :: is => (F.children r)[i]?.bind fun c => F.follow c is

theorem follow_append (F : Forest) (r : Nat) (xs ys : List Nat) :
    F.follow r (xs ++ ys) = (F.follow r xs).bind fun n => F.follow n ys := by
  induction xs generalizing r with
  | nil => rfl
  | cons i is ih =>
    simp only [List.cons_append, follow]
    cases (F.children r)[i]? with
    | none => rfl
    | some c => exact ih c

theorem follow_reaches {r n : Nat} {xs : List Nat} (h : F.follow r xs = some n) :
    F.Reaches r n := by
  induction xs generalizing r with
  | nil =>
    simp only [follow, Option.some.injEq] at h
    exact h ▸ Reaches.refl _
  | cons i is ih =>
    simp only [follow, Option.bind_eq_some_iff] at h
    obtain ⟨c, hc, hn⟩ := h
    exact Reaches.trans (Reaches.of_mem (List.mem_of_getElem? hc)) (ih hn)

theorem follow_child {r p c : Nat} {xs : List Nat} (h : F.follow r xs = some p)
    (hc : c ∈ F.children p) : F.follow r (xs ++ [(F.children p).idxOf c]) = some c := by
  rw [follow_append, h]
  simp only [Option.bind_some, follow]
  rw [List.getElem?_eq_getElem (List.idxOf_lt_length_of_mem hc), List.getElem_idxOf]
  rfl

end Forest

end Smts.Lib
