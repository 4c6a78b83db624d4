import Smts.Server.Framework

namespace Smts.Server.Heap

open Smts.Lib

section Classes

variable {h : Heap} {c n p : Nat}

theorem isAnd_iff : h.isAnd n = true ↔ h.isOr n = false := by
  simp [isAnd]

theorem isOr_of_parent (hp : h.parent c = some p) : h.isOr c = h.isAnd p := by
  have := h.alternates hp
  by_cases hc : (h.label c).cls = .orNode
  · simp [isAnd, isOr, hc, this.mp hc]
  · have hp' : (h.label p).cls = .orNode := by
      by_contra hne
      exact hc (this.mpr hne)
    simp [isAnd, isOr, hc, hp']

theorem isAnd_of_parent (hp : h.parent c = some p) : h.isAnd c = h.isOr p := by
  rw [isAnd, isOr_of_parent hp, isAnd, Bool.not_not]

theorem isAnd_congr {g : Heap} (hl : g.label = h.label) : g.isAnd n = h.isAnd n := by
  simp [isAnd, isOr, hl]

end Classes

section Modify

variable (h : Heap) (n : NodeId) (f : Attrs → Attrs)

@[simp] theorem modify_toForest : (h.modify n f).toForest = h.toForest := rfl

@[simp] theorem modify_label : (h.modify n f).label = h.label := rfl

theorem modify_attrs (m : NodeId) :
    (h.modify n f).attrs m = if m = n then f (h.attrs n) else h.attrs m := by
  simp only [modify, Function.update_apply]

theorem modify_status (m : NodeId) :
    (h.modify n f).status m = if m = n then (f (h.attrs n)).status else h.status m := by
  simp only [status, modify_attrs]
  split <;> rfl

end Modify

section Paths

variable {h : Heap} {n p : Nat}

theorem truthyParent_eq_some :
    h.truthyParent n = some p ↔ h.parent n = some p ∧ h.children p ≠ [] := by
  simp [truthyParent, Option.filter_eq_some_iff]

theorem truthyParent_lt (hp : h.truthyParent n = some p) : p < n :=
  h.parent_lt (truthyParent_eq_some.mp hp).1

theorem truthyParent_of_mem (hc : n ∈ h.children p) : h.truthyParent n = some p :=
  truthyParent_eq_some.mpr ⟨h.parent_of_mem hc, List.ne_nil_of_mem hc⟩

theorem truthyParent_of_none (hp : h.parent n = none) : h.truthyParent n = none := by
  simp [truthyParent, hp]

theorem pathAux_fuel {k l : Nat} (hk : n ≤ k) (hl : n ≤ l) : h.pathAux k n = h.pathAux l n := by
  induction n using Nat.strongRecOn generalizing k l with
  | ind n ih =>
    cases hp : h.truthyParent n with
    | none => cases k <;> cases l <;> simp [pathAux, hp]
    | some p =>
      have hlt := truthyParent_lt hp
      cases k with
      | zero => omega
      | succ k =>
        cases l with
        | zero => omega
        | succ l =>
          simp only [pathAux, hp]
          rw [ih p hlt (k := k) (l := l) (by omega) (by omega)]

theorem path_none (hp : h.truthyParent n = none) : h.path n = [] := by
  cases n <;> simp [path, pathAux, hp]

theorem path_some (hp : h.truthyParent n = some p) :
    h.path n = h.path p ++ [(h.children p).idxOf n] := by
  have hlt := truthyParent_lt hp
  cases n with
  | zero => omega
  | succ n =>
    simp only [path, pathAux, hp]
    rw [pathAux_fuel (k := n) (l := p) (by omega) (Nat.le_refl p)]

theorem path_child (hc : n ∈ h.children p) :
    h.path n = h.path p ++ [(h.children p).idxOf n] :=
  path_some (truthyParent_of_mem hc)

/-- Following its path from the root leads back to a node. -/
theorem follow_path (ha : h.Attached n) : h.follow (h.root n) (h.path n) = some n := by
  induction n using Nat.strongRecOn with
  | ind n ih =>
    cases hp : h.parent n with
    | none =>
      rw [h.root_of_none hp, path_none (truthyParent_of_none hp)]
      rfl
    | some p =>
      have hc := ha.mem_of_parent hp
      rw [path_child hc, h.root_of_parent hp]
      exact Forest.follow_child (ih p (h.parent_lt hp) (ha.parent hp)) hc

theorem attached_iff {n : Nat} : h.Attached n ↔ h.follow (h.root n) (h.path n) = some n :=
  ⟨follow_path, Forest.follow_reaches⟩

instance (h : Heap) (n : NodeId) : Decidable (h.Attached n) := decidable_of_iff _ attached_iff.symm

theorem path_injective {a b : Nat} (ha : h.Attached a) (hb : h.Attached b)
    (hr : h.root a = h.root b) (hp : h.path a = h.path b) : a = b := by
  have := follow_path ha
  rw [hp, hr, follow_path hb, Option.some.injEq] at this
  exact this.symm

theorem path_prefix_of_reaches {a b : Nat} (hab : h.Reaches a b) :
    h.path a <+: h.path b := by
  induction hab with
  | refl => exact List.prefix_rfl
  | tail _ hc ih => rw [path_child hc]; exact ih.trans (List.prefix_append _ _)

theorem reaches_of_pathPrefix {a b : Nat} (ha : h.Attached a) (hb : h.Attached b)
    (hr : h.root a = h.root b) (hp : h.path a <+: h.path b) : h.Reaches a b := by
  obtain ⟨rest, hrest⟩ := hp
  have hf := follow_path hb
  rw [← hrest, Forest.follow_append, ← hr, follow_path ha, Option.bind_some] at hf
  exact Forest.follow_reaches hf

/-- The prefix test decides the order of the tree. -/
theorem isAncestor_iff {a b : Nat} (ha : h.Attached a) (hb : h.Attached b)
    (hr : h.root a = h.root b) : h.isAncestor a b = true ↔ h.Reaches a b := by
  rw [isAncestor, List.isPrefixOf_iff_prefix]
  exact ⟨reaches_of_pathPrefix ha hb hr, path_prefix_of_reaches⟩

theorem pathToNode_congr {g : Heap} (hf : g.toForest = h.toForest) (hl : g.label = h.label)
    (n : NodeId) : g.pathToNode n = h.pathToNode n := by
  have ht : ∀ m, g.truthyParent m = h.truthyParent m := fun m => by
    rw [truthyParent, truthyParent, hf]
  have aux : ∀ k m, g.pathToNodeAux k m = h.pathToNodeAux k m := by
    intro k
    induction k with
    | zero => exact fun _ => rfl
    | succ k ih =>
      intro m
      simp only [pathToNodeAux, ht, ih, isAnd_congr hl]
  rw [pathToNode, pathToNode, aux]

end Paths

section Listing

variable {h : Heap} {m n : Nat}

theorem reaches_of_mem_allAux {k : Nat} (hm : m ∈ h.allAux k n) : h.Reaches n m := by
  induction k generalizing n with
  | zero =>
    simp only [allAux, List.mem_singleton] at hm
    exact hm ▸ Forest.Reaches.refl _
  | succ k ih =>
    simp only [allAux, List.mem_cons, List.mem_flatMap] at hm
    rcases hm with rfl | ⟨c, hc, hm⟩
    · exact Forest.Reaches.refl _
    · exact Forest.Reaches.trans (Forest.Reaches.of_mem hc) (ih hm)

theorem self_mem_allAux {k : Nat} : n ∈ h.allAux k n := by
  cases k <;> simp [allAux]

theorem mem_allAux_of_reaches {k : Nat} (hk : h.size ≤ k + n) (hr : h.Reaches n m) :
    m ∈ h.allAux k n := by
  induction hr using Relation.ReflTransGen.head_induction_on generalizing k with
  | refl => exact self_mem_allAux
  | head hc _ ih =>
    have := Forest.lt_of_mem hc
    have := Forest.mem_lt_size hc
    cases k with
    | zero => omega
    | succ k =>
      simp only [allAux, List.mem_cons, List.mem_flatMap]
      exact Or.inr ⟨_, hc, ih (by omega)⟩

/-- `Node.all` lists the nodes below. -/
theorem mem_all : m ∈ h.all n ↔ h.Reaches n m :=
  ⟨reaches_of_mem_allAux, mem_allAux_of_reaches (by omega)⟩

theorem nodup_allAux {k : Nat} : (h.allAux k n).Nodup := by
  induction k generalizing n with
  | zero => exact List.nodup_singleton n
  | succ k ih =>
    rw [allAux, List.nodup_cons, List.nodup_flatMap]
    refine ⟨fun hn => ?_, fun c _ => ih, ?_⟩
    · obtain ⟨c, hc, hn⟩ := List.mem_flatMap.mp hn
      exact absurd (reaches_of_mem_allAux hn).le (Nat.not_le.mpr (Forest.lt_of_mem hc))
    · -- two children reach no common node
      refine (h.nodup n).pairwise_of_forall_ne fun a ha b hb hne m hma hmb => ?_
      rcases (reaches_of_mem_allAux hma).total (reaches_of_mem_allAux hmb) with hab | hba
      · exact absurd (hab.parent_of_ne (h.parent_of_mem hb) hne).1.le
          (Nat.not_le.mpr (Forest.lt_of_mem ha))
      · exact absurd (hba.parent_of_ne (h.parent_of_mem ha) hne.symm).1.le
          (Nat.not_le.mpr (Forest.lt_of_mem hb))

/-- `Node.all` lists each node once. -/
theorem nodup_all : (h.all n).Nodup := nodup_allAux

theorem allAux_congr {g : Heap} (hc : g.children = h.children) (k : Nat) (n : NodeId) :
    g.allAux k n = h.allAux k n := by
  induction k generalizing n with
  | zero => rfl
  | succ k ih =>
    rw [allAux, allAux, hc, List.flatMap_congr fun c _ => ih c]

theorem all_congr {g : Heap} (hf : g.toForest = h.toForest) (n : NodeId) : g.all n = h.all n := by
  rw [all, all, hf]
  exact allAux_congr (by rw [hf]) _ n

theorem addAnds_parent (h : Heap) (o : Nat) (smts : List String) :
    (h.addAnds o smts).2.parent o = h.parent o := by
  induction smts generalizing h with
  | nil => rfl
  | cons smt smts ih =>
    rw [addAnds]
    by_cases hp : o < h.size ∧ (h.label o).cls = .orNode
    · simp only [newAnd, hp, and_self, dite_true]
      rw [ih]
      exact Function.update_of_ne (Nat.ne_of_lt hp.1) _ _
    · simp only [newAnd, hp, dite_false]

end Listing

section Status

variable {st : SolveStatus}

/-- What holds of a heap holds after a status was set, if it survives each write
and the reason for a write is passed on upwards. -/
theorem setStatusAux_rule {P : Heap → Prop} {J : NodeId → Prop}
    (write : ∀ h n, P h → J n → P (h.modify n fun a => { a with status := st }))
    (up : ∀ h n p, P h → J n → h.isAnd n = true → h.truthyParent n = some p →
      (st = .sat ∨ ∀ c ∈ h.children p, h.status c = st) → J p)
    (out : ∀ h n p, P h → J n → h.isOr n = true → h.parent n = some p → J p)
    (k : Nat) (h : Heap) (n : NodeId) (hP : P h) (hJ : J n) : P (setStatusAux st k h n) := by
  induction k generalizing h n with
  | zero => exact write h n hP hJ
  | succ k ih =>
    have hw := write h n hP hJ
    simp only [setStatusAux]
    split
    · next hand =>
      split
      · exact hw
      · next p hp =>
        split
        · next hall => exact ih _ p hw (up _ n p hw hJ hand hp hall)
        · exact hw
    · next hand =>
      split
      · exact hw
      · next p hp =>
        have hor : (h.modify n fun a => { a with status := st }).isOr n = true := by
          simpa [isAnd] using hand
        exact ih _ p hw (out _ n p hw hJ hor hp)

theorem setStatus_rule (st : SolveStatus) {P : Heap → Prop} {J : NodeId → Prop}
    (write : ∀ h n, P h → J n → P (h.modify n fun a => { a with status := st }))
    (up : ∀ h n p, P h → J n → h.isAnd n = true → h.truthyParent n = some p →
      (st = .sat ∨ ∀ c ∈ h.children p, h.status c = st) → J p)
    (out : ∀ h n p, P h → J n → h.isOr n = true → h.parent n = some p → J p)
    {h : Heap} {n : NodeId} (hP : P h) (hJ : J n) : P (h.setStatus n st) :=
  setStatusAux_rule write up out n h n hP hJ

/-- `g` differs from `h` in nothing but the statuses. -/
structure SameTree (h g : Heap) : Prop where
  forest : g.toForest = h.toForest
  label : g.label = h.label
  attrs : ∀ n, { g.attrs n with status := h.status n } = h.attrs n

theorem SameTree.refl (h : Heap) : SameTree h h := ⟨rfl, rfl, fun _ => rfl⟩

theorem SameTree.write {h g : Heap} (hg : SameTree h g) (n : NodeId) :
    SameTree h (g.modify n fun a => { a with status := st }) where
  forest := hg.forest
  label := hg.label
  attrs m := by
    rw [modify_attrs]
    split
    · next he => subst he; exact hg.attrs m
    · exact hg.attrs m

theorem sameTree_setStatus (h : Heap) (n : NodeId) (st : SolveStatus) :
    SameTree h (h.setStatus n st) :=
  setStatus_rule st (P := SameTree h) (J := fun _ => True) (fun _ n hP _ => hP.write n)
    (fun _ _ _ _ _ _ _ _ => trivial) (fun _ _ _ _ _ _ _ => trivial) (SameTree.refl h) trivial

end Status

end Smts.Server.Heap
