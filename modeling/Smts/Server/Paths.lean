import Smts.Server.FrameworkLaws

namespace Smts.Server

open Smts.Lib

/-- What makes and clears nodes: the constructors `Root`, `AndNode` and `OrNode`, and `clear`,
which is called for OR nodes only. -/
inductive TreeOp
  | root (l : Label)
  | and (parent : NodeId) (smt : String)
  | or (parent : NodeId) (smt : String)
  | clear (o : NodeId)

namespace Heap

/-- `Root.child`. -/
def child (h : Heap) (node : NodeId) : List Nat → Except Exn NodeId
  | [] => .ok node
  | i :: path =>
    match (h.children node)[i]? with
    | none => .error .indexError
    | some n => h.child n path

/-- `is_ancestor` with its check. -/
def isAncestorIn (h : Heap) (self node : NodeId) : Except Exn Bool :=
  if h.root self ≠ h.root node then .error .valueError else .ok (h.isAncestor self node)

/-- The trees after an operation.  A constructor that raises leaves them as they were. -/
def perform (h : Heap) : TreeOp → Heap
  | .root l => if l.cls = .orNode then h else (h.addRoot l).2
  | .and parent smt =>
    match h.newAnd parent smt with
    | .ok (_, g) => g
    | .error _ => h
  | .or parent smt =>
    match h.newOr parent smt with
    | .ok (_, g) => g
    | .error _ => h
  | .clear o => if h.isOr o then h.clear o else h

/-- The trees that a list of operations makes of others. -/
def performAll (h : Heap) (ops : List TreeOp) : Heap := ops.foldl perform h

theorem child_eq_follow (h : Heap) (node : NodeId) (path : List Nat) :
    h.child node path = (h.follow node path).elim (.error .indexError) .ok := by
  induction path generalizing node with
  | nil => rfl
  | cons i path ih =>
    rw [child, Forest.follow]
    cases (h.children node)[i]? with
    | none => rfl
    | some n => exact ih n

/-- Nodes keep their parents, and a list of children loses all of its nodes or none.  What is
added to it is new. -/
structure Evolves (h g : Heap) : Prop where
  size : h.size ≤ g.size
  parent : ∀ n, n < h.size → g.parent n = h.parent n
  children : ∀ p, ∃ old new, g.children p = old ++ new ∧ (old = [] ∨ old = h.children p) ∧
    ∀ c ∈ new, h.size ≤ c

namespace Evolves

variable {h g k : Heap} {n p : Nat}

theorem refl (h : Heap) : Evolves h h where
  size := Nat.le_refl _
  parent _ _ := rfl
  children p := ⟨h.children p, [], (List.append_nil _).symm, .inr rfl,
    fun _ hc => absurd hc List.not_mem_nil⟩

theorem trans (hg : Evolves h g) (gk : Evolves g k) : Evolves h k where
  size := Nat.le_trans hg.size gk.size
  parent n hn := (gk.parent n (Nat.lt_of_lt_of_le hn hg.size)).trans (hg.parent n hn)
  children p := by
    obtain ⟨old', new', hk, hold', hnew'⟩ := gk.children p
    have hlate : ∀ c ∈ new', h.size ≤ c := fun c hc => Nat.le_trans hg.size (hnew' c hc)
    rcases hold' with rfl | rfl
    · exact ⟨[], new', hk, .inl rfl, hlate⟩
    · obtain ⟨old, new, hgp, hold, hnew⟩ := hg.children p
      refine ⟨old, new ++ new', by rw [hk, hgp, List.append_assoc], hold, fun c hc => ?_⟩
      exact (List.mem_append.mp hc).elim (hnew c) (hlate c)

theorem addRoot (h : Heap) (l : Label) : Evolves h (h.addRoot l).2 where
  size := Nat.le_succ _
  parent _ _ := rfl
  children := (refl h).children

theorem addChild {l : Label} (hp : p < h.size) (hl : l.cls = .orNode ↔ (h.label p).cls ≠ .orNode) :
    Evolves h (h.addChild p l hp hl).2 where
  size := Nat.le_succ _
  parent _ hn := Function.update_of_ne (Nat.ne_of_lt hn) _ _
  children q := by
    by_cases hq : q = p
    · subst hq
      refine ⟨h.children q, [h.size], Function.update_self _ _ _, .inr rfl, fun c hc => ?_⟩
      exact Nat.le_of_eq (List.mem_singleton.mp hc).symm
    · have hsame : (h.addChild p l hp hl).2.children q = h.children q := Function.update_of_ne hq _ _
      obtain ⟨old, new, he, hrest⟩ := (refl h).children q
      exact ⟨old, new, hsame.trans he, hrest⟩

theorem clear (h : Heap) (o : NodeId) : Evolves h (h.clear o) where
  size := Nat.le_refl _
  parent _ _ := rfl
  children q := by
    by_cases hq : q = o
    · subst hq
      exact ⟨[], [], Function.update_self _ _ _, .inl rfl, fun _ hc => absurd hc List.not_mem_nil⟩
    · have hsame : (h.clear o).children q = h.children q := Function.update_of_ne hq _ _
      obtain ⟨old, new, he, hrest⟩ := (refl h).children q
      exact ⟨old, new, hsame.trans he, hrest⟩

theorem perform (h : Heap) (op : TreeOp) : Evolves h (h.perform op) := by
  cases op with
  | root l =>
    rw [Heap.perform]
    split
    · exact refl h
    · exact addRoot h l
  | and parent smt =>
    rw [Heap.perform, newAnd]
    by_cases hp : parent < h.size ∧ (h.label parent).cls = .orNode
    · simp only [hp, and_self, dite_true]
      exact addChild _ _
    · simp only [hp, dite_false]
      exact refl h
  | or parent smt =>
    rw [Heap.perform, newOr]
    by_cases hp : parent < h.size ∧ (h.label parent).cls ≠ .orNode
    · simp only [hp, ne_eq, not_false_eq_true, and_self, dite_true]
      exact addChild _ _
    · simp only [hp, dite_false]
      exact refl h
  | clear o =>
    rw [Heap.perform]
    split
    · exact clear h o
    · exact refl h

theorem performAll (h : Heap) (ops : List TreeOp) : Evolves h (h.performAll ops) := by
  induction ops generalizing h with
  | nil => exact refl h
  | cons op ops ih => exact (perform h op).trans (ih (h.perform op))

/-- A child that is still listed is where it was. -/
theorem child_kept (hg : Evolves h g) (hn : n < h.size) (hc : n ∈ g.children p) :
    n ∈ h.children p ∧ (g.children p).idxOf n = (h.children p).idxOf n := by
  obtain ⟨old, new, hgp, hold, hnew⟩ := hg.children p
  have hmem : n ∈ old := by
    rw [hgp] at hc
    exact (List.mem_append.mp hc).resolve_right fun h => Nat.not_le.mpr hn (hnew n h)
  rcases hold with rfl | rfl
  · exact absurd hmem List.not_mem_nil
  · exact ⟨hmem, by rw [hgp, List.idxOf_append_of_mem hmem]⟩

/-- Where a node is attached afterwards, it was attached before, with the same path. -/
theorem path_kept (hg : Evolves h g) (hn : n < h.size) (ha : g.Attached n) :
    h.Attached n ∧ g.path n = h.path n := by
  induction n using Nat.strongRecOn with
  | ind n ih =>
    cases hp : h.parent n with
    | none =>
      have hgp : g.parent n = none := (hg.parent n hn).trans hp
      exact ⟨Forest.attached_of_none hp,
        by rw [path_none (truthyParent_of_none hp), path_none (truthyParent_of_none hgp)]⟩
    | some p =>
      have hgp : g.parent n = some p := (hg.parent n hn).trans hp
      have hlt : p < n := h.parent_lt hp
      obtain ⟨hatt, hpath⟩ := ih p hlt (Nat.lt_trans hlt hn) (ha.parent hgp)
      obtain ⟨hmem, hidx⟩ := hg.child_kept hn (ha.mem_of_parent hgp)
      exact ⟨hatt.child hmem, by rw [path_child (ha.mem_of_parent hgp), path_child hmem, hpath, hidx]⟩

end Evolves

/-- Paths are names of the nodes that are attached to a root. -/
structure PathsIdentify (h : Heap) : Prop where
  child_path : ∀ n, n < h.size → h.Attached n → h.child (h.root n) (h.path n) = .ok n
  distinct : ∀ a b, a < h.size → b < h.size → h.Attached a → h.Attached b →
    h.root a = h.root b → h.path a = h.path b → a = b
  kept : ∀ ops n, n < h.size → h.Attached n → (h.performAll ops).Attached n →
    (h.performAll ops).path n = h.path n
  ancestor : ∀ a b, a < h.size → b < h.size → h.Attached a → h.Attached b → h.root a = h.root b →
    (h.isAncestorIn a b = .ok true ↔ a ∈ h.lineage b)

/-- In all trees made by the constructors and by clearing OR nodes, paths identify nodes. -/
theorem paths_identify (ops : List TreeOp) : (Heap.empty.performAll ops).PathsIdentify where
  child_path n _ ha := by rw [child_eq_follow, follow_path ha]; rfl
  distinct a b _ _ ha hb hr hp := path_injective ha hb hr hp
  kept ops n hn _ ha := ((Evolves.performAll _ ops).path_kept hn ha).2
  ancestor a b _ _ ha hb hr := by
    rw [isAncestorIn, if_neg (not_not.mpr hr), Except.ok.injEq, isAncestor_iff ha hb hr]
    exact ⟨Forest.Reaches.mem_lineage, hb.reaches_of_mem⟩

end Heap

end Smts.Server
