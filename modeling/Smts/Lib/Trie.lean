import Mathlib.Data.List.Basic

namespace Smts.Lib

/-- A tree of values in which a path of child numbers leads to a node. -/
inductive Trie (α : Type)
  | node (val : α) (children : List (Trie α))

namespace Trie

variable {α : Type}

def val : Trie α → α
  | .node v _ => v

def children : Trie α → List (Trie α)
  | .node _ cs => cs

def lookup : List Nat → Trie α → Option α
  | [], t => some t.val
  | i :: p, t => t.children[i]?.bind (lookup p)

/-- Replaces the subtree at a path, if there is one. -/
def update (f : Trie α → Trie α) : List Nat → Trie α → Trie α
  | [], t => f t
  | i :: p, t => .node t.val (t.children.modify i (update f p))

def mapVal (f : α → α) (t : Trie α) : Trie α := .node (f t.val) t.children

/-- Adds children with the value `new` until there are `n`. -/
def grow (new : α) (n : Nat) (t : Trie α) : Trie α :=
  .node t.val (t.children ++ .replicate (n - t.children.length) (.node new []))

variable {f : Trie α → Trie α} {p q : List Nat} {i n : Nat} {t : Trie α} {v new : α}

@[simp] theorem val_node (v : α) (cs : List (Trie α)) : (node v cs).val = v := rfl

@[simp] theorem children_node (v : α) (cs : List (Trie α)) : (node v cs).children = cs := rfl

@[simp] theorem lookup_nil (t : Trie α) : lookup [] t = some t.val := rfl

theorem lookup_cons (i : Nat) (p : List Nat) (t : Trie α) :
    lookup (i :: p) t = t.children[i]?.bind (lookup p) := rfl

@[simp] theorem lookup_leaf_cons (i : Nat) (p : List Nat) (v : α) :
    lookup (i :: p) (.node v []) = none := rfl

theorem lookup_update_cons (f : Trie α → Trie α) (i j : Nat) (p q : List Nat) (t : Trie α) :
    lookup (j :: q) (update f (i :: p) t) =
      if j = i then t.children[i]?.bind fun c => lookup q (update f p c)
      else lookup (j :: q) t := by
  simp only [lookup_cons, update, children_node, List.getElem?_modify]
  by_cases h : j = i
  · subst h
    cases t.children[j]? <;> simp
  · simp [h, Ne.symm h]

theorem lookup_update_mapVal (g : α → α) (p q : List Nat) (t : Trie α) :
    lookup q (update (mapVal g) p t) = if q = p then (lookup q t).map g else lookup q t := by
  induction p generalizing q t with
  | nil =>
    cases q with
    | nil => rfl
    | cons j q => rfl
  | cons i p ih =>
    cases q with
    | nil => rfl
    | cons j q =>
      rw [lookup_update_cons]
      by_cases h : j = i
      · subst h
        rw [if_pos rfl, lookup_cons]
        cases t.children[j]? with
        | none => simp
        | some c => simp [ih]
      · simp [h]

theorem lookup_grow_cons (new : α) (n j : Nat) (q : List Nat) (t : Trie α) :
    lookup (j :: q) (grow new n t) =
      if j < t.children.length then lookup (j :: q) t
      else if j < n then lookup q (.node new []) else none := by
  simp only [lookup_cons, grow, children_node]
  by_cases h : j < t.children.length
  · rw [List.getElem?_append_left h, if_pos h]
  · rw [List.getElem?_append_right (Nat.le_of_not_lt h), if_neg h, List.getElem?_replicate]
    by_cases hn : j < n
    · rw [if_pos hn, if_pos (by omega)]
      rfl
    · rw [if_neg hn, if_neg (by omega)]
      rfl

theorem lookup_update_grow (p : List Nat) (h : lookup q t = some v) :
    lookup q (update (grow new n) p t) = some v := by
  induction p generalizing q t with
  | nil =>
    cases q with
    | nil => exact h
    | cons j q =>
      have hj : j < t.children.length := by
        rw [lookup_cons] at h
        obtain ⟨c, hc, -⟩ := Option.bind_eq_some_iff.mp h
        exact (List.getElem?_eq_some_iff.mp hc).1
      rw [update, lookup_grow_cons, if_pos hj]
      exact h
  | cons i p ih =>
    cases q with
    | nil => exact h
    | cons j q =>
      rw [lookup_update_cons]
      split
      · next hji =>
        subst hji
        obtain ⟨c, hc, hv⟩ := Option.bind_eq_some_iff.mp h
        rw [hc]
        exact ih hv
      · exact h

/-- Growing adds nothing but nodes with the new value. -/
theorem eq_of_lookup_update_grow (p : List Nat)
    (h : lookup q (update (grow new n) p t) = some v) : lookup q t = some v ∨ v = new := by
  induction p generalizing q t with
  | nil =>
    cases q with
    | nil => exact .inl h
    | cons j q =>
      rw [update, lookup_grow_cons] at h
      split at h
      · exact .inl h
      · split at h
        · cases q with
          | nil => exact .inr (Option.some.inj h).symm
          | cons => exact nomatch h
        · exact nomatch h
  | cons i p ih =>
    cases q with
    | nil => exact .inl h
    | cons j q =>
      rw [lookup_update_cons] at h
      split at h
      · next hji =>
        subst hji
        obtain ⟨c, hc, hv⟩ := Option.bind_eq_some_iff.mp h
        rw [lookup_cons, hc]
        exact ih hv
      · exact .inl h

theorem lookup_update_grow_child (h : (lookup p t).isSome) (hi : i < n) :
    (lookup (p ++ [i]) (update (grow new n) p t)).isSome := by
  induction p generalizing t with
  | nil =>
    rw [List.nil_append, update, lookup_grow_cons]
    split
    · next hlt => simp [lookup_cons, List.getElem?_eq_getElem hlt]
    · rfl
  | cons j p ih =>
    rw [List.cons_append, lookup_update_cons, if_pos rfl]
    rw [lookup_cons] at h
    cases hc : t.children[j]? with
    | none => rw [hc] at h; exact nomatch h
    | some c => rw [hc] at h; exact ih h

end Trie

end Smts.Lib
