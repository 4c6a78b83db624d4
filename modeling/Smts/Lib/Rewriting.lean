import Mathlib.Data.List.Basic

namespace Smts.Lib

variable {α : Type}

/-- A pattern tells the length of its match at the start of a text, if there is one. -/
abbrev Pattern (α : Type) := List α → Option Nat

namespace Pattern

/-- The matches from the left, without overlaps, and the elements between them.  The first `skip`
elements belong to a match already taken; an empty match counts as none. -/
def scanFrom (p : Pattern α) : Nat → List α → List (α ⊕ List α)
  | _, [] => []
  | skip + 1, _ :: s => p.scanFrom skip s
  | 0, c :: s =>
    match p (c :: s) with
    | some (n + 1) => .inr (c :: s.take n) :: p.scanFrom n s
    | _ => .inl c :: p.scanFrom 0 s

def scan (p : Pattern α) (s : List α) : List (α ⊕ List α) := p.scanFrom 0 s

/-- Every match replaced. -/
def sub (p : Pattern α) (r : List α → List α) (s : List α) : List α :=
  (p.scan s).flatMap (Sum.elim (fun c => [c]) r)

variable {p : Pattern α} {r : List α → List α} {s u : List α} {c : α}

theorem scanFrom_eq (p : Pattern α) (k : Nat) (s : List α) :
    p.scanFrom k s = p.scan (s.drop k) := by
  induction k generalizing s with
  | zero => rfl
  | succ k ih =>
    cases s with
    | nil => rfl
    | cons c s => rw [scanFrom, ih, List.drop_succ_cons]

@[simp] theorem scan_nil (p : Pattern α) : p.scan [] = [] := rfl

theorem scan_cons (h : p (c :: s) = none) : p.scan (c :: s) = .inl c :: p.scan s := by
  rw [scan, scanFrom, h]
  rfl

theorem scan_match (h : p (c :: u ++ s) = some (u.length + 1)) :
    p.scan (c :: u ++ s) = .inr (c :: u) :: p.scan s := by
  rw [List.cons_append] at h ⊢
  rw [scan, scanFrom, h]
  dsimp only
  rw [scanFrom_eq, List.take_left, List.drop_left]

@[simp] theorem sub_nil (p : Pattern α) (r : List α → List α) : p.sub r [] = [] := rfl

theorem sub_cons (h : p (c :: s) = none) : p.sub r (c :: s) = c :: p.sub r s := by
  rw [sub, scan_cons h]
  rfl

theorem sub_match (h : p (c :: u ++ s) = some (u.length + 1)) :
    p.sub r (c :: u ++ s) = r (c :: u) ++ p.sub r s := by
  rw [sub, scan_match h]
  rfl

/-- Matches start with an element of a certain kind only. -/
def Starts (p : Pattern α) (q : α → Prop) : Prop := ∀ c s, ¬ q c → p (c :: s) = none

theorem Starts.scan_append {q : α → Prop} (hp : p.Starts q) (hu : ∀ c ∈ u, ¬ q c) :
    p.scan (u ++ s) = u.map .inl ++ p.scan s := by
  induction u with
  | nil => rfl
  | cons c u ih =>
    rw [List.forall_mem_cons] at hu
    rw [List.cons_append, scan_cons (hp c _ hu.1), ih hu.2]
    rfl

theorem Starts.sub_append {q : α → Prop} (hp : p.Starts q) (hu : ∀ c ∈ u, ¬ q c) :
    p.sub r (u ++ s) = u ++ p.sub r s := by
  rw [sub, hp.scan_append hu, List.flatMap_append, List.flatMap_map]
  simp [sub]

theorem Starts.sub_cons {q : α → Prop} (hp : p.Starts q) (hc : ¬ q c) :
    p.sub r (c :: s) = c :: p.sub r s :=
  Pattern.sub_cons (hp c s hc)

end Pattern

section Maximal

variable {q : α → Bool} {s t : List α}

/-- A maximal run of a class ends where the text goes on with another element. -/
theorem takeWhile_run (hs : ∀ c ∈ s, q c) (ht : ∀ c ∈ t.head?, q c = false) :
    (s ++ t).takeWhile q = s := by
  rw [List.takeWhile_append_of_pos hs]
  cases t with
  | nil => simp
  | cons c t => simp [ht c rfl]

theorem dropWhile_run (hs : ∀ c ∈ s, q c) (ht : ∀ c ∈ t.head?, q c = false) :
    (s ++ t).dropWhile q = t := by
  rw [List.dropWhile_append_of_pos hs]
  cases t with
  | nil => rfl
  | cons c t => simp [ht c rfl]

end Maximal

end Smts.Lib
