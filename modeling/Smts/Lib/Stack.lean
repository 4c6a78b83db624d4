import Mathlib.Data.List.Basic

namespace Smts.Lib

/-- A stack of frames.  The base frame is always there. -/
structure Stack (α : Type) where
  top : List α
  below : List (List α)
  deriving DecidableEq, Repr

inductive Command (α : Type)
  | push
  | pop
  | item (a : α)
  deriving DecidableEq, Repr

namespace Stack

variable {α : Type}

def empty : Stack α := ⟨[], []⟩

/-- The stack with these frames, from the top down. -/
def ofFrames : List (List α) → Stack α
  | [] => empty
  | f :: fs => ⟨f, fs⟩

/-- A pop that is applied to the base frame has no result. -/
def step (s : Stack α) : Command α → Option (Stack α)
  | .push => some ⟨[], s.top :: s.below⟩
  | .pop =>
    match s.below with
    | [] => none
    | f :: fs => some ⟨f, fs⟩
  | .item a => some { s with top := s.top ++ [a] }

def exec (s : Stack α) : List (Command α) → Option (Stack α)
  | [] => some s
  | c :: cs => (s.step c).bind fun s => s.exec cs

theorem exec_append (s : Stack α) (cs ds : List (Command α)) :
    s.exec (cs ++ ds) = (s.exec cs).bind fun s => s.exec ds := by
  induction cs generalizing s with
  | nil => rfl
  | cons c cs ih =>
    simp only [List.cons_append, exec]
    cases s.step c with
    | none => rfl
    | some t => exact ih t

theorem exec_items (s : Stack α) (l : List α) :
    s.exec (l.map .item) = some { s with top := s.top ++ l } := by
  induction l generalizing s with
  | nil => simp [exec]
  | cons a l ih => simp [exec, step, ih]

theorem exec_frame (fs : List (List α)) (hne : fs ≠ []) (l : List α) :
    (ofFrames fs).exec (.push :: l.map .item) = some (ofFrames (l :: fs)) := by
  cases fs with
  | nil => exact absurd rfl hne
  | cons f fs => simp [exec, step, exec_items, ofFrames]

theorem exec_base (l : List α) : (empty : Stack α).exec (l.map .item) = some (ofFrames [l]) := by
  rw [exec_items]
  rfl

/-- Pops drop frames, as long as one is left. -/
theorem exec_pops (fs gs : List (List α)) (hne : gs ≠ []) :
    (ofFrames (fs ++ gs)).exec (List.replicate fs.length .pop) = some (ofFrames gs) := by
  induction fs with
  | nil => rfl
  | cons f fs ih =>
    rw [List.length_cons, List.replicate_succ, exec]
    cases hfs : fs ++ gs with
    | nil => exact absurd (List.append_eq_nil_iff.mp hfs).2 hne
    | cons g hs =>
      rw [hfs] at ih
      simpa [ofFrames, step, hfs] using ih

/-- Frames pushed one after the other, the lowest first. -/
theorem exec_frames (fs gs : List (List α)) (hne : gs ≠ []) :
    (ofFrames gs).exec (fs.reverse.flatMap fun f => .push :: f.map .item) =
      some (ofFrames (fs ++ gs)) := by
  induction fs with
  | nil => rfl
  | cons f fs ih =>
    rw [List.reverse_cons, List.flatMap_append, exec_append, ih, Option.bind_some]
    simpa using exec_frame (fs ++ gs) (by simp [hne]) f

end Stack

end Smts.Lib
