import Mathlib.Data.Set.Lattice
import Smts.Lib.Stack

namespace Smts.Lib.Stack

variable {α Model : Type} {s t : Stack α}

/-- A stack machine that refuses a pop of the base frame and goes on. -/
def run (s : Stack α) (cs : List (Command α)) : Stack α :=
  cs.foldl (fun s c => (s.step c).getD s) s

theorem run_of_exec {cs : List (Command α)} (h : s.exec cs = some t) : s.run cs = t := by
  induction cs generalizing s with
  | nil => exact Option.some.inj h
  | cons c cs ih =>
    obtain ⟨u, hu, hrest⟩ := Option.bind_eq_some_iff.mp h
    rw [run, List.foldl_cons, hu]
    exact ih hrest

/-- The models of all frames. -/
def models (sem : List α → Set Model) (s : Stack α) : Set Model :=
  { v | v ∈ sem s.top ∧ ∀ f ∈ s.below, v ∈ sem f }

theorem mem_models_ofFrames {sem : List α → Set Model} {fs : List (List α)} (hne : fs ≠ [])
    {v : Model} : v ∈ (ofFrames fs).models sem ↔ ∀ f ∈ fs, v ∈ sem f := by
  cases fs with
  | nil => exact absurd rfl hne
  | cons f fs =>
    rw [List.forall_mem_cons]
    rfl

end Smts.Lib.Stack
