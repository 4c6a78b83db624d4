import Smts.Lib.Run
import Smts.Server.Loop

namespace Smts.Server

open Smts.Lib

instance (s : State) : (ev : Event) → Decidable (ev.ready s)
  | .timeout | .accept _ => isTrue trivial
  | .message _ _ _ | .closed _ => inferInstanceAs (Decidable (_ ∧ _ ∧ _))

/-- The turn of an event and how it ends, where the loop can take it and it ends within the fuel. -/
def State.ended (fuel : Nat) (s : State) (ev : Event) : Option (Except Exn Unit × State) :=
  match handle fuel ev s with
  | (r, s') =>
    if s.running = true ∧ ev.ready s ∧ r ≠ .error .noFuel then
      some (r, { s' with running := r ≠ .error .systemExit ∧ s'.rlist ≠ [] })
    else none

def State.turn (fuel : Nat) (s : State) (ev : Event) : Option State :=
  (s.ended fuel ev).map Prod.snd

theorem State.ended_ends {fuel : Nat} {s t : State} {ev : Event} {r : Except Exn Unit}
    (h : s.ended fuel ev = some (r, t)) : Ends s ev r t := by
  unfold State.ended at h
  rcases hr : handle fuel ev s with ⟨r', s'⟩
  rw [hr] at h
  dsimp only at h
  split at h
  · next hc =>
    cases h
    exact .mk hc.1 hc.2.1 hr hc.2.2
  · exact nomatch h

theorem State.turn_step {fuel : Nat} {s t : State} {ev : Event} (h : s.turn fuel ev = some t) :
    Step s ev t := by
  obtain ⟨⟨r, _⟩, hr, rfl⟩ := Option.map_eq_some_iff.mp h
  exact (State.ended_ends hr).step

/-- The runs of the server whose turns all meet a condition. -/
def Turns (G : State → Event → Prop) : State → State → Prop :=
  Relation.ReflTransGen fun s t => ∃ ev, G s ev ∧ Step s ev t

namespace Turns

variable {G : State → Event → Prop} {s t : State}

/-- What every turn keeps holds of every state that is reached. -/
theorem invariant {I : State → Prop} (keep : ∀ s ev t, I s → G s ev → Step s ev t → I t)
    (h : I s) (hr : Turns G s t) : I t := by
  induction hr with
  | refl => exact h
  | tail _ hs ih =>
    obtain ⟨ev, hG, hstep⟩ := hs
    exact keep _ ev _ ih hG hstep

theorem of_run {fuel : Nat} (h : Run (State.turn fuel) G s t) : Turns G s t :=
  Relation.ReflTransGen.mono (fun _ _ ⟨ev, hG, ht⟩ => ⟨ev, hG, State.turn_step ht⟩) _ _ h

end Turns

end Smts.Server
