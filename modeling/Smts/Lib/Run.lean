import Mathlib.Logic.Relation

namespace Smts.Lib

variable {σ α : Type*} {step : σ → α → Option σ} {G : σ → α → Prop} {s t : σ}

/-- The runs of a step function, each step allowed by `G` where it is taken. -/
def Run (step : σ → α → Option σ) (G : σ → α → Prop) : σ → σ → Prop :=
  Relation.ReflTransGen fun s t => ∃ a, G s a ∧ step s a = some t

/-- One step where `G` allows it. -/
def guarded (step : σ → α → Option σ) (G : σ → α → Prop) [∀ s a, Decidable (G s a)] (s : σ)
    (a : α) : Option σ :=
  if G s a then step s a else none

/-- A check of an optional value finds the value. -/
theorem exists_of_any {o : Option σ} {P : σ → Prop} [DecidablePred P]
    (h : o.any (fun t => decide (P t)) = true) : ∃ t, o = some t ∧ P t := by
  obtain ⟨t, rfl, ht⟩ := (Option.any_eq_true _ _).mp h
  exact ⟨t, rfl, of_decide_eq_true ht⟩

namespace Run

theorem start (s : σ) : Run step G s s := Relation.ReflTransGen.refl

theorem of_script [∀ s a, Decidable (G s a)] {script : List α}
    (h : script.foldlM (guarded step G) s = some t) : Run step G s t := by
  induction script generalizing s with
  | nil => cases h; exact start _
  | cons a as ih =>
    obtain ⟨u, hu, ht⟩ := Option.bind_eq_some_iff.mp h
    unfold guarded at hu
    split at hu
    · next hG => exact .head ⟨a, hG, hu⟩ (ih ht)
    · exact nomatch hu

/-- What every step keeps holds of every state that is reached. -/
theorem invariant {I : σ → Prop} (keep : ∀ s a t, I s → G s a → step s a = some t → I t)
    (h : I s) (hr : Run step G s t) : I t := by
  induction hr with
  | refl => exact h
  | tail _ ha ih =>
    obtain ⟨a, hG, hs⟩ := ha
    exact keep _ a _ ih hG hs

theorem mono {G' : σ → α → Prop} (hG : ∀ s a, G s a → G' s a) (hr : Run step G s t) :
    Run step G' s t :=
  Relation.ReflTransGen.mono (fun _ _ ⟨a, ha, hs⟩ => ⟨a, hG _ a ha, hs⟩) _ _ hr

end Run

end Smts.Lib
