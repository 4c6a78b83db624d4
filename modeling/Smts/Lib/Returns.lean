import Smts.Lib.Prog

namespace Smts.Lib

open Prog

/-- Where the program returns, its result and the state it leaves satisfy `Q`. -/
abbrev Returns {σ ε α : Type} (m : Prog σ ε α) (Q : α → σ → Prop) (s : σ) : Prop :=
  wp m Q (fun _ _ => True) s

namespace Returns

variable {σ ε α β : Type} {s : σ} {m : Prog σ ε α} {f : α → Prog σ ε β} {Q : α → σ → Prop}
  {R : β → σ → Prop}

theorem pure {a : α} (h : Q a s) : Returns (Pure.pure a : Prog σ ε α) Q s := h

theorem raise {e : ε} : Returns (Prog.raise e : Prog σ ε α) Q s := trivial

theorem mono {Q' : α → σ → Prop} (h : Returns m Q s) (hQ : ∀ a t, Q a t → Q' a t) :
    Returns m Q' s :=
  wp_mono h hQ fun _ _ h => h

theorem bind (h : Returns m Q s) (hf : ∀ a t, Q a t → Returns (f a) R t) :
    Returns (m >>= f) R s := by
  rw [Returns, wp_bind]
  exact wp_mono h hf fun _ _ h => h

theorem get {f : σ → Prog σ ε β} (h : Returns (f s) R s) : Returns (Prog.get >>= f) R s := h

theorem gets {g : σ → α} (h : Returns (f (g s)) R s) : Returns (Prog.gets g >>= f) R s := h

theorem ofExcept {r : Except ε α} (h : ∀ a, r = .ok a → Q a s) :
    Returns (Prog.ofExcept r) Q s := by
  cases r with
  | error e => exact trivial
  | ok a => exact h a rfl

theorem ite {c : Prop} [Decidable c] {m' : Prog σ ε α} (h : c → Returns m Q s)
    (h' : ¬ c → Returns m' Q s) : Returns (if c then m else m') Q s := by
  split
  · next hc => exact h hc
  · next hc => exact h' hc

theorem when {c : Prop} [Decidable c] {m : Prog σ ε Unit} {Q : Unit → σ → Prop}
    (h : c → Returns m Q s) (h' : ¬ c → Q () s) : Returns (Prog.when c m) Q s :=
  ite h h'

theorem forEach {f : α → Prog σ ε Unit} {I : List α → σ → Prop}
    (step : ∀ a as t, I (a :: as) t → Returns (f a) (fun _ => I as) t) {as : List α}
    (h : I as s) : Returns (Prog.forEach f as) (fun _ => I []) s :=
  wp_forEach step h

theorem foldEach {f : β → α → Prog σ ε β} {I : β → List α → σ → Prop}
    (step : ∀ b a as t, I b (a :: as) t → Returns (f b a) (fun b' => I b' as) t) {b : β}
    {as : List α} (h : I b as s) : Returns (Prog.foldEach f b as) (fun b' => I b' []) s :=
  wp_foldEach step h

/-- Running out of fuel is not returning. -/
theorem whileNonempty {out : ε} {round : List α → Prog σ ε (List α)} {I : List α → σ → Prop}
    (step : ∀ l t, I l t → Returns (round l) I t) {n : Nat} {l : List α} (h : I l s) :
    Returns (Prog.whileNonempty out round n l) (fun _ => I []) s :=
  wp_whileNonempty (fun l t _ => step l t) (fun _ _ _ => trivial) h

end Returns

end Smts.Lib
