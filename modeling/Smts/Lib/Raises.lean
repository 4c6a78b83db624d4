import Smts.Lib.Traced

namespace Smts.Lib

open Prog

variable {σ ε α β : Type} {E : ε → Prop}

/-- Whatever the program raises satisfies `E`. -/
def Raises (E : ε → Prop) (m : Prog σ ε α) : Prop := ∀ s, wp m (fun _ _ => True) (fun e _ => E e) s

namespace Raises

@[simp] theorem pure (a : α) : Raises E (Pure.pure a : Prog σ ε α) := fun _ => trivial

@[simp] theorem get : Raises E (Prog.get : Prog σ ε σ) := fun _ => trivial

@[simp] theorem gets (g : σ → α) : Raises E (Prog.gets g : Prog σ ε α) := fun _ => trivial

@[simp] theorem modify (g : σ → σ) : Raises E (Prog.modify g : Prog σ ε Unit) := fun _ => trivial

@[simp] theorem raise {e : ε} (h : E e) : Raises E (Prog.raise e : Prog σ ε α) := fun _ => h

theorem ofExcept {r : Except ε α} (h : ∀ e, r = .error e → E e) :
    Raises E (Prog.ofExcept r : Prog σ ε α) := by
  cases r with
  | error e => exact fun _ => h e rfl
  | ok a => exact fun _ => trivial

@[simp] theorem bind {m : Prog σ ε α} {g : α → Prog σ ε β} (hm : Raises E m)
    (hg : ∀ a, Raises E (g a)) : Raises E (m >>= g) := by
  intro s
  rw [wp_bind]
  exact wp_mono (hm s) (fun a t _ => hg a t) fun _ _ h => h

@[simp] theorem ite {c : Prop} [Decidable c] {m m' : Prog σ ε α} (hm : Raises E m)
    (hm' : Raises E m') : Raises E (if c then m else m') := by
  split
  · exact hm
  · exact hm'

@[simp] theorem when {c : Prop} [Decidable c] {m : Prog σ ε Unit} (hm : Raises E m) :
    Raises E (Prog.when c m) := ite hm (pure ())

@[simp] theorem forEach {g : α → Prog σ ε Unit} (hg : ∀ a, Raises E (g a)) (as : List α) :
    Raises E (Prog.forEach g as) := by
  induction as with
  | nil => exact pure ()
  | cons a as ih => exact bind (hg a) fun _ => ih

@[simp] theorem foldEach {g : β → α → Prog σ ε β} (hg : ∀ b a, Raises E (g b a)) (b : β)
    (as : List α) : Raises E (Prog.foldEach g b as) := by
  induction as generalizing b with
  | nil => exact pure b
  | cons a as ih => exact bind (hg b a) fun b' => ih b'

@[simp] theorem whileNonempty {out : ε} {round : List α → Prog σ ε (List α)} (hout : E out)
    (hr : ∀ l, Raises E (round l)) (n : Nat) (l : List α) :
    Raises E (Prog.whileNonempty out round n l) := by
  induction n generalizing l with
  | zero =>
    cases l with
    | nil => exact pure ()
    | cons a as => exact raise hout
  | succ n ih =>
    cases l with
    | nil => exact pure ()
    | cons a as => exact bind (hr _) fun l' => ih l'

end Raises

/-- What is known of the exceptions sharpens a trace. -/
theorem Traced.raises {r : σ → σ → Prop} {E' : ε → Prop} {m : Prog σ ε α} {Q : α → σ → Prop} {s : σ}
    (h : Traced r E' m Q s) (hE : wp m (fun _ _ => True) (fun e _ => E e) s) : Traced r E m Q s :=
  wp_mono (wp_and h hE) (fun _ _ h => h.1) fun _ _ h => ⟨h.1.1, h.2⟩

end Smts.Lib
