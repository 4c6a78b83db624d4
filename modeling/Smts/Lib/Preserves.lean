import Smts.Lib.Prog

namespace Smts.Lib.Prog

variable {σ ε α β : Type} {I : σ → Prop}

/-- However the program ends, what held of the state still does. -/
def Preserves (I : σ → Prop) (m : Prog σ ε α) : Prop := ∀ s, I s → I (m s).2

namespace Preserves

theorem pure (a : α) : Preserves I (Pure.pure a : Prog σ ε α) := fun _ h => h

theorem get : Preserves I (Prog.get : Prog σ ε σ) := fun _ h => h

theorem gets (g : σ → α) : Preserves I (Prog.gets g : Prog σ ε α) := fun _ h => h

theorem raise (e : ε) : Preserves I (Prog.raise e : Prog σ ε α) := fun _ h => h

theorem ofExcept (r : Except ε α) : Preserves I (Prog.ofExcept r) := fun _ h => h

theorem modify {g : σ → σ} (h : ∀ s, I s → I (g s)) :
    Preserves I (Prog.modify g : Prog σ ε Unit) := h

theorem bind {m : Prog σ ε α} {g : α → Prog σ ε β} (hm : Preserves I m)
    (hg : ∀ a, Preserves I (g a)) : Preserves I (m >>= g) := by
  intro s h
  have ht := hm s h
  rw [bind_run]
  rcases hs : m s with ⟨e | a, t⟩
  · rwa [hs] at ht
  · rw [hs] at ht
    exact hg a t ht

theorem ite {c : Prop} [Decidable c] {m m' : Prog σ ε α} (hm : Preserves I m)
    (hm' : Preserves I m') : Preserves I (if c then m else m') := by
  split
  · exact hm
  · exact hm'

theorem when {c : Prop} [Decidable c] {m : Prog σ ε Unit} (hm : Preserves I m) :
    Preserves I (Prog.when c m) := ite hm (pure ())

theorem attempt {m : Prog σ ε α} {handler : ε → Prog σ ε α} (hm : Preserves I m)
    (hh : ∀ e, Preserves I (handler e)) : Preserves I (Prog.attempt m handler) := by
  intro s h
  have ht := hm s h
  rw [Prog.attempt]
  rcases hs : m s with ⟨e | a, t⟩
  · rw [hs] at ht
    exact hh e t ht
  · rwa [hs] at ht

/-- What is preserved holds of the result however it comes about. -/
theorem wp {m : Prog σ ε α} {s : σ} (hm : Preserves I m) (h : I s) :
    Prog.wp m (fun _ t => I t) (fun _ t => I t) s :=
  wp_of_run (fun a t ht => by simpa [ht] using hm s h) fun e t ht => by simpa [ht] using hm s h

/-- The second program may rely on the result of the first. -/
theorem bind_of {m : Prog σ ε α} {g : α → Prog σ ε β} {Q : α → Prop}
    (hm : ∀ s, I s → Prog.wp m (fun a t => I t ∧ Q a) (fun _ t => I t) s)
    (hg : ∀ a, Q a → Preserves I (g a)) : Preserves I (m >>= g) := by
  intro s h
  refine wp_final ?_
  rw [wp_bind]
  exact wp_mono (hm s h) (fun a t ht => (hg a ht.2).wp ht.1) fun _ _ ht => ht

theorem forEach_of {g : α → Prog σ ε Unit} {as : List α} (hg : ∀ a ∈ as, Preserves I (g a)) :
    Preserves I (Prog.forEach g as) := by
  induction as with
  | nil => exact pure ()
  | cons a as ih =>
    exact bind (hg a List.mem_cons_self) fun _ => ih fun b hb => hg b (List.mem_cons_of_mem _ hb)

theorem forEach {g : α → Prog σ ε Unit} (hg : ∀ a, Preserves I (g a)) (as : List α) :
    Preserves I (Prog.forEach g as) := forEach_of fun a _ => hg a

theorem foldEach {g : β → α → Prog σ ε β} (hg : ∀ b a, Preserves I (g b a)) (b : β)
    (as : List α) : Preserves I (Prog.foldEach g b as) := by
  induction as generalizing b with
  | nil => exact pure b
  | cons a as ih => exact bind (hg b a) fun b' => ih b'

theorem whileNonempty {out : ε} {round : List α → Prog σ ε (List α)}
    (hr : ∀ l, Preserves I (round l)) (n : Nat) (l : List α) :
    Preserves I (Prog.whileNonempty out round n l) := by
  induction n generalizing l with
  | zero =>
    cases l with
    | nil => exact pure ()
    | cons a as => exact raise out
  | succ n ih =>
    cases l with
    | nil => exact pure ()
    | cons a as => exact bind (hr _) fun l' => ih l'

end Preserves

end Smts.Lib.Prog
