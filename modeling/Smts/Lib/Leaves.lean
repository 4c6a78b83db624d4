import Smts.Lib.Preserves

namespace Smts.Lib.Prog

variable {σ ε α β γ : Type} {f : σ → γ}

/-- However the program ends, what `f` shows of the state is as it was. -/
def Leaves (f : σ → γ) (m : Prog σ ε α) : Prop := ∀ s, f (m s).2 = f s

namespace Leaves

@[simp] theorem pure (a : α) : Leaves f (Pure.pure a : Prog σ ε α) := fun _ => rfl

@[simp] theorem get : Leaves f (Prog.get : Prog σ ε σ) := fun _ => rfl

@[simp] theorem gets (g : σ → α) : Leaves f (Prog.gets g : Prog σ ε α) := fun _ => rfl

@[simp] theorem raise (e : ε) : Leaves f (Prog.raise e : Prog σ ε α) := fun _ => rfl

@[simp] theorem ofExcept (r : Except ε α) : Leaves f (Prog.ofExcept r) := fun _ => rfl

@[simp] theorem modify {g : σ → σ} (h : ∀ s, f (g s) = f s) :
    Leaves f (Prog.modify g : Prog σ ε Unit) := h

theorem iff_preserves {m : Prog σ ε α} :
    Leaves f m ↔ ∀ v, Preserves (fun s => f s = v) m :=
  ⟨fun h _ s hs => (h s).trans hs, fun h s => h (f s) s rfl⟩

@[simp] theorem bind {m : Prog σ ε α} {g : α → Prog σ ε β} (hm : Leaves f m)
    (hg : ∀ a, Leaves f (g a)) : Leaves f (m >>= g) :=
  iff_preserves.mpr fun v => (iff_preserves.mp hm v).bind fun a => iff_preserves.mp (hg a) v

@[simp] theorem ite {c : Prop} [Decidable c] {m m' : Prog σ ε α} (hm : Leaves f m)
    (hm' : Leaves f m') : Leaves f (if c then m else m') := by
  split
  · exact hm
  · exact hm'

@[simp] theorem when {c : Prop} [Decidable c] {m : Prog σ ε Unit} (hm : Leaves f m) :
    Leaves f (Prog.when c m) := ite hm (pure ())

@[simp] theorem attempt {m : Prog σ ε α} {handler : ε → Prog σ ε α} (hm : Leaves f m)
    (hh : ∀ e, Leaves f (handler e)) : Leaves f (Prog.attempt m handler) :=
  iff_preserves.mpr fun v => (iff_preserves.mp hm v).attempt fun e => iff_preserves.mp (hh e) v

@[simp] theorem forEach {g : α → Prog σ ε Unit} (hg : ∀ a, Leaves f (g a)) (as : List α) :
    Leaves f (Prog.forEach g as) :=
  iff_preserves.mpr fun v => .forEach (fun a => iff_preserves.mp (hg a) v) as

@[simp] theorem foldEach {g : β → α → Prog σ ε β} (hg : ∀ b a, Leaves f (g b a)) (b : β)
    (as : List α) : Leaves f (Prog.foldEach g b as) :=
  iff_preserves.mpr fun v => .foldEach (fun b a => iff_preserves.mp (hg b a) v) b as

@[simp] theorem whileNonempty {out : ε} {round : List α → Prog σ ε (List α)}
    (hr : ∀ l, Leaves f (round l)) (n : Nat) (l : List α) :
    Leaves f (Prog.whileNonempty out round n l) :=
  iff_preserves.mpr fun v => .whileNonempty (fun l => iff_preserves.mp (hr l) v) n l

section Rules

variable {m : Prog σ ε α} {g : α → Prog σ ε β} {s : σ} {I : γ → Prop}

/-- A program that leaves the part alone is followed by one that starts from it. -/
theorem wp_bind {Q : β → σ → Prop} {E : ε → σ → Prop} (h : Leaves f m)
    (hg : ∀ a t, f t = f s → wp (g a) Q E t) (he : ∀ e t, f t = f s → E e t) :
    wp (m >>= g) Q E s := by
  rw [Prog.wp_bind]
  refine wp_of_run (fun a t hm => hg a t ?_) fun e t hm => he e t ?_
  · rw [← h s, hm]
  · rw [← h s, hm]

/-- What holds of the part before holds of it afterwards. -/
theorem wp (h : Leaves f m) (hI : I (f s)) :
    wp m (fun _ t => I (f t)) (fun _ t => I (f t)) s := by
  refine wp_of_run (fun a t hm => ?_) fun e t hm => ?_
  · rwa [← h s, hm] at hI
  · rwa [← h s, hm] at hI

end Rules

end Leaves

end Smts.Lib.Prog
