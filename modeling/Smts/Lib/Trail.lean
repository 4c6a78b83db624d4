import Mathlib.Logic.Relation
import Smts.Lib.Prog

namespace Smts.Lib.Prog

variable {σ ε α β : Type} {r r' : σ → σ → Prop} {f f' : ε → σ → σ → Prop} {s t : σ}

/-- The program goes by steps of `r`.  If it raises, one step of `f` may come last. -/
def Trail (r : σ → σ → Prop) (f : ε → σ → σ → Prop) (m : Prog σ ε α) : Prop :=
  ∀ s, wp m (fun _ t => Relation.ReflTransGen r s t)
    (fun e t => ∃ u, Relation.ReflTransGen r s u ∧ (u = t ∨ f e u t)) s

namespace Trail

/-- The second program starts where the first has come to. -/
theorem after {m : Prog σ ε α} (hp : Relation.ReflTransGen r s t) (h : Trail r f m) :
    wp m (fun _ u => Relation.ReflTransGen r s u)
      (fun e u => ∃ v, Relation.ReflTransGen r s v ∧ (v = u ∨ f e v u)) t :=
  wp_mono (h t) (fun _ _ hu => hp.trans hu) fun _ _ ⟨v, hv, hf⟩ => ⟨v, hp.trans hv, hf⟩

theorem mono {m : Prog σ ε α} (h : Trail r f m) (hr : ∀ s t, r s t → r' s t)
    (hf : ∀ e s t, f e s t → f' e s t) : Trail r' f' m :=
  fun s => wp_mono (h s) (fun _ _ ht => Relation.ReflTransGen.mono hr _ _ ht)
    fun e _ ⟨u, hu, ht⟩ => ⟨u, Relation.ReflTransGen.mono hr _ _ hu, ht.imp_right (hf e u _)⟩

@[simp] theorem pure (a : α) : Trail r f (Pure.pure a : Prog σ ε α) := fun _ => .refl

@[simp] theorem get : Trail r f (Prog.get : Prog σ ε σ) := fun _ => .refl

@[simp] theorem gets (g : σ → α) : Trail r f (Prog.gets g : Prog σ ε α) := fun _ => .refl

@[simp] theorem raise (e : ε) : Trail r f (Prog.raise e : Prog σ ε α) :=
  fun s => ⟨s, .refl, .inl rfl⟩

@[simp] theorem ofExcept (x : Except ε α) : Trail r f (Prog.ofExcept x) := by
  cases x with
  | error e => exact raise e
  | ok a => exact pure a

theorem modify {g : σ → σ} (h : ∀ s, r s (g s)) : Trail r f (Prog.modify g : Prog σ ε Unit) :=
  fun s => .single (h s)

@[simp] theorem bind {m : Prog σ ε α} {g : α → Prog σ ε β} (hm : Trail r f m)
    (hg : ∀ a, Trail r f (g a)) : Trail r f (m >>= g) := by
  intro s
  rw [wp_bind]
  exact wp_mono (hm s) (fun a t ht => after ht (hg a)) fun _ _ ht => ht

@[simp] theorem ite {c : Prop} [Decidable c] {m m' : Prog σ ε α} (hm : Trail r f m)
    (hm' : Trail r f m') : Trail r f (if c then m else m') := by
  split
  · exact hm
  · exact hm'

@[simp] theorem when {c : Prop} [Decidable c] {m : Prog σ ε Unit} (hm : Trail r f m) :
    Trail r f (Prog.when c m) := ite hm (pure ())

@[simp] theorem forEach {g : α → Prog σ ε Unit} (hg : ∀ a, Trail r f (g a)) (as : List α) :
    Trail r f (Prog.forEach g as) := by
  induction as with
  | nil => exact pure ()
  | cons a as ih => exact bind (hg a) fun _ => ih

@[simp] theorem foldEach {g : β → α → Prog σ ε β} (hg : ∀ b a, Trail r f (g b a)) (b : β)
    (as : List α) : Trail r f (Prog.foldEach g b as) := by
  induction as generalizing b with
  | nil => exact pure b
  | cons a as ih => exact bind (hg b a) ih

@[simp] theorem whileNonempty {out : ε} {round : List α → Prog σ ε (List α)}
    (hr : ∀ l, Trail r f (round l)) (n : Nat) (l : List α) :
    Trail r f (Prog.whileNonempty out round n l) := by
  induction n generalizing l with
  | zero =>
    cases l with
    | nil => exact pure ()
    | cons a as => exact raise out
  | succ n ih =>
    cases l with
    | nil => exact pure ()
    | cons a as => exact bind (hr (a :: as)) ih

end Trail

end Smts.Lib.Prog
