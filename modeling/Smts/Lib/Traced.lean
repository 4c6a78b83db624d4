import Mathlib.Logic.Relation
import Smts.Lib.Prog

namespace Smts.Lib

open Prog

/-- However the program ends, it has gone from the state it started in by steps of
`r`.  What it raises satisfies `E`, and what it returns `Q`. -/
def Traced {σ ε α : Type} (r : σ → σ → Prop) (E : ε → Prop) (m : Prog σ ε α) (Q : α → σ → Prop)
    (s : σ) : Prop :=
  wp m (fun a t => Relation.ReflTransGen r s t ∧ Q a t)
    (fun e t => Relation.ReflTransGen r s t ∧ E e) s

namespace Traced

variable {σ ε α β : Type} {r : σ → σ → Prop} {E : ε → Prop} {s t : σ} {Q : α → σ → Prop}
  {R : β → σ → Prop}

theorem pure {a : α} (h : Q a s) : Traced r E (Pure.pure a : Prog σ ε α) Q s := ⟨.refl, h⟩

theorem raise {e : ε} (he : E e) : Traced r E (Prog.raise e : Prog σ ε α) Q s := ⟨.refl, he⟩

theorem mono {m : Prog σ ε α} {Q' : α → σ → Prop} (h : Traced r E m Q s)
    (hQ : ∀ a t, Relation.ReflTransGen r s t → Q a t → Q' a t) : Traced r E m Q' s :=
  wp_mono h (fun a t ht => ⟨ht.1, hQ a t ht.1 ht.2⟩) fun _ _ ht => ht

theorem imp {m : Prog σ ε α} {r' : σ → σ → Prop} {E' : ε → Prop} (h : Traced r E m Q s)
    (hr : ∀ u v, r u v → r' u v) (hE : ∀ e, E e → E' e) : Traced r' E' m Q s :=
  wp_mono h (fun _ _ ht => ⟨Relation.ReflTransGen.mono hr _ _ ht.1, ht.2⟩)
    fun e _ ht => ⟨Relation.ReflTransGen.mono hr _ _ ht.1, hE e ht.2⟩

/-- The second program starts where the first has come to. -/
theorem after {m : Prog σ ε β} (hp : Relation.ReflTransGen r s t) (h : Traced r E m R t) :
    wp m (fun b u => Relation.ReflTransGen r s u ∧ R b u)
      (fun e u => Relation.ReflTransGen r s u ∧ E e) t :=
  wp_mono h (fun _ _ hu => ⟨hp.trans hu.1, hu.2⟩) fun _ _ hu => ⟨hp.trans hu.1, hu.2⟩

theorem bind {m : Prog σ ε α} {f : α → Prog σ ε β} (h : Traced r E m Q s)
    (hf : ∀ a t, Relation.ReflTransGen r s t → Q a t → Traced r E (f a) R t) :
    Traced r E (m >>= f) R s := by
  rw [Traced, wp_bind]
  exact wp_mono h (fun a t ht => (hf a t ht.1 ht.2).after ht.1) fun _ _ ht => ht

/-- The result of the first program does not matter. -/
theorem seq {m : Prog σ ε α} {f : α → Prog σ ε β} (h : Traced r E m (fun _ _ => True) s)
    (hf : ∀ a t, Relation.ReflTransGen r s t → Traced r E (f a) R t) :
    Traced r E (m >>= f) R s :=
  h.bind fun a t ht _ => hf a t ht

theorem get {f : σ → Prog σ ε β} (h : Traced r E (f s) R s) : Traced r E (Prog.get >>= f) R s := h

theorem gets {g : σ → α} {f : α → Prog σ ε β} (h : Traced r E (f (g s)) R s) :
    Traced r E (Prog.gets g >>= f) R s := h

theorem ofExcept {x : Except ε α} (he : ∀ e, x = .error e → E e) (h : ∀ a, x = .ok a → Q a s) :
    Traced r E (Prog.ofExcept x) Q s := by
  cases x with
  | error e => exact ⟨.refl, he e rfl⟩
  | ok a => exact ⟨.refl, h a rfl⟩

theorem ite {c : Prop} [Decidable c] {m m' : Prog σ ε α} (h : c → Traced r E m Q s)
    (h' : ¬ c → Traced r E m' Q s) : Traced r E (if c then m else m') Q s := by
  by_cases hc : c
  · rw [if_pos hc]
    exact h hc
  · rw [if_neg hc]
    exact h' hc

theorem when {c : Prop} [Decidable c] {m : Prog σ ε Unit} {Q : Unit → σ → Prop}
    (h : c → Traced r E m Q s) (h' : ¬ c → Q () s) : Traced r E (Prog.when c m) Q s :=
  ite h fun hc => pure (h' hc)

theorem modify {f : σ → σ} {Q : Unit → σ → Prop} (hr : r s (f s)) (h : Q () (f s)) :
    Traced r E (Prog.modify f) Q s :=
  ⟨.single hr, h⟩

/-- An exception is replaced by what the handler does where it was raised. -/
theorem attempt {m : Prog σ ε α} {handler : ε → Prog σ ε α} {E' : ε → Prop}
    (h : Traced r E' m Q s)
    (hf : ∀ e t, Relation.ReflTransGen r s t → E' e → Traced r E (handler e) Q t) :
    Traced r E (Prog.attempt m handler) Q s := by
  rw [Traced, wp_attempt]
  exact wp_mono h (fun _ _ ht => ht) fun e t ht => (hf e t ht.1 ht.2).after ht.1

theorem forEach {f : α → Prog σ ε Unit} {I : List α → σ → Prop}
    (step : ∀ a as t, Relation.ReflTransGen r s t → I (a :: as) t →
      Traced r E (f a) (fun _ => I as) t)
    {as : List α} (h : I as s) : Traced r E (Prog.forEach f as) (fun _ => I []) s :=
  wp_forEach (I := fun as t => Relation.ReflTransGen r s t ∧ I as t)
    (fun a as t ht => (step a as t ht.1 ht.2).after ht.1) ⟨.refl, h⟩

theorem foldEach {f : β → α → Prog σ ε β} {I : β → List α → σ → Prop}
    (step : ∀ b a as t, Relation.ReflTransGen r s t → I b (a :: as) t →
      Traced r E (f b a) (fun b' => I b' as) t)
    {b : β} {as : List α} (h : I b as s) :
    Traced r E (Prog.foldEach f b as) (fun b' => I b' []) s :=
  wp_foldEach (I := fun b as t => Relation.ReflTransGen r s t ∧ I b as t)
    (fun b a as t ht => (step b a as t ht.1 ht.2).after ht.1) ⟨.refl, h⟩

/-- Rounds of a loop, while fuel lasts or the rounds make the list shorter. -/
theorem whileNonempty {out : ε} {round : List α → Prog σ ε (List α)} {I : List α → σ → Prop}
    (step : ∀ l t, l ≠ [] → Relation.ReflTransGen r s t → I l t → Traced r E (round l) I t)
    {n : Nat} {l : List α} (h : I l s)
    (fuel : E out ∨ l.length ≤ n ∧ ∀ l t, l ≠ [] → Relation.ReflTransGen r s t → I l t →
      Traced r E (round l) (fun l' _ => l'.length < l.length) t) :
    Traced r E (Prog.whileNonempty out round n l) (fun _ => I []) s := by
  suffices main : ∀ n l t, Relation.ReflTransGen r s t → I l t → (E out ∨ l.length ≤ n) →
      Traced r E (Prog.whileNonempty out round n l) (fun _ => I []) t from
    main n l s .refl h (fuel.imp_right And.left)
  intro n
  induction n with
  | zero =>
    intro l t _ hI hout
    cases l with
    | nil => exact pure hI
    | cons a as =>
      rcases hout with hout | hlen
      · exact raise hout
      · exact absurd hlen (Nat.not_succ_le_zero _)
  | succ n ih =>
    intro l t ht hI hout
    cases l with
    | nil => exact pure hI
    | cons a as =>
      have hne := List.cons_ne_nil a as
      rcases fuel with hE | ⟨-, hshort⟩
      · exact bind (step _ t hne ht hI) fun l' u hu hI' => ih l' u (ht.trans hu) hI' (.inl hE)
      · have both : Traced r E (round (a :: as))
            (fun l' u => I l' u ∧ l'.length < (a :: as).length) t :=
          wp_mono (wp_and (step _ t hne ht hI) (hshort _ t hne ht hI))
            (fun _ _ h => ⟨h.1.1, h.1.2, h.2.2⟩) fun _ _ h => h.1
        refine bind both fun l' u hu ⟨hI', hlt⟩ => ih l' u (ht.trans hu) hI' (hout.imp_right ?_)
        intro hlen
        exact Nat.le_of_lt_succ (Nat.lt_of_lt_of_le hlt hlen)

end Traced

end Smts.Lib
