import Smts.Lib.Prog

namespace Smts.Lib

open Prog

/-- Wherever `m` does not raise `out`, `m'` does the same. -/
def Extends {σ ε α : Type} (out : ε) (m m' : Prog σ ε α) : Prop :=
  ∀ s, (m s).1 ≠ .error out → m' s = m s

namespace Extends

variable {σ ε α β : Type} {out : ε} {m m' : Prog σ ε α}

theorem refl (m : Prog σ ε α) : Extends out m m := fun _ _ => rfl

theorem bind {f f' : α → Prog σ ε β} (hm : Extends out m m')
    (hf : ∀ a, Extends out (f a) (f' a)) : Extends out (m >>= f) (m' >>= f') := by
  intro s h
  have hs := hm s
  rcases hrun : m s with ⟨e | a, t⟩
  · rw [hrun] at hs
    rw [bind_error hrun] at h ⊢
    refine bind_error (hs fun he => h ?_)
    cases he
    rfl
  · rw [hrun] at hs
    rw [bind_ok hrun] at h ⊢
    have hrun' : m' s = (.ok a, t) := hs fun he => by cases he
    rw [bind_ok hrun', hf a t h]

theorem when {c : Prop} [Decidable c] {m m' : Prog σ ε Unit} (h : c → Extends out m m') :
    Extends out (Prog.when c m) (Prog.when c m') := by
  by_cases hc : c
  · rw [Prog.when, Prog.when, if_pos hc, if_pos hc]
    exact h hc
  · rw [Prog.when, Prog.when, if_neg hc, if_neg hc]
    exact refl _

/-- More rounds than needed do not matter. -/
theorem whileNonempty (round : List α → Prog σ ε (List α)) {n k : Nat} (h : n ≤ k) (l : List α) :
    Extends out (Prog.whileNonempty out round n l) (Prog.whileNonempty out round k l) := by
  induction n generalizing k l with
  | zero =>
    cases l with
    | nil =>
      cases k with
      | zero => exact refl _
      | succ k => exact refl _
    | cons a as => exact fun s hs => absurd rfl hs
  | succ n ih =>
    obtain ⟨k, rfl⟩ :=
      Nat.exists_eq_succ_of_ne_zero (Nat.ne_of_gt (Nat.lt_of_lt_of_le n.succ_pos h))
    cases l with
    | nil => exact refl _
    | cons a as => exact bind (refl _) fun l => ih (Nat.le_of_succ_le_succ h) l

end Extends

end Smts.Lib
