import Smts.Client.PullWorker

namespace Smts.Client

open Smts.Server (render)

section Texts

variable {α : Type*} {c : α} {xs ys us vs : List α}

/-- Two texts are compared piece by piece up to a separator. -/
theorem append_cons_isPrefix (hx : c ∉ xs) (hy : c ∉ ys) :
    xs ++ c :: us <+: ys ++ c :: vs ↔ xs = ys ∧ us <+: vs := by
  induction xs generalizing ys with
  | nil =>
    cases ys with
    | nil => simp
    | cons y ys =>
      have hne : c ≠ y := fun h => hy (h ▸ List.mem_cons_self)
      simp [hne]
  | cons x xs ih =>
    have hx' : c ∉ xs := fun h => hx (List.mem_cons_of_mem x h)
    cases ys with
    | nil =>
      have hne : x ≠ c := fun h => hx (h ▸ List.mem_cons_self)
      simp [hne]
    | cons y ys =>
      have hy' : c ∉ ys := fun h => hy (List.mem_cons_of_mem y h)
      simp [ih hx' hy', and_assoc]

theorem not_append_cons_isPrefix (hy : c ∉ ys) : ¬ xs ++ c :: us <+: ys := fun h =>
  hy (h.subset (List.mem_append_right xs List.mem_cons_self))

theorem isPrefix_append_cons (hx : c ∉ xs) : xs <+: ys ++ c :: vs ↔ xs <+: ys := by
  refine ⟨fun h => ?_, fun h => h.trans (List.prefix_append _ _)⟩
  rcases List.prefix_or_prefix_of_prefix h (List.prefix_append ys _) with h' | ⟨zs, rfl⟩
  · exact h'
  · cases zs with
    | nil => simp
    | cons z zs =>
      have hz := (List.prefix_append_right_inj ys).mp h
      obtain ⟨rfl, -⟩ := List.cons_prefix_cons.mp hz
      exact absurd (List.mem_append_right ys List.mem_cons_self) hx

end Texts

/-- The decimal text of a number. -/
abbrev digits (n : Nat) : List Char := Nat.toDigits 10 n

theorem comma_not_mem (n : Nat) : ',' ∉ digits n := fun h => by
  have hdigit := Nat.isDigit_of_mem_toDigits (by decide) (by decide) h
  cases hdigit

theorem toList_render (p : List Nat) :
    (render p).toList = '[' :: [',', ' '].intercalate (p.map digits) ++ [']'] := by
  have hdigits : (p.map toString).map String.toList = p.map digits := by
    simp [Function.comp_def]
  rw [render, String.toList_append, String.toList_append, String.toList_intercalate, hdigits]
  rfl

theorem digits_inj {a b : Nat} (h : digits a = digits b) : a = b := by
  rw [← Nat.ofDigitChars_ten_toDigits (n := a), ← Nat.ofDigitChars_ten_toDigits (n := b)]
  exact congrArg (Nat.ofDigitChars 10 · 0) h

theorem inner_eq (p : Branch) : inner p = [',', ' '].intercalate (p.map digits) := by
  rw [inner, toList_render]
  simp

theorem inner_singleton (a : Nat) : inner [a] = digits a := by
  rw [inner_eq]
  simp

theorem inner_cons (a : Nat) {p : Branch} (hp : p ≠ []) :
    inner (a :: p) = digits a ++ ',' :: ' ' :: inner p := by
  rw [inner_eq, inner_eq, List.map_cons,
    List.intercalate_cons_of_ne_nil (by simpa using hp)]
  simp

/-- The text of `q` ends in the middle of a number of `p`: up to there the branches
agree. -/
def CutsOff (p q : Branch) : Prop :=
  ∃ r a b, q = r ++ [b] ∧ r ++ [a] <+: p ∧ b ≠ a ∧ digits b <+: digits a

theorem CutsOff.not_prefix {p q : Branch} (h : CutsOff p q) : ¬ q <+: p := by
  obtain ⟨r, a, b, rfl, ⟨s, rfl⟩, hne, _⟩ := h
  rw [List.append_assoc, List.prefix_append_right_inj]
  simpa using hne

theorem cutsOff_cons {a b : Nat} {p q : Branch} (hq : q ≠ []) :
    CutsOff (a :: p) (b :: q) ↔ b = a ∧ CutsOff p q := by
  constructor
  · rintro ⟨r, a', b', hbq, hr, hne, hd⟩
    cases r with
    | nil => exact absurd (List.cons.inj hbq).2 hq
    | cons c r =>
      obtain ⟨rfl, rfl⟩ := List.cons.inj hbq
      obtain ⟨rfl, hr'⟩ := List.cons_prefix_cons.mp hr
      exact ⟨rfl, r, a', b', rfl, hr', hne, hd⟩
  · rintro ⟨rfl, r, a', b', rfl, hr, hne, hd⟩
    exact ⟨b :: r, a', b', rfl, List.cons_prefix_cons.mpr ⟨rfl, hr⟩, hne, hd⟩

theorem cutsOff_singleton {a b : Nat} {p : Branch} :
    CutsOff (a :: p) [b] ↔ b ≠ a ∧ digits b <+: digits a := by
  constructor
  · rintro ⟨r, a', b', hb, hr, hne, hd⟩
    cases r with
    | nil =>
      cases hb
      obtain ⟨rfl, -⟩ := List.cons_prefix_cons.mp hr
      exact ⟨hne, hd⟩
    | cons c r => simp at hb
  · rintro ⟨hne, hd⟩
    exact ⟨[], a, b, rfl, List.cons_prefix_cons.mpr ⟨rfl, List.nil_prefix⟩, hne, hd⟩

/-- The test passes for the ancestors, and where a number is cut off. -/
theorem isPrefix_inner (p q : Branch) :
    isPrefix (inner p) (inner q) = true ↔ q <+: p ∨ CutsOff p q := by
  rw [isPrefix, List.isPrefixOf_iff_prefix]
  induction q generalizing p with
  | nil => simp [inner_eq]
  | cons b q ih =>
    cases p with
    | nil =>
      have hne : inner (b :: q) ≠ [] := by
        cases q with
        | nil => simp [inner_singleton]
        | cons c q => simp [inner_cons]
      have hcut : ¬ CutsOff [] (b :: q) := by
        rintro ⟨r, a, b', _, hr, _⟩
        simp at hr
      simpa [inner_eq [], hcut] using hne
    | cons a p =>
      by_cases hq : q = []
      · subst hq
        have key : digits b <+: inner (a :: p) ↔ digits b <+: digits a := by
          by_cases hp : p = []
          · rw [hp, inner_singleton]
          · rw [inner_cons a hp, isPrefix_append_cons (comma_not_mem b)]
        rw [inner_singleton, key, cutsOff_singleton, List.cons_prefix_cons]
        by_cases hba : b = a
        · simp [hba]
        · simp [hba]
      · rw [inner_cons b hq, cutsOff_cons hq, List.cons_prefix_cons, ← and_or_left, ← ih p]
        by_cases hp : p = []
        · subst hp
          have hne : ¬ inner q <+: inner [] := by
            rw [ih []]
            rintro (h | ⟨r, a', b', _, hr, _⟩)
            · exact hq (List.prefix_nil.mp h)
            · simp at hr
          refine iff_of_false ?_ fun h => hne h.2
          rw [inner_singleton]
          exact not_append_cons_isPrefix (comma_not_mem a)
        · rw [inner_cons a hp, append_cons_isPrefix (comma_not_mem b) (comma_not_mem a),
            List.cons_prefix_cons]
          simp only [true_and]
          exact and_congr_left fun _ => ⟨digits_inj, congrArg digits⟩

/-- The injection test is the ancestor test unless the text cuts a number off. -/
theorem injection_ancestor (p q : Branch) :
    (isPrefix (inner p) (inner q) = true ↔ q <+: p) ↔ ¬ CutsOff p q := by
  rw [isPrefix_inner]
  refine ⟨fun h hcut => hcut.not_prefix (h.mp (.inr hcut)), fun h => ?_⟩
  exact or_iff_left h

/-- A batch of the eleventh partition is injected into the second. -/
theorem injection_sibling :
    isPrefix (inner [0, 10]) (inner [0, 1]) = true ∧ ¬ [0, 1] <+: [0, 10] := by
  decide +kernel

end Smts.Client
