import Mathlib.Data.List.Count
import Mathlib.Data.List.Nodup

namespace Smts.Lib

variable {α β : Type}

/-- Rounds over a list of places: in each round every place gets the next one waiting, as long
as there is one. -/
inductive Dealt (places : List α) : List β → List (β × α) → Prop
  | nil : Dealt places [] []
  | round {l : List β} {ps : List (β × α)} : l ≠ [] → Dealt places (l.drop places.length) ps →
      Dealt places l (l.zip places ++ ps)

namespace Dealt

variable {places : List α} {l : List β} {ps : List (β × α)}

theorem eq_nil (h : Dealt places ([] : List β) ps) : ps = [] := by
  cases h with
  | nil => rfl
  | round hne _ => exact absurd rfl hne

end Dealt

end Smts.Lib
