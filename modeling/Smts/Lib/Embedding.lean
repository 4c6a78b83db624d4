import Mathlib.Order.Monotone.Basic
import Smts.Lib.Forest

namespace Smts.Lib.Forest

/-- `f` names the nodes of `F` in `G`, which may have more of them.  New nodes get
names that go on without a gap. -/
structure Embeds (f : Nat → Nat) (F G : Forest) : Prop where
  mono : StrictMono f
  size : G.size = f F.size
  next : ∀ n, F.size ≤ n → f (n + 1) = f n + 1
  parent : ∀ n, G.parent (f n) = (F.parent n).map f
  children : ∀ n, G.children (f n) = (F.children n).map f

namespace Embeds

variable {f : Nat → Nat} {F G : Forest}

theorem refl (F : Forest) : Embeds id F F where
  mono := strictMono_id
  size := rfl
  next _ _ := rfl
  parent n := by simp
  children n := by simp

/-- Beyond the nodes there is nothing to compare. -/
theorem of_lt (mono : StrictMono f) (size : G.size = f F.size)
    (next : ∀ n, F.size ≤ n → f (n + 1) = f n + 1)
    (parent : ∀ n < F.size, G.parent (f n) = (F.parent n).map f)
    (children : ∀ n < F.size, G.children (f n) = (F.children n).map f) : Embeds f F G := by
  have beyond (n : Nat) (hn : F.size ≤ n) : G.size ≤ f n := size ▸ mono.monotone hn
  refine ⟨mono, size, next, fun n => ?_, fun n => ?_⟩
  · rcases Nat.lt_or_ge n F.size with hn | hn
    · exact parent n hn
    · rw [parent_of_size_le hn, parent_of_size_le (beyond n hn), Option.map_none]
  · rcases Nat.lt_or_ge n F.size with hn | hn
    · exact children n hn
    · rw [children_of_size_le hn, children_of_size_le (beyond n hn), List.map_nil]

theorem inj (h : Embeds f F G) {m n : Nat} : f m = f n ↔ m = n := h.mono.injective.eq_iff

theorem lt_size (h : Embeds f F G) {n : Nat} : f n < G.size ↔ n < F.size := by
  rw [h.size]
  exact h.mono.lt_iff_lt

theorem root (h : Embeds f F G) (n : Nat) : G.root (f n) = f (F.root n) := by
  induction n using Nat.strong_induction_on with
  | _ n ih =>
    have hp := h.parent n
    cases hn : F.parent n with
    | none =>
      rw [hn] at hp
      rw [G.root_of_none hp, F.root_of_none hn]
    | some p =>
      rw [hn] at hp
      rw [G.root_of_parent hp, F.root_of_parent hn, ih p (F.parent_lt hn)]

theorem addRoot (h : Embeds f F G) : Embeds f F.addRoot G.addRoot where
  mono := h.mono
  size := by
    change G.size + 1 = f (F.size + 1)
    rw [h.next _ (Nat.le_refl _), h.size]
  next n hn := h.next n (Nat.le_of_succ_le hn)
  parent := h.parent
  children := h.children

/-- Changing an entry under its name. -/
theorem update {α β : Type} (h : Embeds f F G) {r : α → β} {p : Nat → β} {q : Nat → α} {m : Nat}
    {a : α} {b : β} {n : Nat} (hab : b = r a) (hn : n ≠ m → p (f n) = r (q n)) :
    Function.update p (f m) b (f n) = r (Function.update q m a n) := by
  by_cases he : n = m
  · subst he
    rw [Function.update_self, Function.update_self, hab]
  · rw [Function.update_of_ne he, Function.update_of_ne fun h' => he (h.inj.mp h'), hn he]

theorem addChild (h : Embeds f F G) {p : Nat} (hp : p < F.size) (hq : f p < G.size) :
    Embeds f (F.addChild p hp) (G.addChild (f p) hq) where
  mono := h.mono
  size := by
    change G.size + 1 = f (F.size + 1)
    rw [h.next _ (Nat.le_refl _), h.size]
  next n hn := h.next n (Nat.le_of_succ_le hn)
  parent n := by
    simp only [Forest.addChild, h.size]
    exact h.update (r := Option.map f) rfl fun _ => h.parent n
  children n := by
    simp only [Forest.addChild]
    refine h.update (r := List.map f) ?_ fun _ => h.children n
    rw [h.children, h.size, List.map_append, List.map_singleton]

theorem clear (h : Embeds f F G) (p : Nat) : Embeds f (F.clear p) (G.clear (f p)) where
  mono := h.mono
  size := h.size
  next := h.next
  parent := h.parent
  children n := by
    simp only [Forest.clear]
    exact h.update (r := List.map f) rfl fun _ => h.children n

end Embeds

end Smts.Lib.Forest
