import Mathlib.Data.Set.Lattice
import Mathlib.Tactic.Set

namespace Smts.Lib

variable {α : Type}

/-- From the facts that the body asks for follows the head. -/
structure Clause (α : Type) where
  body : Set α → Prop
  head : α

namespace Clause

/-- More facts never hurt the body. -/
def Positive (c : Clause α) : Prop := ∀ I J : Set α, I ⊆ J → c.body I → c.body J

/-- The body asks for facts of a kind only. -/
def Local (q : α → Prop) (c : Clause α) : Prop :=
  ∀ I J : Set α, (∀ a, q a → (a ∈ I ↔ a ∈ J)) → (c.body I ↔ c.body J)

end Clause

def Closed (P : Set (Clause α)) (I : Set α) : Prop := ∀ c ∈ P, c.body I → c.head ∈ I

/-- What can be derived: what is in every closed set. -/
def least (P : Set (Clause α)) : Set α := {a | ∀ I, Closed P I → a ∈ I}

variable {P O K : Set (Clause α)} {I : Set α} {a : α} {q : α → Prop}

theorem least_subset (h : Closed P I) : least P ⊆ I := fun _ ha => ha I h

theorem Closed.mono (h : Closed P I) (hO : O ⊆ P) : Closed O I := fun c hc => h c (hO hc)

theorem closed_least (hP : ∀ c ∈ P, c.Positive) : Closed P (least P) := by
  intro c hc hbody I hI
  exact hI c hc (hP c hc _ _ (least_subset hI) hbody)

theorem least_mono (hO : O ⊆ P) : least O ⊆ least P :=
  fun _ ha I hI => ha I (hI.mono hO)

/-- A fact is derived by one of the clauses. -/
theorem mem_least (hP : ∀ c ∈ P, c.Positive) :
    a ∈ least P ↔ ∃ c ∈ P, c.head = a ∧ c.body (least P) := by
  refine ⟨fun ha => ?_, ?_⟩
  · by_contra hnone
    have hclosed : Closed P (least P \ {a}) := by
      intro c hc hbody
      have hbody' := hP c hc _ _ Set.sdiff_subset hbody
      exact ⟨closed_least hP c hc hbody', fun hhead => hnone ⟨c, hc, hhead, hbody'⟩⟩
    exact (ha _ hclosed).2 rfl
  · rintro ⟨c, hc, rfl, hbody⟩
    exact closed_least hP c hc hbody

/-- A fact that some clauses are left out for is derived without them, or from what is derived
without them. -/
theorem mem_least_union (hO : ∀ c ∈ O, c.Positive) (hK : ∀ c ∈ K, c.Positive)
    (hhead : ∀ c ∈ K, c.head = a) :
    a ∈ least (O ∪ K) ↔ a ∈ least O ∨ ∃ c ∈ K, c.body (least O) := by
  have hboth : ∀ c ∈ O ∪ K, c.Positive := fun c hc => hc.elim (hO c) (hK c)
  refine ⟨fun ha => ?_, ?_⟩
  · by_contra hnone
    rw [not_or] at hnone
    have hclosed : Closed (O ∪ K) (least O) := by
      rintro c (hc | hc) hbody
      · exact closed_least hO c hc hbody
      · exact absurd ⟨c, hc, hbody⟩ hnone.2
    exact hnone.1 (ha _ hclosed)
  · rintro (ha | ⟨c, hc, hbody⟩)
    · exact least_mono Set.subset_union_left ha
    · have hbody' := hK c hc _ (least (O ∪ K)) (least_mono Set.subset_union_left) hbody
      exact hhead c hc ▸ closed_least hboth c (.inr hc) hbody'

/-- Clauses for facts of another kind, which no body asks for, add just their heads. -/
theorem least_extension (hO : ∀ c ∈ O, c.Positive) (hK : ∀ c ∈ K, c.Positive)
    (hlocal : ∀ c ∈ O ∪ K, c.Local q) (hhead : ∀ c ∈ K, ¬ q c.head) :
    least (O ∪ K) = least O ∪ {a | ∃ c ∈ K, c.head = a ∧ c.body (least O)} := by
  set J := least O ∪ {a | ∃ c ∈ K, c.head = a ∧ c.body (least O)} with hJ
  have hsame : ∀ a, q a → (a ∈ J ↔ a ∈ least O) := by
    intro a ha
    refine ⟨fun hmem => ?_, .inl⟩
    rcases hmem with hmem | ⟨c, hc, rfl, -⟩
    · exact hmem
    · exact absurd ha (hhead c hc)
  refine Set.Subset.antisymm (least_subset ?_) (Set.union_subset (least_mono Set.subset_union_left) ?_)
  · intro c hc hbody
    have hbody' := (hlocal c hc J (least O) hsame).mp hbody
    rcases hc with hc | hc
    · exact .inl (closed_least hO c hc hbody')
    · exact .inr ⟨c, hc, rfl, hbody'⟩
  · rintro a ⟨c, hc, rfl, hbody⟩ I hI
    have hsub : least O ⊆ I := least_subset (hI.mono Set.subset_union_left)
    exact hI c (.inr hc) (hK c hc _ _ hsub hbody)

end Smts.Lib
