import Smts.Lib.Extends
import Smts.Server.Turns

namespace Smts.Server

open Smts.Lib

variable {n k : Nat} {s t u : State} {ev : Event}

/-- A program that does the same with more fuel, unless it runs out of it. -/
abbrev Fuelled {α : Type} (m m' : M α) : Prop := Extends Exn.noFuel m m'

theorem fuelled_relocate (h : n ≤ k) (i : InstId) (solved : List SockId) :
    Fuelled (relocate n i solved) (relocate k i solved) :=
  .bind (.refl _) fun _ => .when fun _ => .bind (.refl _) fun _ => .whileNonempty _ h _

theorem fuelled_spread (h : n ≤ k) (p : PNode) : Fuelled (spread n p) (spread k p) :=
  .bind (.refl _) fun _ => .whileNonempty _ h _

theorem fuelled_survey (h : n ≤ k) (i : InstId) : Fuelled (survey n i) (survey k i) :=
  .bind (.refl _) fun _ => .bind (.refl _) fun _ => .bind (fuelled_relocate h i _) fun _ => .refl _

theorem fuelled_distribute (h : n ≤ k) (i : InstId) (p : Option PNode) (nodes : List NodeId)
    (pass : Pass) : Fuelled (distribute n i p nodes pass) (distribute k i p nodes pass) := by
  cases p with
  | none => exact .refl _
  | some p => exact .bind (fuelled_spread h p) fun _ => .refl _

theorem fuelled_entrust (h : n ≤ k) (p : Option PNode) : Fuelled (entrust n p) (entrust k p) := by
  refine .bind (.refl _) fun r => ?_
  cases r with
  | none => exact .refl _
  | some i => exact .bind (fuelled_survey h i) fun r => fuelled_distribute h i p r.1 r.2

theorem fuelled_handle (h : n ≤ k) (ev : Event) : Fuelled (handle n ev) (handle k ev) := by
  refine .bind (.refl _) fun r => ?_
  cases r with
  | none => exact .refl _
  | some p => exact fuelled_entrust h p

/-- The fuel only decides whether a turn ends. -/
theorem handle_determined {r r' : Except Exn Unit} (h : handle n ev s = (r, t))
    (h' : handle k ev s = (r', u)) (ends : r ≠ .error .noFuel) (ends' : r' ≠ .error .noFuel) :
    r' = r ∧ u = t := by
  rcases Nat.le_total n k with hle | hle
  · have heq := fuelled_handle hle ev s (by rwa [h])
    rw [h, h'] at heq
    exact Prod.mk.inj heq
  · have heq := fuelled_handle hle ev s (by rwa [h'])
    rw [h, h'] at heq
    exact (Prod.mk.inj heq).imp Eq.symm Eq.symm

/-- An event has one outcome at most. -/
theorem Step.determined (h : Step s ev t) (h' : Step s ev u) : u = t := by
  obtain ⟨_, _, run, ends⟩ := h
  obtain ⟨_, _, run', ends'⟩ := h'
  obtain ⟨rfl, rfl⟩ := handle_determined run run' ends ends'
  rfl

end Smts.Server
