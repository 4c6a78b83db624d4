import Smts.Server.SolverLaws

namespace Smts.Server.Solver

open Smts.Lib Smts.Lib.Prog

/-- What a command that could not be sent has to leave alone. -/
structure Unchanged (x : SockId) (s t : State) : Prop where
  solver : t.solver x = s.solver x
  heap : t.heap = s.heap
  partitionCount : t.config.partitionCount = s.config.partitionCount

/-- Nothing is different once `solve` has put the solver on the node. -/
def Prepared (d : SolverData) (n : NodeId) (parameters : Header) : Prop :=
  d.node = some n ∧ d.started = none ∧ d.orWaiting = [] ∧ d.parameters = parameters

variable {s t : State} {x : SockId} {n : NodeId} {parameters : Header}

theorem wp_stop_data : wp (stop x) (fun _ t => t.solver x = reset (s.solver x) ∧ t.heap = s.heap ∧
    t.config = s.config) (fun _ _ => True) s := by
  rw [stop, wp_bind, wp_get]
  cases (s.solver x).node with
  | none => trivial
  | some n =>
    rw [wp_bind, wp_modifySolver]
    exact wp_write (fun w _ => ⟨Function.update_self .., rfl, rfl⟩) fun _ _ _ _ _ => trivial

theorem wp_assign_unsent (script : ∃ r, s.heap.toString (s.heap.root n) n none = .ok r) :
    wp (assign x n parameters) (fun _ _ => True) (fun _ t =>
      t.solver x = { s.solver x with node := some n, parameters := parameters } ∧
        t.heap = s.heap ∧ t.config = s.config) s := by
  obtain ⟨⟨smt, query⟩, hscript⟩ := script
  rw [assign, wp_bind, wp_modifySolver, wp_bind, wp_get, wp_bind, hscript, wp_ofExcept_ok, wp_bind]
  refine wp_write (fun w _ => wp_stamp fun _ _ => trivial) fun e w _ _ _ => ?_
  exact ⟨Function.update_self .., rfl, rfl⟩

/-- A solver that was busy has been stopped by then. -/
theorem wp_solve_unsent (stopped : (s.solver x).node ≠ none → (stop x s).1 = .ok ())
    (script : ∃ r, s.heap.toString (s.heap.root n) n none = .ok r) :
    wp (solve x n parameters) (fun _ _ => True) (fun _ t =>
      t.solver x = { (if (s.solver x).node = none then s.solver x else reset (s.solver x)) with
        node := some n, parameters := parameters } ∧ t.heap = s.heap ∧ t.config = s.config) s := by
  refine wp_solve (fun hn => ?_) fun a ha => ?_
  · rw [if_pos hn]
    exact wp_assign_unsent script
  · have hbusy : (s.solver x).node ≠ none := ha ▸ Option.some_ne_none a
    rw [if_neg hbusy, wp_bind]
    refine wp_of_run (fun _ u hu => ?_) fun e u hu => ?_
    · obtain ⟨hsolver, hheap, hconfig⟩ := wp_ok wp_stop_data hu
      have hassign : wp (assign x n parameters) (fun _ _ => True) (fun _ t =>
          t.solver x = { u.solver x with node := some n, parameters := parameters } ∧
            t.heap = u.heap ∧ t.config = u.config) u := wp_assign_unsent (hheap ▸ script)
      rw [hsolver, hheap, hconfig] at hassign
      exact hassign
    · have hok := stopped hbusy
      rw [hu] at hok
      cases hok

theorem prepared_iff {d : SolverData} :
    { (if d.node = none then d else reset d) with
      node := some n, parameters := parameters } = d ↔ Prepared d n parameters := by
  obtain ⟨name, node, started, orWaiting, parameters'⟩ := d
  cases node with
  | none => simp [Prepared]
  | some a => simp [Prepared, reset, eq_comm]

theorem wp_incremental_unsent :
    wp (incremental x n) (fun _ _ => True) (fun _ t => Unchanged x s t) s := by
  rw [incremental, wp_bind, wp_get]
  cases (s.solver x).node with
  | none => exact ⟨rfl, rfl, rfl⟩
  | some a =>
    rw [wp_bind]
    cases s.heap.toString (s.heap.root a) n (some a) with
    | error e => exact ⟨rfl, rfl, rfl⟩
    | ok r =>
      obtain ⟨smt, query⟩ := r
      rw [wp_ofExcept_ok, wp_bind]
      refine wp_write (fun w _ => ?_) fun e w _ _ _ => ⟨rfl, rfl, rfl⟩
      rw [wp_bind, wp_modifySolver, wp_bind, wp_now, wp_bind, wp_modifySolver, wp_bind]
      exact wp_markStarted fun _ _ => trivial

theorem wp_askPartitions_unsent {k : Nat} {a : NodeId} (placed : (s.solver x).node = some a)
    (node : ∃ r, s.heap.newOr a = .ok r) :
    wp (askPartitions x k) (fun _ _ => True) (fun _ t => t.solver x = s.solver x ∧
      t.heap = s.heap ∧ t.config.partitionCount = s.config.partitionCount + k) s := by
  obtain ⟨⟨o, h⟩, hnode⟩ := node
  rw [askPartitions, wp_bind, wp_modifyConfig, wp_bind, wp_get]
  simp only [placed]
  rw [wp_bind]
  refine wp_write (fun w _ => ?_) fun e w _ _ _ => ⟨rfl, rfl, rfl⟩
  rw [wp_bind, wp_get, wp_bind, hnode]
  trivial

/-- If `incremental` cannot send its command, it changes nothing.  `solve` has changed the
solver by then and `ask_partitions` the number of partitions, unless that makes no
difference. -/
theorem unsent_unchanged (s : State) (x : SockId) :
    (∀ n parameters e t, ((s.solver x).node ≠ none → (stop x s).1 = .ok ()) →
      (∃ r, s.heap.toString (s.heap.root n) n none = .ok r) →
      solve x n parameters s = (.error e, t) →
      (Unchanged x s t ↔ Prepared (s.solver x) n parameters)) ∧
    (∀ n e t, incremental x n s = (.error e, t) → Unchanged x s t) ∧
    (∀ k a e t, (s.solver x).node = some a → (∃ r, s.heap.newOr a = .ok r) →
      askPartitions x k s = (.error e, t) → (Unchanged x s t ↔ k = 0)) := by
  refine ⟨fun n parameters e t stopped script h => ?_, fun n e t h => ?_,
    fun k a e t placed node h => ?_⟩
  · obtain ⟨hsolver, hheap, hconfig⟩ := wp_error (wp_solve_unsent stopped script) h
    refine ⟨fun hu => ?_, fun hp => ⟨?_, hheap, by rw [hconfig]⟩⟩
    · exact prepared_iff.mp (hsolver.symm.trans hu.solver)
    · exact hsolver.trans (prepared_iff.mpr hp)
  · exact wp_error (E := fun _ u => Unchanged x s u) wp_incremental_unsent h
  · obtain ⟨hsolver, hheap, hcount⟩ := wp_error (wp_askPartitions_unsent placed node) h
    refine ⟨fun hu => ?_, fun hk => ⟨hsolver, hheap, by rw [hcount, hk]; simp⟩⟩
    have := hcount.symm.trans hu.partitionCount
    omega

/-- A server with one instance, whose writes fail, and a solver `1` on the given node. -/
def mute (node : Option NodeId) : State where
  world := { env := { Env.steady with writeOk := fun _ => false } }
  heap := (Heap.empty.addRoot { cls := .smt, smt := "(assert true)", name := "a.smt2" }).2
  kind := fun _ => .solver
  sock := fun _ => some 0
  isOpen := fun _ => true
  solver := fun _ => { node := node }
  rlist := [1]

theorem unsent_unchanged_mute :
    Unchanged 1 (mute (some 0)) (incremental 1 0 (mute (some 0))).2 ∧
      Unchanged 1 (mute (some 0)) (askPartitions 1 0 (mute (some 0))).2 ∧
      ¬ Unchanged 1 (mute none) (solve 1 0 [] (mute none)).2 := by
  refine ⟨(unsent_unchanged _ 1).2.1 0 .osError _ rfl,
    ((unsent_unchanged _ 1).2.2 0 0 .osError _ rfl ⟨_, rfl⟩ rfl).mpr rfl, fun h => ?_⟩
  have hp := ((unsent_unchanged (mute none) 1).1 0 [] .osError _ (fun hn => absurd rfl hn) ⟨_, rfl⟩
    rfl).mp h
  exact absurd hp.1.symm (Option.some_ne_none 0)

/-- The commands `solve` and `ask_partitions` get stuck in the socket. -/
theorem unsent_changed :
    (∃ t, solve 1 0 [] (mute none) = (.error .osError, t) ∧ (t.solver 1).node = some 0) ∧
      ∃ t, askPartitions 1 2 (mute (some 0)) = (.error .osError, t) ∧
        (mute (some 0)).config.partitionCount = 0 ∧ t.config.partitionCount = 2 :=
  ⟨⟨_, rfl, rfl⟩, _, rfl, rfl, rfl⟩

end Smts.Server.Solver
