import Smts.Cluster.Soundness

namespace Smts.Cluster

open Smts.Lib
open Smts.Server (State SockId Sent Header Payload SolveStatus NodeId Env Config Heap render)
open Smts.Client (Listener Process Vouched)

variable {Model : Type} {sem : List String → Set Model} {c : Cluster} {x : SockId}
  {env : Env} {config : Config}

/-- The client has executed all events that it has got. -/
def Settled (p : Process) : Prop := p.comm.queue = [] ∧ p.comm.pc.held = []

/-- The last task has read its script. -/
def Loaded (p : Process) : Prop := ∀ t ∈ p.comm.tasks.getLast?, t.phase ≠ .submitted

instance (p : Process) : Decidable (Settled p) := inferInstanceAs (Decidable (_ ∧ _))

instance (p : Process) : Decidable (Loaded p) :=
  inferInstanceAs (Decidable (∀ t ∈ p.comm.tasks.getLast?, t.phase ≠ .submitted))

section Follows

variable {h : Heap} {r n : NodeId} {ns : List NodeId} {p : Process}

end Follows

/-- A verdict or a partitioning on its way to the server is right about the node it names, also
when the solver has been sent elsewhere by then. -/
theorem Reaches.reports_vouched (h : Reaches sem (init env config) c) {m : Header × Payload}
    (wire : m ∈ c.wire x) (report : ¬ Idle m.1) :
    ∃ n, c.server.heap.Listed n ∧ Vouched sem c.server.heap n m := by
  obtain ⟨n, ⟨_, _, _, names⟩, vouched⟩ := (h.coherent.wire x m wire).resolve_left report
  exact ⟨n, names.listed, vouched⟩

theorem Reaches.reports_vouched_partitions :
    ∃ c m, Reaches truth splitting c ∧ m ∈ c.wire 2 ∧
      ¬ Idle m.1 ∧
      ∃ n, c.server.heap.Listed n ∧
        Vouched truth c.server.heap n m := by
  obtain ⟨c, h, hwire⟩ := exists_of_any
    (o := (partitioned.take 23).foldlM (guarded (move 3) fun c m => m.Right truth c) splitting)
    (P := fun c => ∃ m ∈ c.wire 2, ¬ Idle m.1) (by decide +kernel)
  obtain ⟨m, wire, report⟩ := hwire
  exact ⟨c, m, reaches_partitioned h, wire, report, (reaches_partitioned h).reports_vouched wire report⟩

end Smts.Cluster
