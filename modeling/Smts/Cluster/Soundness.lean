import Smts.Cluster.Coherence
import Smts.Server.Operations
import Smts.Server.Upholding

namespace Smts.Cluster

open Smts.Lib
open Smts.Server (State SockId Sent Header Payload SolveStatus NodeId InstId Env Config Heap Act
  Verdict Upright body render)
open Smts.Client (Vouched)

variable {Model : Type} {sem : List String → Set Model} {c : Cluster} {s : State} {x : SockId}
  {header : Header} {payload : Payload} {n r : NodeId} {ev : Server.Event}

theorem not_idle {status : SolveStatus}
    (h : header.lookup Server.Constant.report = some status.name) : ¬ Idle header := by
  intro hi
  have := (hi _ h).1
  cases status <;> simp [SolveStatus.ofName?, SolveStatus.name] at this

namespace Coherent

/-- A report is about the node that the server takes it for. -/
theorem vouched (hc : Coherent sem c)
    (ready : (Server.Event.message x header payload).ready c.server)
    (arrives : c.Arrives (.message x header payload)) (hkind : c.server.kind x = .solver)
    (matching : Server.Solver.Matches c.server x n header) (report : ¬ Idle header) :
    Vouched sem c.server.heap n (header, payload) := by
  have hmem : (header, payload) ∈ c.wire x := List.mem_of_mem_head? (arrives hkind)
  obtain ⟨k, ⟨m, hm, hp, names⟩, vouched⟩ := (hc.wire x _ hmem).resolve_left report
  have hn : c.server.heap.Listed n := hc.consistent.seated.placed x n matching.node
  obtain ⟨i, hi, hroot⟩ := hc.consistent.here x n (.inl ⟨ready.1, hkind⟩) matching.node
  have hname : m.header.lookup Server.Constant.name = some (c.server.name i) := by
    rw [names.name, ← vouched.name, matching.name, hroot]
    rfl
  obtain ⟨a, ha, -, hall⟩ := hc.kin.titled.about m hm hp
  obtain rfl : k = a := Option.some.inj (names.about.symm.trans ha)
  have hpath : c.server.heap.path k = c.server.heap.path n :=
    Client.render_injective (Option.some.inj (vouched.node.symm.trans matching.path))
  obtain rfl : k = n := Heap.path_injective names.listed.2.2 hn.2.2
    ((hall i (.inl hi) hname).trans hroot.symm) hpath
  exact vouched

/-- Solvers are right in what they report. -/
theorem right (hc : Coherent sem c) (ready : ev.ready c.server) (arrives : c.Arrives ev)
    (hr : c.server.heap.Readable r) : ev.Right (fun text => sem (body text)) r c.server := by
  have models {n : NodeId} (hn : c.server.heap.root n = r) :
      (c.server.heap.stack n).models sem = c.server.heap.formula (fun text => sem (body text)) n :=
    Client.models_stack (by rw [hn, Heap.isAnd, Heap.isOr, hr.smt]; rfl)
  intro a ha heard
  obtain ⟨y, header, payload, rfl, hkind⟩ := heard.2 ha
  have hallowed := heard.1.1
  have hreceived := heard.1.2
  rcases ha with ⟨x, n, status, rfl⟩ | ⟨x, o, partitions, rfl⟩
  · obtain ⟨-, header', payload', hev, matching, hrep⟩ := hreceived
    cases hev
    intro hn
    have hv := hc.vouched ready arrives hkind matching (not_idle hrep)
    rw [← models hn]
    exact hv.verdict (hn ▸ hr) status hrep
  · obtain ⟨-, n, header', payload', hev, matching, hrep, rfl⟩ := hreceived
    cases hev
    cases payload with
    | none => trivial
    | some text =>
      intro p hp hroot
      obtain ⟨-, -, -, k, hk, hchild⟩ := hc.consistent.seated.getLast_lt hallowed.1
      obtain rfl : n = k := Option.some.inj (matching.node.symm.trans hk)
      obtain rfl : n = p := Option.some.inj ((c.server.heap.parent_of_mem hchild).symm.trans hp)
      have hv := hc.vouched ready arrives hkind matching fun hi => (hi _ hrep).2 rfl
      rw [← models hroot]
      exact hv.cover (hroot ▸ hr) hrep text rfl

end Coherent

/-- Whatever comes in which order, what the server holds of SMT trees and what it prints is
right. -/
theorem Reaches.upright {env : Env} {config : Config} (h : Reaches sem (init env config) c) :
    Upright sem c.server := by
  induction h with
  | refl => exact .init env config
  | @tail c d hreach hstep ih =>
    have hc : Coherent sem c := Reaches.coherent hreach
    cases hstep with
    | serve turn unworked arrives =>
      refine ih.step hc.consistent turn.step fun r hr => hc.right ?_ arrives hr
      cases turn with
      | mk running ready => exact ready
    | _ => exact ih

/-- The root stands for the instance as it was submitted. -/
theorem formula_root {h : Heap} {r : NodeId} (sem : String → Set Model) (hpar : h.parent r = none)
    (hand : h.isAnd r = true) : h.formula sem r = sem (h.label r).smt := by
  ext v
  simp only [Heap.formula, Forest.lineage_none hpar, List.mem_singleton, Set.mem_ofPred_eq]
  exact ⟨fun hv => hv r rfl hand, fun hv m hm _ => hm ▸ hv⟩

/-- Solvers that are right about what they have got on their stacks make a server that is right:
in each tree of an SMT instance all statuses are, and a verdict that is printed is one on the
instance as it was submitted. -/
theorem Reaches.verdicts_right {env : Env} {config : Config} (h : Reaches sem (init env config) c) :
    (∀ n, c.server.heap.Listed n → c.server.heap.Readable (c.server.heap.root n) →
      Verdict (c.server.heap.status n)
        (c.server.heap.formula (fun text => sem (body text)) n)) ∧
    ∀ i status filename runtime, .verdict i status filename runtime ∈ c.server.out →
      c.server.heap.Readable (c.server.root i) →
      Verdict status (sem (body (c.server.heap.label (c.server.root i)).smt)) := by
  have hup := h.upright
  refine ⟨fun n hn hr => ?_, fun i status filename runtime hl hr => ?_⟩
  · exact (hup.trees _ hn.root_lt hr).sound.verdict n rfl hn.2.1
  · obtain ⟨⟨-, hand, -⟩, hpar⟩ :=
      h.coherent.consistent.opened i (hup.printed i (Upright.verdicts_of_mem hl))
    rw [← formula_root (fun text => sem (body text)) hpar hand]
    exact hup.answers i status filename runtime hl hr

/-- What lines say about the one variable that there is. -/
def truth (lines : List String) : Set Bool := { p | ∀ line ∈ lines, Server.holds p line = true }

instance (lines : List String) (p : Bool) : Decidable (p ∈ truth lines) :=
  inferInstanceAs (Decidable (∀ line ∈ lines, Server.holds p line = true))

instance (st : Stack String) (p : Bool) : Decidable (p ∈ st.models truth) :=
  inferInstanceAs (Decidable (p ∈ truth st.top ∧ ∀ f ∈ st.below, p ∈ truth f))

instance (p : Client.Process) : (job : Client.Job) → Decidable (job.Right truth p)
  | .compute .. => inferInstanceAs (Decidable (Verdict _ _))
  | .partitions k text => decidable_of_iff (∀ child ∈ (p.children[k]?).join, ∀ v,
      v ∈ child.stack.models truth ↔ ∃ q ∈ Server.Solver.pieces text,
        v ∈ child.stack.models truth ∧ v ∈ truth (body (Server.Solver.assertText q))) <| by
    simp only [Client.Job.Right, Option.mem_def, Option.join_eq_some_iff, Set.ext_iff]
    rfl
  | .sat k =>
    decidable_of_iff (∀ child ∈ (p.children[k]?).join, ∃ v, v ∈ child.stack.models truth) <| by
    simp only [Client.Job.Right, Option.mem_def, Option.join_eq_some_iff]
    rfl
  | .communicate _ | .load _ | .raise _ | .finish _ => .isTrue trivial

instance (c : Cluster) : (m : Move) → Decidable (m.Right truth c)
  | .work x job => inferInstanceAs (Decidable (∀ p ∈ (c.client x).process, job.Right truth p))
  | .serve _ | .read _ | .note .. | .cut _ => .isTrue trivial

/-- Two solvers get an instance.  One splits it, finds that the first partition is unsat, and solves
the second one. -/
def partitioned : List Move :=
  [.serve (.accept "a"), .serve (.message 1 [(Server.Constant.solver, "OpenSMT2")] (some "")),
    .serve (.accept "b"), .serve (.message 3 [(Server.Constant.solver, "OpenSMT2")] (some "")),
    .serve (.accept "c"), .serve (.message 5 [(Server.Constant.command, Server.Constant.solve),
      (Server.Constant.name, "a.smt2")] (some "(assert p)")), .serve .timeout] ++
  [.read 2, .read 2] ++ List.replicate 5 (.work 2 (.communicate true)) ++
  [.work 2 (.load 0), .work 2 (.compute 0 .unknown), .work 2 (.finish 0)] ++
  List.replicate 5 (.work 2 (.communicate true)) ++
  [.work 2 (.partitions 0 "(not p)\x00p"), .serve (.message 2 [("command", "partition"),
    ("name", "a.smt2"), ("node", "[]"), ("query", "(check-sat)"), ("partitions", "2"),
    ("report", "partitions")] (some "(not p)\x00p")), .read 2] ++
  [.work 2 (.load 1), .work 2 (.compute 1 .unknown), .work 2 (.finish 1)] ++
  List.replicate 5 (.work 2 (.communicate true)) ++
  [.work 2 (.load 2), .work 2 (.compute 2 .unsat), .work 2 (.raise 2), .work 2 (.finish 2)] ++
  List.replicate 3 (.work 2 (.communicate true)) ++
  [.serve (.message 2 [("name", "a.smt2"), ("node", "[0, 0]"), ("report", "unsat")] (some "")),
    .read 2] ++ List.replicate 5 (.work 2 (.communicate true)) ++
  [.work 2 (.load 3), .work 2 (.compute 3 .sat), .work 2 (.raise 3), .work 2 (.finish 3)] ++
  List.replicate 3 (.work 2 (.communicate true)) ++
  [.serve (.message 2 [("name", "a.smt2"), ("node", "[0, 1]"), ("report", "sat")] (some ""))]

/-- The server of the run. -/
def splitting : Cluster := init Env.steady { partitionTimeout := some Server.second }

/-- What has happened after some of these moves. -/
theorem reaches_partitioned {k : Nat}
    (h : (partitioned.take k).foldlM (guarded (move 3) fun c m => m.Right truth c) splitting =
      some c) : Reaches truth splitting c :=
  .of_run (.of_script h)

theorem Reaches.verdicts_right_partitioned :
    ∃ c, Reaches truth splitting c ∧ c.server.verdicts = [0] ∧
      (c.server.heap.status 2 = .unsat ∧ c.server.heap.Listed 2 ∧
        Verdict .unsat (c.server.heap.formula (fun text => truth (body text)) 2)) ∧
      (c.server.heap.status 3 = .sat ∧ c.server.heap.Listed 3 ∧
        Verdict .sat (c.server.heap.formula (fun text => truth (body text)) 3)) := by
  obtain ⟨c, h, hverdicts, ⟨unsat, h₂⟩, ⟨sat, h₃, hroot⟩, hsmt, hplain⟩ := exists_of_any
    (o := (partitioned.take 55).foldlM (guarded (move 3) fun c m => m.Right truth c) splitting)
    (P := fun c => c.server.verdicts = [0] ∧
      (c.server.heap.status 2 = .unsat ∧ c.server.heap.Listed 2) ∧
      (c.server.heap.status 3 = .sat ∧ c.server.heap.Listed 3 ∧
        c.server.heap.root 3 = c.server.heap.root 2) ∧
      (c.server.heap.label (c.server.heap.root 2)).cls = .smt ∧
      ∀ m, m < c.server.heap.size → c.server.heap.root m = c.server.heap.root 2 →
        Server.Plain (c.server.heap.label m).smt) (by decide +kernel)
  have hreach := reaches_partitioned h
  have hr : c.server.heap.Readable (c.server.heap.root 2) := ⟨hsmt, hplain⟩
  exact ⟨c, hreach, hverdicts, ⟨unsat, h₂, unsat ▸ hreach.verdicts_right.1 2 h₂ hr⟩, sat, h₃,
    sat ▸ hreach.verdicts_right.1 3 h₃ (hroot ▸ hr)⟩

end Smts.Cluster
