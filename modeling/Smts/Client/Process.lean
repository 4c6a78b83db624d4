import Smts.Client.Reports
import Smts.Lib.Assertions
import Smts.Server.Standing

namespace Smts.Client

open Smts.Lib
open Smts.Server (Header Payload SolveStatus NodeId Heap Verdict render interpret body)

structure Arrival where
  event : Event
  header : Header
  body : String

/-- What `SolverProcess::partition` has forked: the header of its event, and what was asserted
when the solver was copied. -/
structure Child where
  header : Header
  stack : Stack String

/-- A client after the command `SOLVE`.  `name` is the `NAME` of the channel's header.  Children
that are gone leave their place empty; `forked` is the last one, while the flag is set. -/
structure Process where
  name : String
  comm : Communicator
  stack : Stack String
  received : List Arrival
  children : List (Option Child) := []
  forked : Option Nat := none

/-- `SolverProcess::resultToString`. -/
def Result.text : Result → String
  | .sat => "sat"
  | .unsat => "unsat"
  | .unknown => "unknown"
  | .error => "error"

/-- What a result says about the formula. -/
def Result.status : Result → SolveStatus
  | .sat => .sat
  | .unsat => .unsat
  | .unknown | .error => .unknown

def Pc.held : Pc → List Event
  | .holding e | .stopping e | .answering e .. | .executing e | .submitting e => [e]
  | .waiting | .taking | .reporting .. => []

namespace Process

/-- `SolverServer::handle_event` on the command `SOLVE`: the script is parsed at once, and the
event that is queued has no body any more. -/
def start (name : String) (node : Branch) (header : Header) (body : String) : Process where
  name := name
  comm := .start node
  stack := Stack.empty.run (interpret body)
  received := [⟨.resume, header, ""⟩]

def receive (p : Process) (a : Arrival) : Process :=
  { p with
    comm := { p.comm with queue := p.comm.queue ++ [a.event] }
    received := p.received ++ [a] }

def kill (p : Process) : Process :=
  match p.forked with
  | some k => { p with children := p.children.set k none, forked := none }
  | none => p

/-- `SolverProcess::partition` in the parent, when the solver has no result yet. -/
def fork (p : Process) (header : Header) : Process :=
  { p with children := p.children ++ [some ⟨header, p.stack⟩], forked := some p.children.length }

def execute (p : Process) (undecided : Bool) (a : Arrival) : Process :=
  match a.event with
  | .incremental _ => { p.kill with name := (a.header.lookup Server.Constant.name).getD p.name }
  | .partition => if undecided then p.fork a.header else p
  | .resume | .clauseInjection _ => p

def report (p : Process) (r : Report) : Header × Payload :=
  ([(Server.Constant.name, p.name), (Server.Constant.node, render r.node),
    (Server.Constant.report, r.result.text)], some "")

/-- A step of `communicate_worker`, and what it sends.  `undecided` is what the main solver says
when it is asked for partitions. -/
def communicate (p : Process) (undecided : Bool) : Option (Process × List (Header × Payload)) :=
  p.comm.communicate.map fun c =>
    let q :=
      match p.comm.pc, p.received[p.comm.tasks.length]? with
      | .executing _, some a => p.execute undecided a
      | _, _ => p
    ({ q with comm := c }, (c.reports.drop p.comm.reports.length).map p.report)

def load (p : Process) (i : Nat) : Option Process :=
  match p.comm.step (.load i), p.received[i]? with
  | some c, some a => some { p with comm := c, stack := p.stack.run (interpret a.body) }
  | _, _ => none

def reply (p : Process) (k : Nat) (report : String) (payload : String) :
    Option (Process × List (Header × Payload)) :=
  match p.children[k]? with
  | some (some child) => some ({ p with children := p.children.set k none },
      [(child.header.set Server.Constant.report report, some payload)])
  | _ => none

end Process

/-- What the threads of a client and the processes it has forked do. -/
inductive Job
  | communicate (undecided : Bool)
  | load (i : Nat)
  | compute (i : Nat) (r : Result)
  | raise (i : Nat)
  | finish (i : Nat)
  | partitions (k : Nat) (text : String)
  | sat (k : Nat)
  deriving DecidableEq

namespace Process

def work (p : Process) : Job → Option (Process × List (Header × Payload))
  | .communicate undecided => p.communicate undecided
  | .load i => (p.load i).map (·, [])
  | .compute i r => (p.comm.step (.compute i r)).map fun c => ({ p with comm := c }, [])
  | .raise i => (p.comm.step (.raise i)).map fun c => ({ p with comm := c }, [])
  | .finish i => (p.comm.step (.finish i)).map fun c => ({ p with comm := c }, [])
  | .partitions k text => p.reply k Server.Constant.partitions text
  | .sat k => p.reply k Result.sat.text ""

end Process

section Right

variable {Model : Type} (sem : List String → Set Model)

/-- What is relied on of the solver and of its splitter: a result is right about what is asserted,
and so is what a child finds out. -/
def Job.Right (p : Process) : Job → Prop
  | .compute _ r => Verdict r.status (p.stack.models sem)
  | .partitions k text => ∀ child, p.children[k]? = some (some child) → child.stack.models sem =
      { v | ∃ q ∈ Server.Solver.pieces text,
        v ∈ child.stack.models sem ∩ sem (body (Server.Solver.assertText q)) }
  | .sat k => ∀ child, p.children[k]? = some (some child) → (child.stack.models sem).Nonempty
  | .communicate _ | .load _ | .raise _ | .finish _ => True

end Right

end Smts.Client
