import Smts.Client.PullWorker
import Smts.Lib.Run

namespace Smts.Client

/-- `SolverProcess::Result`. -/
inductive Result
  | sat | unsat | unknown | error
  deriving DecidableEq

def Result.definite (r : Result) : Prop := r = .sat ∨ r = .unsat

instance : DecidablePred Result.definite := fun _ => inferInstanceAs (Decidable (_ ∨ _))

/-- How far a solver task has come.  Once there is a result, the branch is kept whose
script was loaded when it was computed. -/
inductive Phase
  | submitted
  | searching
  | computed (r : Result) (branch : Branch)
  | raised (r : Result) (branch : Branch)
  | returned (r : Result) (branch : Branch)
  deriving DecidableEq

/-- `solver_process->solve` in the thread pool. -/
structure Task where
  event : Event
  phase : Phase := .submitted
  deriving DecidableEq

/-- A report to the server.  The number of the task is not transmitted. -/
structure Report where
  task : Nat
  result : Result
  node : Branch
  deriving DecidableEq

/-- Where `communicate_worker` stands.  It holds the lock of the channel only within
a step. -/
inductive Pc
  | waiting
  | taking
  | reporting (i : Nat) (r : Result)
  | holding (e : Event)
  | stopping (e : Event)
  | answering (e : Event) (i : Nat) (r : Result)
  | executing (e : Event)
  | submitting (e : Event)
  deriving DecidableEq

structure Communicator where
  currentHeader : Branch
  queue : List Event
  shallStop : Bool := false
  shouldStop : Bool := false
  loaded : Branch
  tasks : List Task := []
  future : Option Nat := none
  pc : Pc := .waiting
  reports : List Report := []
  deriving DecidableEq

/-- After `preProcess_instance` on the command `SOLVE`. -/
def Communicator.start (node : Branch) : Communicator where
  currentHeader := node
  queue := [.resume]
  loaded := node

/-- The branch after an event, for the header of the channel and for the script. -/
def Event.branch (b : Branch) : Event → Branch
  | .incremental node => node
  | .resume | .partition | .clauseInjection _ => b

namespace Communicator

/-- What `future.get` returns, `none` while it waits. -/
def outcome (c : Communicator) (i : Nat) : Option Result :=
  match c.tasks[i]? with
  | some ⟨_, .returned r _⟩ => some r
  | _ => none

/-- `net::Report::report` with the header of the channel. -/
def report (c : Communicator) (i : Nat) (r : Result) : Communicator :=
  { c with reports := c.reports ++ [⟨i, r, c.currentHeader⟩] }

/-- `communicate_worker`, from one point where other threads can act to the next. -/
def communicate (c : Communicator) : Option Communicator :=
  match c.pc with
  | .waiting =>
    if c.shallStop then some { c with shallStop := false, pc := .taking }
    else
      match c.queue with
      | e :: es => some { c with queue := es, pc := .holding e }
      | [] => none
  | .taking =>
    match c.future with
    | some i => (c.outcome i).map fun r => { c with future := none, pc := .reporting i r }
    | none => some { c with pc := .waiting }
  | .reporting i r => some { c.report i r with pc := .waiting }
  | .holding e => some { c with shouldStop := true, pc := .stopping e }
  | .stopping e =>
    match c.future with
    | some i => (c.outcome i).map fun r => { c with
        future := none
        pc := if r = .unknown then .executing e else .answering e i r }
    | none => some { c with pc := .executing e }
  | .answering e i r => some { c.report i r with pc := .executing e }
  | .executing e => some { c with
      shouldStop := false
      currentHeader := e.branch c.currentHeader
      pc := .submitting e }
  | .submitting e => some { c with
      tasks := c.tasks ++ [{ event := e }]
      future := some c.tasks.length
      pc := .waiting }

def setPhase (c : Communicator) (i : Nat) (p : Phase) : Communicator :=
  { c with tasks := c.tasks.modify i fun t => { t with phase := p } }

end Communicator

/-- What the listener or the pull worker, the communicator, and the solver tasks do. -/
inductive Move
  | receive (e : Event)
  | communicate
  | load (i : Nat)
  | compute (i : Nat) (r : Result)
  | raise (i : Nat)
  | finish (i : Nat)
  deriving DecidableEq

namespace Communicator

/-- One step of any thread.  A task raises the flag just before it returns sat or
unsat. -/
def step (c : Communicator) : Move → Option Communicator
  | .receive e => some { c with queue := c.queue ++ [e] }
  | .communicate => c.communicate
  | .load i =>
    match c.tasks[i]? with
    | some ⟨e, .submitted⟩ => some { c.setPhase i .searching with loaded := e.branch c.loaded }
    | _ => none
  | .compute i r =>
    match c.tasks[i]? with
    | some ⟨_, .searching⟩ => some (c.setPhase i (.computed r c.loaded))
    | _ => none
  | .raise i =>
    match c.tasks[i]? with
    | some ⟨_, .computed r b⟩ =>
      if r.definite then some { c.setPhase i (.raised r b) with shallStop := true } else none
    | _ => none
  | .finish i =>
    match c.tasks[i]? with
    | some ⟨_, .raised r b⟩ => some (c.setPhase i (.returned r b))
    | some ⟨_, .computed r b⟩ =>
      if r.definite then none else some (c.setPhase i (.returned r b))
    | _ => none

end Communicator

end Smts.Client
