import Smts.Client.Listener
import Smts.Server.Isolation

namespace Smts

open Smts.Lib
open Smts.Server (State SockId Sent Header Payload SolveStatus NodeId Env Config Exn landed mail)
open Smts.Client (Listener Job Vouched)

/-- The server, and for each socket of a solver its client, what the server has sent there, how
much of this the client has read, what the client has sent and the server has not read, and whether
what is sent to the client still arrives.  `refused` notes, for nobody to read, that a command has
never got as far as the connection. -/
structure Cluster where
  server : State
  inbox : SockId → List Sent := fun _ => []
  taken : SockId → Nat := fun _ => 0
  linked : SockId → Bool := fun _ => false
  refused : SockId → Bool := fun _ => false
  client : SockId → Listener := fun _ => {}
  wire : SockId → List (Header × Payload) := fun _ => []

/-- `handle_close` is called for the socket. -/
def Server.Event.closes (ev : Server.Event) (x : SockId) : Bool :=
  match ev with
  | .closed y => y = x
  | _ => false

def Server.Event.tells (ev : Server.Event) (x : SockId) : Bool :=
  match ev with
  | .message y .. => y = x
  | _ => false

namespace Cluster

def init (env : Env) (config : Config) : Cluster := { server := .init env config }

/-- What a solver is heard to say is the next that its client has sent. -/
def Arrives (c : Cluster) : Server.Event → Prop
  | .message x header payload =>
    c.server.kind x = .solver → (c.wire x).head? = some (header, payload)
  | _ => True

/-- Whether what the server sends in a turn that leads to `t` gets to a solver. -/
def reaches (c : Cluster) (ev : Server.Event) (t : State) (x : SockId) : Bool :=
  t.kind x = .solver && !ev.closes x && (c.server.kind x ≠ .solver || c.linked x)

/-- What the client of a socket has been sent after a turn.  A socket that was none of a solver
has got a new client. -/
def delivered (c : Cluster) (ev : Server.Event) (t : State) (x : SockId) : List Sent :=
  (if c.server.kind x = .solver then c.inbox x else []) ++
    if c.reaches ev t x then mail x (t.sent.drop c.server.sent.length) else []

/-- The node of a solver has changed in a turn without the command that says so. -/
def unsent (c : Cluster) (ev : Server.Event) (t : State) (x : SockId) : Bool :=
  let node := if c.server.kind x = .solver then (c.server.solver x).node else none
  c.reaches ev t x &&
    decide (landed node (mail x (t.sent.drop c.server.sent.length)) ≠ (t.solver x).node)

/-- A turn of the server that ends so.  A connection is broken on which a command could not be
sent; one whose command `Socket.write` refused stays as it is. -/
def serve (c : Cluster) (ev : Server.Event) (r : Except Exn Unit) (t : State) : Cluster where
  server := t
  inbox := c.delivered ev t
  taken x := if c.server.kind x = .solver then c.taken x else 0
  linked x := c.reaches ev t x && (t.sock x).isSome &&
    !(c.unsent ev t x && decide (r = .error .osError))
  refused x := (decide (c.server.kind x = .solver) && c.refused x) ||
    (c.unsent ev t x && decide (r ≠ .error .osError))
  client x := if c.server.kind x = .solver then c.client x else {}
  wire x :=
    if c.server.kind x = .solver then if ev.tells x then (c.wire x).tail else c.wire x else []

/-- A message that is neither a verdict nor a partitioning. -/
def Idle (header : Header) : Prop :=
  ∀ report, header.lookup Server.Constant.report = some report →
    SolveStatus.ofName? report = none ∧ report ≠ Server.Constant.partitions

instance (header : Header) : Decidable (Idle header) :=
  decidable_of_iff (∀ report ∈ header.lookup Server.Constant.report,
    SolveStatus.ofName? report = none ∧ report ≠ Server.Constant.partitions) Iff.rfl

variable {Model : Type}

/-- A turn of the server, or what a client does.  A name is not used again for an instance while
solvers may work for an older one of this name. -/
inductive Step (sem : List String → Set Model) (c : Cluster) : Cluster → Prop
  | serve {ev : Server.Event} {r : Except Exn Unit} {t : State} (turn : Server.Ends c.server ev r t)
      (unworked : ev.Unworked c.server) (arrives : c.Arrives ev) : Step sem c (c.serve ev r t)
  | read {x : SockId} {m : Sent} {d : Listener} (next : (c.inbox x)[c.taken x]? = some m)
      (alive : (c.client x).exited = false) (follows : (c.client x).handleEvent m = some d) :
      Step sem c { c with
        taken := Function.update c.taken x (c.taken x + 1)
        client := Function.update c.client x d }
  | work {x : SockId} {p q : Client.Process} {job : Job} {out : List (Header × Payload)}
      (process : (c.client x).process = some p) (right : job.Right sem p)
      (work : p.work job = some (q, out)) :
      Step sem c { c with
        client := Function.update c.client x { c.client x with process := some q }
        wire := Function.update c.wire x (c.wire x ++ out) }
  | note {x : SockId} {header : Header} {payload : Payload} (idle : Idle header) :
      Step sem c { c with wire := Function.update c.wire x (c.wire x ++ [(header, payload)]) }
  | cut {x : SockId} : Step sem c { c with linked := Function.update c.linked x false }

/-- All that may have happened. -/
def Reaches (sem : List String → Set Model) : Cluster → Cluster → Prop :=
  Relation.ReflTransGen (Step sem)

instance (c : Cluster) : DecidablePred c.Arrives
  | .message x header payload =>
    inferInstanceAs
      (Decidable (c.server.kind x = .solver → (c.wire x).head? = some (header, payload)))
  | .timeout | .accept _ | .closed _ => .isTrue trivial

/-- What may be done next. -/
inductive Move
  | serve (ev : Server.Event)
  | read (x : SockId)
  | work (x : SockId) (job : Job)
  | note (x : SockId) (header : Header) (payload : Payload)
  | cut (x : SockId)

/-- Does it, where it is possible. -/
def move (fuel : Nat) (c : Cluster) : Move → Option Cluster
  | .serve ev =>
    if ev.Unworked c.server ∧ c.Arrives ev then
      (c.server.ended fuel ev).map fun (r, t) => c.serve ev r t
    else none
  | .read x =>
    match (c.inbox x)[c.taken x]?, (c.client x).exited with
    | some m, false => ((c.client x).handleEvent m).map fun d => { c with
        taken := Function.update c.taken x (c.taken x + 1)
        client := Function.update c.client x d }
    | _, _ => none
  | .work x job =>
    match (c.client x).process with
    | some p => (p.work job).map fun (q, out) => { c with
        client := Function.update c.client x { c.client x with process := some q }
        wire := Function.update c.wire x (c.wire x ++ out) }
    | none => none
  | .note x header payload =>
    if Idle header then
      some { c with wire := Function.update c.wire x (c.wire x ++ [(header, payload)]) }
    else none
  | .cut x => some { c with linked := Function.update c.linked x false }

/-- What is relied on of a solver that is at work. -/
def Move.Right (sem : List String → Set Model) (c : Cluster) : Move → Prop
  | .work x job => ∀ p ∈ (c.client x).process, job.Right sem p
  | _ => True

section Moves

variable {sem : List String → Set Model} {fuel : Nat} {c d : Cluster} {m : Move}

theorem move_step (right : m.Right sem c) (h : c.move fuel m = some d) : Step sem c d := by
  cases m with
  | serve ev =>
    rw [move, Option.ite_none_right_eq_some] at h
    obtain ⟨⟨unworked, arrives⟩, h⟩ := h
    obtain ⟨⟨r, t⟩, ht, rfl⟩ := Option.map_eq_some_iff.mp h
    exact .serve (Server.State.ended_ends ht) unworked arrives
  | read x =>
    rw [move] at h
    split at h
    · next m next alive =>
      obtain ⟨d, hd, rfl⟩ := Option.map_eq_some_iff.mp h
      exact .read next alive hd
    · cases h
  | work x job =>
    rw [move] at h
    split at h
    · next p process =>
      obtain ⟨⟨q, out⟩, hq, rfl⟩ := Option.map_eq_some_iff.mp h
      exact .work process (right p process) hq
    · cases h
  | note x header payload =>
    rw [move, Option.ite_none_right_eq_some] at h
    obtain ⟨idle, h⟩ := h
    cases h
    exact .note idle
  | cut x =>
    cases h
    exact .cut

theorem Reaches.of_run (h : Run (move fuel) (fun c m => m.Right sem c) c d) : Reaches sem c d :=
  Relation.ReflTransGen.mono (fun _ _ ⟨_, right, h⟩ => move_step right h) _ _ h

end Moves

end Cluster

end Smts
