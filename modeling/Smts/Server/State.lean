import Mathlib.Algebra.Ring.Nat
import Smts.Lib.Prog
import Smts.Server.Framework

namespace Smts.Server

open Smts.Lib

/-- Identities of Python socket objects, and of the sockets they wrap. -/
abbrev SockId := Nat
abbrev ConnId := Nat
abbrev InstId := Nat

/-- A `dict` from text to text, in insertion order. -/
abbrev Header := List (String × String)

/-- The text of a payload, `none` for bytes that are not UTF-8. -/
abbrev Payload := Option String

namespace Header

def has (h : Header) (k : String) : Bool := (h.lookup k).isSome

def set (h : Header) (k v : String) : Header :=
  if has h k then h.map fun e => if e.1 = k then (k, v) else e else h ++ [(k, v)]

def update (h : Header) (l : Header) : Header := l.foldl (fun h e => set h e.1 e.2) h

def erase (h : Header) (k : String) : Header := h.filter fun e => e.1 ≠ k

/-- Whether `Socket.write` can pack the message: lengths are sent in one byte
for keys and values and in four bytes for the whole. -/
def fits (h : Header) (payload : String) : Bool :=
  (h.all fun e => e.1 ≠ "" && decide (e.1.utf8ByteSize < 256) && decide (e.2.utf8ByteSize < 256)) &&
    decide ((h.map fun e => e.1.utf8ByteSize + e.2.utf8ByteSize + 2).sum + 1 +
      payload.utf8ByteSize < 2 ^ 32)

end Header

namespace Constant

def command : String := "command"
def solve : String := "solve"
def incremental : String := "incremental"
def partition : String := "partition"
def partitions : String := "partitions"
def solver : String := "solver"
def eval : String := "eval"
def lemmas : String := "lemmas"
def query : String := "query"
def maxMemory : String := "max_memory"
def logMode : String := "enableLog"
def lemmaAmount : String := "lemma_amount"
def stop : String := "stop"
def terminate : String := "terminate"
def lemmaPushMin : String := "lemma_push_min"
def lemmaPullMin : String := "lemma_pull_min"
def lemmaPushMax : String := "lemma_push_max"
def lemmaPullMax : String := "lemma_pull_max"
def report : String := "report"
def node : String := "node"
def node_ : String := "node_"
def name : String := "name"

end Constant

/-- A value of `config.parameters`: a text, or a callable drawing a random number. -/
inductive ParamValue
  | text (v : String)
  | random
  deriving DecidableEq

/-- The module `config`.  Tree drawing (`visualize_tree`) and the checks of
`debug` are off. -/
structure Config where
  portfolioMin : Int := 1
  partitionTimeout : Option Time := some (10 * second)
  nodeTimeout : Option Time := none
  partitionPolicy : List Nat := [1, 2]
  solvingTimeout : Option Time := some (2000 * second)
  maxMemory : Nat := 10000
  lemmaAmount : Nat := 1000
  lemmaPushTimeoutMin : Nat := 15000
  lemmaPushTimeoutMax : Nat := 30000
  lemmaPullTimeoutMin : Nat := 20000
  lemmaPullTimeoutMax : Nat := 40000
  fixedpointPartition : Bool := false
  idleQuit : Bool := true
  printFilename : Bool := false
  printRuntime : Bool := false
  enableLog : Bool := false
  spitPreference : Bool := false
  partitionCount : Int := 0
  parameters : List (String × ParamValue) :=
    [("OpenSMT2.seed", .random), ("OpenSMT2.split-type", .text ":scatter-split"),
      ("Spacer.fp.spacer.random_seed", .random), ("Spacer.fp.spacer.restarts", .text "false"),
      ("Spacer.fp.spacer.p3.share_lemmas", .text "true"),
      ("Spacer.fp.spacer.p3.share_invariants", .text "true"),
      ("Spacer.fp.xform.slice", .text "false"), ("Spacer.fp.xform.inline_linear", .text "false"),
      ("Spacer.fp.xform.inline_eager", .text "false"),
      ("Spacer.fp.xform.tail_simplifier_pve", .text "false"),
      ("Spacer.fp.spacer.elim_aux", .text "false"), ("Spacer.fp.spacer.reach_dnf", .text "false"),
      ("SALLY.opensmt2-random_seed", .random), ("SALLY.pdkind-minimize-frames", .text "true"),
      ("SALLY.pdkind-minimize-interpolants", .text "true"),
      ("SALLY.opensmt2-simplify_itp", .text "2"), ("SALLY.opensmt2-itp-lra", .text "0"),
      ("SALLY.opensmt2-itp-bool", .text "0"), ("SALLY.pdkind-induction-max", .text "0"),
      ("SALLY.share-reachability-lemmas", .text "true"),
      ("SALLY.share-induction-lemmas", .text "true")]

/-- What `Fixedpoint.__init__` and `Fixedpoint.partition` make of a Horn script:
the text before the query, the query, the rewritten script and the new queries. -/
structure HornScript where
  smt : String
  query : String
  rewritten : String
  queries : List String

/-- Everything the server does not decide: the readings of the clock, which
writes succeed, the random seeds, the iteration order of sets, and how Horn
scripts are read (`none` where the constructor raises). -/
structure Env where
  clock : Nat → Time
  writeOk : Nat → Bool
  random : Nat → Nat
  order : Nat → List SockId → List SockId
  order_perm : ∀ k l, (order k l).Perm l
  horn : String → Option HornScript

/-- An environment in which time passes evenly and nothing goes wrong. -/
def Env.steady : Env where
  clock k := k * second
  writeOk _ := true
  random k := k
  order _ l := l
  order_perm _ l := List.Perm.refl l
  horn _ := none

/-- The environment together with how much of it has been used. -/
structure World where
  env : Env
  clockTick : Nat := 0
  writeTick : Nat := 0
  randomTick : Nat := 0
  orderTick : Nat := 0

inductive Kind
  | raw | solver | lemmaServer
  deriving DecidableEq

/-- The attributes a `Solver` adds to its socket. -/
structure SolverData where
  name : String := ""
  node : Option NodeId := none
  started : Option Time := none
  orWaiting : List NodeId := []
  parameters : Header := []

structure Instance where
  root : NodeId
  started : Option Time := none
  timeout : Option Time := none

/-- A message the server has put on a socket.  `about` is the node the command
is for; it is not transmitted. -/
structure Sent where
  sock : SockId
  header : Header
  payload : String
  about : Option NodeId

/-- A line on the standard output. -/
inductive Output
  | verdict (i : InstId) (status : SolveStatus) (filename : Option String) (runtime : Option Time)
  | stuck (name : String)
  | error (message name : String)
  | log (message : String)

structure State where
  world : World
  config : Config := {}
  heap : Heap := Heap.empty
  kind : SockId → Kind := fun _ => .raw
  sock : SockId → Option ConnId := fun _ => none
  listening : SockId → String := fun _ => ""
  solver : SockId → SolverData := fun _ => {}
  isOpen : ConnId → Bool := fun _ => false
  remote : ConnId → String := fun _ => ""
  nextSock : SockId := 0
  nextConn : ConnId := 0
  rlist : List SockId := []
  inst : InstId → Instance := fun _ => { root := 0 }
  nextInst : InstId := 0
  trees : List (String × InstId) := []
  current : Option InstId := none
  idleSolvers : List SockId := []
  totalSolvers : Int := 0
  terminate : Bool := false
  counter : Nat := 75674531
  sent : List Sent := []
  out : List Output := []
  running : Bool := true

abbrev M := Prog State Exn

export Prog (get gets modify raise when forEach foldEach attempt ofExcept)

/-- `time.time()`. -/
def now : M Time := fun s =>
  (.ok (s.world.env.clock s.world.clockTick),
    { s with world := { s.world with clockTick := s.world.clockTick + 1 } })

def random : M Nat := fun s =>
  (.ok (s.world.env.random s.world.randomTick),
    { s with world := { s.world with randomTick := s.world.randomTick + 1 } })

/-- The elements of a set, in the order in which Python happens to visit them. -/
def inOrder (xs : List SockId) : M (List SockId) := fun s =>
  (.ok (s.world.env.order s.world.orderTick xs),
    { s with world := { s.world with orderTick := s.world.orderTick + 1 } })

def print (line : Output) : M Unit := modify fun s => { s with out := s.out ++ [line] }

def modifyHeap (f : Heap → Heap) : M Unit := modify fun s => { s with heap := f s.heap }

def modifyNode (n : NodeId) (f : Attrs → Attrs) : M Unit := modifyHeap fun h => h.modify n f

def modifySolver (x : SockId) (f : SolverData → SolverData) : M Unit :=
  modify fun s => { s with solver := Function.update s.solver x (f (s.solver x)) }

def modifyConfig (f : Config → Config) : M Unit := modify fun s => { s with config := f s.config }

def modifyInst (i : InstId) (f : Instance → Instance) : M Unit :=
  modify fun s => { s with inst := Function.update s.inst i (f (s.inst i)) }

/-- `Socket.write`: the whole message is put on the stream, or an exception is
raised and nothing is. -/
def write (x : SockId) (header : Header) (payload : String) (about : Option NodeId) : M Unit :=
  fun s =>
    match s.sock x with
    | none => (.error .attributeError, s)
    | some c =>
      if header.fits payload then
        let s' := { s with world := { s.world with writeTick := s.world.writeTick + 1 } }
        if s.isOpen c && s.world.env.writeOk s.world.writeTick then
          (.ok (), { s' with sent := s.sent ++ [⟨x, header, payload, about⟩] })
        else (.error .osError, s')
      else (.error .valueError, s)

/-- `Socket.close`. -/
def closeSocket (x : SockId) : M Unit := fun s =>
  match s.sock x with
  | none => (.error .attributeError, s)
  | some c =>
    (.ok (), { s with
      isOpen := Function.update s.isOpen c false
      sock := Function.update s.sock x none })

end Smts.Server
