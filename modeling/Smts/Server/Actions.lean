import Smts.Server.Loop
import Smts.Server.FrameworkLaws

namespace Smts.Server

open Smts.Lib

/-- The commands that put a solver on a node. -/
def Sent.places (m : Sent) : Bool :=
  m.header.lookup Constant.command = some Constant.solve ||
    m.header.lookup Constant.command = some Constant.incremental

/-- The instances whose verdict has been printed. -/
def Output.verdict? : Output → Option InstId
  | .verdict i .. => some i
  | _ => none

def State.verdicts (s : State) : List InstId := s.out.filterMap Output.verdict?

/-- The trees agree but for the times and the flags about times. -/
structure Heap.Alike (h g : Heap) : Prop where
  forest : g.toForest = h.toForest
  label : g.label = h.label
  status : ∀ n, g.status n = h.status n
  partitioning : ∀ n, (g.attrs n).partitioning = (h.attrs n).partitioning
  processed : ∀ n, (g.attrs n).processed = (h.attrs n).processed

/-- Everything the results below speak of is the same in both states. -/
structure Quiet (s t : State) : Prop where
  env : t.world.env = s.world.env
  portfolioMin : t.config.portfolioMin = s.config.portfolioMin
  enableLog : t.config.enableLog = s.config.enableLog
  heap : s.heap.Alike t.heap
  node : ∀ x, (t.solver x).node = (s.solver x).node
  orWaiting : ∀ x, (t.solver x).orWaiting = (s.solver x).orWaiting
  kind : t.kind = s.kind
  nextSock : t.nextSock = s.nextSock
  rlist : t.rlist = s.rlist
  root : ∀ i, t.root i = s.root i
  nextInst : t.nextInst = s.nextInst
  trees : t.trees = s.trees
  current : t.current = s.current
  idleSolvers : t.idleSolvers = s.idleSolvers
  sent : ∃ l, t.sent = s.sent ++ l ∧ ∀ m ∈ l, m.places = false
  verdicts : t.verdicts = s.verdicts

namespace Heap

/-- The unknown AND nodes of the list become unsat, one after the other. -/
def markUnsat : Heap → List NodeId → Heap
  | h, [] => h
  | h, c :: cs =>
    markUnsat (if h.status c = .unknown ∧ h.isAnd c = true then h.setStatus c .unsat else h) cs

/-- What `Solver.read` makes of a status report. -/
def report (h : Heap) (n : NodeId) (status : SolveStatus) : Heap :=
  let h := h.setStatus n status
  if status = .unsat then h.markUnsat (h.all n) else h

/-- What `Solver.read` makes of a partition reply, `none` for one that is not
text. -/
def reply (h : Heap) (o : NodeId) : Option (List String) → Heap
  | none => h.clear o
  | some ps =>
    match h.addAnds o (ps.map Solver.assertText) with
    | (some _, g) => g.clear o
    | (none, g) =>
      match g.parent o with
      | none => g
      | some p => if g.status p = .unknown then g else g.clear o

/-- What `Solver.ask_partitions` makes of a tree. -/
def ask (h : Heap) (n : NodeId) : Heap :=
  match h.newOr n with
  | .ok (_, g) => g.modify n fun a => { a with partitioning := true }
  | .error _ => h

end Heap

/-- What the server does, in terms of solvers, trees and instances. -/
inductive Act
  | quiet
  | solve (x : SockId) (n : NodeId) (m : Option Sent)
  | move (x : SockId) (n : NodeId) (m : Sent)
  | leave (x : SockId)
  | ask (x : SockId) (n : NodeId)
  | report (x : SockId) (n : NodeId) (status : SolveStatus)
  | reply (x : SockId) (o : NodeId) (partitions : Option (List String))
  | process (n : NodeId)
  | idleAdd (x : SockId)
  | idleDrop (x : SockId)
  | idleSort (l : List SockId)
  | start (i : InstId)
  | conclude (i : InstId) (shown : Bool)
  | verdict (i : InstId)
  | drop (name : String)
  | submit (name : String) (l : Label)
  | split (root : NodeId) (p : HornScript)
  | create (k : Kind) (name : String)
  | enlist (x : SockId)
  | delist (x : SockId)
  | shut (x : SockId)

namespace State

def modifySolver (s : State) (x : SockId) (f : SolverData → SolverData) : State :=
  { s with solver := Function.update s.solver x (f (s.solver x)) }

/-- The entry of a verdict without the details of the line. -/
def print (s : State) (i : InstId) : State :=
  { s with out := s.out ++ [.verdict i .unknown none none] }

def name (s : State) (i : InstId) : String := (s.heap.label (s.root i)).name

/-- The instance is over: its solvers are stopped and nobody is idle. -/
def conclude (s : State) (i : InstId) (shown : Bool) : State :=
  { s with
    out := if shown then s.out ++ [.verdict i .unknown none none] else s.out
    trees := if shown then s.trees.filter fun e => e.1 ≠ s.name i else s.trees
    solver := fun x =>
      if x ∈ s.rlist ∧ s.kind x = .solver then Solver.reset (s.solver x) else s.solver x
    current := none
    idleSolvers := [] }

def submit (s : State) (name : String) (l : Label) : State :=
  { s with
    heap := (s.heap.addRoot l).2
    inst := Function.update s.inst s.nextInst { root := s.heap.size }
    nextInst := s.nextInst + 1
    trees := if (s.trees.lookup name).isSome then
        s.trees.map fun e => if e.1 = name then (name, s.nextInst) else e
      else s.trees ++ [(name, s.nextInst)] }

def create (s : State) (k : Kind) (name : String) : State :=
  { s with
    nextSock := s.nextSock + 1
    kind := Function.update s.kind s.nextSock k
    solver := if k = .solver then Function.update s.solver s.nextSock { name := name }
      else s.solver }

end State

/-- The state after an action, up to what `Quiet` leaves open. -/
def Act.apply : Act → State → State
  | .quiet, s => s
  | .solve x n m, s =>
    { s.modifySolver x fun d => { d with node := some n } with sent := s.sent ++ m.toList }
  | .move x n m, s =>
    { s.modifySolver x fun d => { d with node := some n, orWaiting := [] } with
      sent := s.sent ++ [m] }
  | .leave x, s => s.modifySolver x Solver.reset
  | .ask x n, s =>
    { s.modifySolver x fun d => { d with orWaiting := d.orWaiting ++ [s.heap.size] } with
      heap := s.heap.ask n }
  | .report x n status, s =>
    { s.modifySolver x fun d => { d with orWaiting := d.orWaiting.dropLast } with
      heap := s.heap.report n status }
  | .reply x o partitions, s =>
    { s.modifySolver x fun d => { d with orWaiting := d.orWaiting.dropLast } with
      heap := s.heap.reply o partitions }
  | .process n, s => { s with heap := s.heap.modify n fun a => { a with processed := true } }
  | .idleAdd x, s => { s with idleSolvers := s.idleSolvers ++ [x] }
  | .idleDrop x, s => { s with idleSolvers := s.idleSolvers.erase x }
  | .idleSort l, s => { s with idleSolvers := l }
  | .start i, s => { s with current := some i }
  | .conclude i shown, s => s.conclude i shown
  | .verdict i, s => s.print i
  | .drop name, s => { s with trees := s.trees.filter fun e => e.1 ≠ name }
  | .submit name l, s => s.submit name l
  | .split root p, s => { s with heap := (fixedpointPartition p root s.heap).2 }
  | .create k name, s => s.create k name
  | .enlist x, s => { s with rlist := s.rlist ++ [x] }
  | .delist x, s => { s with rlist := s.rlist.filter (· ≠ x) }
  | .shut x, s => { s with rlist := s.rlist.filter (· ≠ x) }

/-- One action that `G` allows. -/
def Acts (G : Act → State → Prop) (s t : State) : Prop := ∃ a : Act, G a s ∧ Quiet (a.apply s) t

/-- A run of actions, each allowed by `G` where it is taken. -/
def Path (G : Act → State → Prop) : State → State → Prop := Relation.ReflTransGen (Acts G)

theorem Heap.Alike.refl (h : Heap) : h.Alike h :=
  ⟨rfl, rfl, fun _ => rfl, fun _ => rfl, fun _ => rfl⟩

theorem Heap.Alike.trans {h g k : Heap} (hg : h.Alike g) (gk : g.Alike k) : h.Alike k where
  forest := gk.forest.trans hg.forest
  label := gk.label.trans hg.label
  status n := (gk.status n).trans (hg.status n)
  partitioning n := (gk.partitioning n).trans (hg.partitioning n)
  processed n := (gk.processed n).trans (hg.processed n)

theorem Quiet.refl (s : State) : Quiet s s where
  env := rfl
  portfolioMin := rfl
  enableLog := rfl
  heap := .refl _
  node _ := rfl
  orWaiting _ := rfl
  kind := rfl
  nextSock := rfl
  rlist := rfl
  root _ := rfl
  nextInst := rfl
  trees := rfl
  current := rfl
  idleSolvers := rfl
  sent := ⟨[], (List.append_nil _).symm, fun _ hm => absurd hm List.not_mem_nil⟩
  verdicts := rfl

/-- Changes to what `Quiet` does not look at, and to what it compares in part. -/
theorem Quiet.of_rest {s t : State}
    (rest : { t with
      world := s.world, config := s.config, heap := s.heap, solver := s.solver, inst := s.inst
      totalSolvers := s.totalSolvers, terminate := s.terminate, counter := s.counter } = s)
    (env : t.world.env = s.world.env) (portfolioMin : t.config.portfolioMin = s.config.portfolioMin)
    (enableLog : t.config.enableLog = s.config.enableLog) (heap : s.heap.Alike t.heap)
    (node : ∀ x, (t.solver x).node = (s.solver x).node)
    (orWaiting : ∀ x, (t.solver x).orWaiting = (s.solver x).orWaiting)
    (root : ∀ i, t.root i = s.root i) : Quiet s t where
  env := env
  portfolioMin := portfolioMin
  enableLog := enableLog
  heap := heap
  node := node
  orWaiting := orWaiting
  kind := by rw [← rest]
  nextSock := by rw [← rest]
  rlist := by rw [← rest]
  root := root
  nextInst := by rw [← rest]
  trees := by rw [← rest]
  current := by rw [← rest]
  idleSolvers := by rw [← rest]
  sent := ⟨[], by rw [List.append_nil, ← rest], fun _ hm => absurd hm List.not_mem_nil⟩
  verdicts := by rw [State.verdicts, State.verdicts, ← rest]

theorem Quiet.frame (s : State) {w : World} {c : Config} {l : List Sent}
    (env : w.env = s.world.env) (portfolioMin : c.portfolioMin = s.config.portfolioMin)
    (enableLog : c.enableLog = s.config.enableLog) (sent : ∀ m ∈ l, m.places = false) :
    Quiet s { s with world := w, config := c, sent := s.sent ++ l } where
  __ := Quiet.refl s
  env := env
  portfolioMin := portfolioMin
  enableLog := enableLog
  sent := ⟨l, rfl, sent⟩

theorem Quiet.trans {s t u : State} (st : Quiet s t) (tu : Quiet t u) : Quiet s u where
  env := tu.env.trans st.env
  portfolioMin := tu.portfolioMin.trans st.portfolioMin
  enableLog := tu.enableLog.trans st.enableLog
  heap := st.heap.trans tu.heap
  node x := (tu.node x).trans (st.node x)
  orWaiting x := (tu.orWaiting x).trans (st.orWaiting x)
  kind := tu.kind.trans st.kind
  nextSock := tu.nextSock.trans st.nextSock
  rlist := tu.rlist.trans st.rlist
  root i := (tu.root i).trans (st.root i)
  nextInst := tu.nextInst.trans st.nextInst
  trees := tu.trees.trans st.trees
  current := tu.current.trans st.current
  idleSolvers := tu.idleSolvers.trans st.idleSolvers
  sent := by
    obtain ⟨l, hl, hlq⟩ := st.sent
    obtain ⟨r, hr, hrq⟩ := tu.sent
    refine ⟨l ++ r, by rw [hr, hl, List.append_assoc], fun m hm => ?_⟩
    rcases List.mem_append.mp hm with hm | hm
    · exact hlq m hm
    · exact hrq m hm
  verdicts := tu.verdicts.trans st.verdicts

namespace Path

variable {G : Act → State → Prop} {s t u : State}

theorem refl (s : State) : Path G s s := Relation.ReflTransGen.refl

theorem trans (h₁ : Path G s t) (h₂ : Path G t u) : Path G s u :=
  Relation.ReflTransGen.trans h₁ h₂

theorem act (a : Act) (hG : G a s) (h : Quiet (a.apply s) t) : Path G s t :=
  Relation.ReflTransGen.single ⟨a, hG, h⟩

theorem quiet (hG : G .quiet s) (h : Quiet s t) : Path G s t := act .quiet hG h

theorem mono {G' : Act → State → Prop} (h : Path G s t) (hG : ∀ a s, G a s → G' a s) :
    Path G' s t :=
  Relation.ReflTransGen.mono (fun _ _ ⟨a, ha, hq⟩ => ⟨a, hG a _ ha, hq⟩) _ _ h

/-- What quiet changes and single actions keep holds along a whole path. -/
theorem invariant {I : State → Prop} (quiet : ∀ s t, Quiet s t → I s → I t)
    (act : ∀ a s, G a s → I s → I (a.apply s)) (h : Path G s t) (hs : I s) : I t := by
  induction h with
  | refl => exact hs
  | tail _ hstep ih =>
    obtain ⟨a, ha, hq⟩ := hstep
    exact quiet _ _ hq (act a _ ha ih)

end Path

end Smts.Server
