import Smts.Server.State

namespace Smts.Server

open Smts.Lib

namespace Solver

/-- `Solver._reset`. -/
def reset (d : SolverData) : SolverData :=
  { d with node := none, started := none, orWaiting := [], parameters := [] }

/-- The header of a command about a node. -/
def header (s : State) (command : String) (n : NodeId) : Header :=
  [(Constant.command, command),
    (Constant.name, (s.heap.label (s.heap.root n)).name),
    (Constant.node, render (s.heap.path n))]

def stop (self : SockId) : M Unit := do
  let s ← get
  match (s.solver self).node with
  | none => raise .valueError
  | some n =>
    modifySolver self reset
    write self (header s Constant.stop n) "" (some n)

def terminate (self : SockId) : M Unit := do
  let s ← get
  match (s.solver self).node with
  | none => raise .valueError
  | some n => write self (header s Constant.terminate n) "" (some n)

/-- `if self.node.started is None: self.node.started = time.time()`. -/
def markStarted (n : NodeId) : M Unit := do
  let s ← get
  when ((s.heap.attrs n).started = none) do
    let t ← now
    modifyNode n fun a => { a with started := some t }

/-- `solve` for a solver that is free. -/
def assign (self : SockId) (node : NodeId) (parameters : Header) : M Unit := do
  modifySolver self fun d => { d with node := some node, parameters := parameters }
  let s ← get
  let (smt, query) ← ofExcept (s.heap.toString (s.heap.root node) node none)
  let parameters := Header.update parameters (header s Constant.solve node ++
    [(Constant.query, query), (Constant.maxMemory, toString s.config.maxMemory)])
  write self parameters smt (some node)
  let t ← now
  modifySolver self fun d => { d with started := some t }
  markStarted node

def solve (self : SockId) (node : NodeId) (parameters : Header) : M Unit := do
  let s ← get
  when ((s.solver self).node ≠ none) (stop self)
  assign self node parameters

def incremental (self : SockId) (node : NodeId) : M Unit := do
  let s ← get
  match (s.solver self).node with
  | none => raise .attributeError
  | some n =>
    let (smt, query) ← ofExcept (s.heap.toString (s.heap.root n) node (some n))
    write self (header s Constant.incremental n ++
      [(Constant.node_, render (s.heap.path node)), (Constant.query, query)]) smt (some node)
    modifySolver self fun d => { d with orWaiting := [] }
    let t ← now
    modifySolver self fun d => { d with started := some t }
    markStarted node
    modifySolver self fun d => { d with node := some node }

def setLemmaServer (self : SockId) (lemmaServer : Option SockId) : M Unit := do
  let s ← get
  let c := s.config
  write self
    [(Constant.command, Constant.lemmas),
      (Constant.lemmaAmount, if c.lemmaAmount = 0 then "1000" else toString c.lemmaAmount),
      (Constant.lemmas, (lemmaServer.map s.listening).getD ""),
      (Constant.lemmaPushMin, toString c.lemmaPushTimeoutMin),
      (Constant.lemmaPullMin, toString c.lemmaPullTimeoutMin),
      (Constant.lemmaPushMax, toString c.lemmaPushTimeoutMax),
      (Constant.lemmaPullMax, toString c.lemmaPullTimeoutMax)] "" none

/-- `Solver.ask_partitions`, as it is called: without a node of its own, so that
the request gets a fresh OR node. -/
def askPartitions (self : SockId) (n : Nat) : M Unit := do
  modifyConfig fun c => { c with partitionCount := c.partitionCount + n }
  let s ← get
  match (s.solver self).node with
  | none => raise .valueError
  | some node =>
    write self (header s Constant.partition node ++
      [(Constant.query, Constant.checkSat), (Constant.partitions, toString n)]) "" (some node)
    let s ← get
    let (o, h) ← ofExcept (s.heap.newOr node)
    modify fun s => { s with heap := h }
    modifyNode node fun a => { a with partitioning := true }
    modifySolver self fun d => { d with orWaiting := d.orWaiting ++ [o] }

/-- A message after `Solver.read`.  `partitionRecieved` is the entry that `read`
adds to the header for the node whose partitions have arrived. -/
structure Received where
  header : Header := []
  payload : Payload := some ""
  partitionRecieved : Option NodeId := none

/-- The non-empty pieces of a partition reply. -/
def pieces (payload : String) : List String :=
  ((payload.toList.splitOn '\x00').map String.ofList).filter fun p => p ≠ ""

def assertText (partition : String) : String := "(assert " ++ partition ++ ")"

/-- Fewer or more partitions than asked for. -/
def recount (o : NodeId) : M Unit := do
  let s ← get
  match s.config.partitionPolicy[1]? with
  | none => raise .indexError
  | some k =>
    when (s.heap.len o ≠ k) (modifyConfig fun c =>
      { c with partitionCount := c.partitionCount - k + s.heap.len o })

/-- The branch of `read` for a partition reply. -/
def readPartitions (self : SockId) (header : Header) (payload : Payload) : M Received := do
  let s ← get
  let waiting := (s.solver self).orWaiting
  match waiting.getLast? with
  | none => return { header := header, payload := payload }
  | some o =>
    modifySolver self fun d => { d with orWaiting := waiting.dropLast }
    let (failed, h) := match payload with
      | none => (some Exn.unicodeError, s.heap)
      | some text => s.heap.addAnds o ((pieces text).map assertText)
    match failed with
    | some _ =>
      modifyHeap fun _ => h.clear o
      return {
        header := header.set Constant.report "error:(server) error reading partitions: "
        payload := payload }
    | none =>
      modifyHeap fun _ => h
      let header := header.set Constant.report
        ("info:(server) received " ++ toString (h.len o) ++ " partitions")
      match h.parent o with
      | none => raise .attributeError
      | some p =>
        when (h.status p ≠ .unknown) (modifyHeap fun h => h.clear o)
        recount o
        return { header := header, payload := payload, partitionRecieved := some p }

/-- The branch of `read` for a status report. -/
def readStatus (self : SockId) (n : NodeId) (status : SolveStatus) : M Unit := do
  modifySolver self fun d => { d with orWaiting := d.orWaiting.dropLast }
  modifyHeap fun h => h.setStatus n status
  when (status = .unsat) do
    let h ← gets State.heap
    forEach (fun child => do
      let h ← gets State.heap
      when (h.status child = .unknown ∧ h.isAnd child) (modifyHeap fun h => h.setStatus child .unsat))
      (h.all n)

/-- `Solver.read` on a message that has arrived. -/
def read (self : SockId) (header : Header) (payload : Payload) : M Received := do
  let s ← get
  match header.lookup Constant.report with
  | none => return {}
  | some report =>
    match (s.solver self).node, header.lookup Constant.name, header.lookup Constant.node with
    | some n, some name, some path =>
      if (s.heap.label (s.heap.root n)).name ≠ name ∨ render (s.heap.path n) ≠ path then return {}
      else
        let header := header.erase Constant.name
        if report = Constant.partitions ∧ (s.solver self).orWaiting ≠ [] then
          readPartitions self header payload
        else
          match SolveStatus.ofName? report with
          | none => return { header := header, payload := payload }
          | some status => do
            readStatus self n status
            return { header := header, payload := payload }
    | _, _, _ => return { header := header, payload := payload }

end Solver

end Smts.Server
