import Smts.Server.Solver

namespace Smts.Server

open Smts.Lib

/-- The argument of `ParallelizationServer.solvers`: `False`, `True`, or a node. -/
inductive Which
  | all
  | busy
  | at (n : Option NodeId)
  deriving DecidableEq

def Which.holds (w : Which) (d : SolverData) : Bool :=
  match w with
  | .all => true
  | .busy => d.node.isSome
  | .at n => d.node = n

namespace State

/-- `ParallelizationServer.solvers`, in no particular order. -/
def solvers (s : State) (w : Which) : List SockId :=
  s.rlist.filter fun x => s.kind x = .solver && w.holds (s.solver x)

def newlyJointSolver (s : State) : List SockId :=
  s.rlist.filter fun x =>
    s.kind x = .solver && ((s.solver x).node = none && (s.solver x).started = none)

def root (s : State) (i : InstId) : NodeId := (s.inst i).root

end State

/-- `d` counts as true in Python: it is neither `None` nor zero. -/
def truthy (d : Option Time) : Option Time := d.filter (· ≠ 0)

/-- Python's `round`: to the nearest multiple of the unit, ties to the even one. -/
def roundTo (unit t : Time) : Time :=
  let q := t / unit
  let r := t % unit
  if 2 * r < unit ∨ (2 * r = unit ∧ q % 2 = 0) then q * unit else (q + 1) * unit

/-- `config.entrust`: the parameters of a solver, chosen by its name and by how
many solvers work on the node. -/
def configEntrust (solverName : String) (workers : Nat) : M Header := do
  let s ← get
  let fixed ← foldEach (fun (h : Header) e => do
    let key := e.1.toList
    if '.' ∈ key ∧ String.ofList (key.takeWhile (· ≠ '.')) = solverName then do
      let value ← match e.2 with
        | .text v => pure v
        | .random => do pure (toString (← random))
      let parameter := String.ofList ((key.dropWhile (· ≠ '.')).drop 1)
      pure (h.set ("parameter." ++ parameter) value)
    else pure h) [] s.config.parameters
  let spacer : List Header :=
    [[("-p", "def"), ("parameter.fp.spacer.push_pob", "true"),
        ("parameter.fp.spacer.reset_pob_queue", "false")],
      [("-p", "ic3"), ("parameter.fp.spacer.push_pob", "true")],
      [("parameter.fp.spacer.gpdr", "true"), ("-p", "newgpdr")],
      [("-p", "gpdr")]]
  let sallyLra := [(0, "0"), (1, "2"), (2, "4")]
  if solverName = "Spacer" then
    return Header.update fixed (spacer.getD (workers % 4) [])
  else if solverName = "SALLY" then
    return Header.update fixed
      [("parameter.opensmt2-itp-lra", (sallyLra.lookup (workers % 3)).getD "0"),
        ("parameter.opensmt2-itp-bool", toString (workers % 2))]
  else return fixed

/-- `Instance.when_timeout`, `none` standing for infinity. -/
def whenTimeout (i : InstId) : M (Option Time) := do
  let s ← get
  match truthy (s.inst i).started, (s.inst i).timeout with
  | some started, some timeout => do return some (started + timeout - (← now))
  | _, _ => return none

def lemmaServer : M (Option SockId) := do
  let s ← get
  return (← inOrder (s.rlist.filter fun x => s.kind x = .lemmaServer)).head?

def solvers (w : Which) : M (List SockId) := do
  let s ← get
  inOrder (s.solvers w)

/-- `LemmaServer.reset`. -/
def resetLemmas (self : SockId) (root : NodeId) : M Unit := do
  let s ← get
  write self [(Constant.name, (s.heap.label root).name), (Constant.node, render (s.heap.path root)),
    (Constant.lemmas, "0")] "" (some root)

def levelChildren (level : Nat) : M Nat := do
  let s ← get
  match s.config.partitionPolicy[level % s.config.partitionPolicy.length]? with
  | some k => return k
  | none => raise .zeroDivisionError

/-- The solvers whose node is in the tree of `root`.  A solver without a node
has no `root` to ask for. -/
def solversOn (root : NodeId) : M (List SockId) := do
  let xs ← solvers .all
  let s ← get
  if ∃ x ∈ xs, (s.solver x).node = none then raise .attributeError
  else inOrder (xs.filter fun x => (s.solver x).node.any fun n => s.heap.root n = root)

/-- The report of an instance that ran out of time while its root waits for
partitions.  The result tells whether `entrust` returns there. -/
def stuck (i : InstId) : M Bool := do
  let s ← get
  let root := s.root i
  if (s.heap.attrs root).partitioning then do
    let childs ← ofExcept (s.heap.childeren root)
    if childs = [] ∧ s.terminate = false then do
      print (.stuck (s.heap.label root).name)
      forEach Solver.terminate (← solvers .all)
      modify fun s => { s with terminate := true }
      return true
    else return false
  else return false

def release (i : InstId) : M Unit := do
  let s ← get
  forEach Solver.stop (← solversOn (s.root i))
  match ← lemmaServer with
  | some l => resetLemmas l (s.root i)
  | none => pure ()
  modify fun s => { s with current := none, idleSolvers := [] }

def printResult (i : InstId) : M Unit := do
  let s ← get
  let name := (s.heap.label (s.root i)).name
  let t ← now
  match (s.inst i).started with
  | none => raise .typeError
  | some started =>
    let runtime := roundTo (second / 100) (t - started)
    if s.config.enableLog = false then do
      print (.verdict i (s.heap.status (s.root i))
        (if s.config.printFilename then some name else none)
        (if s.config.printRuntime then some runtime else none))
      if (s.trees.lookup name).isSome then
        modify fun s => { s with trees := s.trees.filter fun e => e.1 ≠ name }
      else raise .keyError
    else print (.log name)

def conclude (i : InstId) : M Bool := do
  let s ← get
  let returned ←
    if s.heap.status (s.root i) = .unknown then do
      if ← stuck i then pure true
      else do
        when (s.config.spitPreference = true) (raise .attributeError)
        pure false
    else pure false
  if returned then return true
  else do
    printResult i
    release i
    return false

def isOver (i : InstId) : M Bool := do
  let s ← get
  if s.heap.status (s.root i) ≠ .unknown then return true
  else return (← whenTimeout i).any (· < 0)

def startSolver (i : InstId) (x : SockId) : M Unit := do
  let s ← get
  let parameters ← configEntrust (s.solver x).name (s.solvers (.at (some (s.root i)))).length
  modify fun s => { s with counter := s.counter + 1 }
  let s ← get
  Solver.solve x (s.root i) (parameters.set "parameter.seed" (toString s.counter))
  let s ← get
  when ((s.inst i).started = none) do
    let t ← now
    modifyInst i fun d => { d with started := some t }

/-- The instances that may be solved next, in the order of `trees`. -/
def schedulables : M (List InstId) := do
  let s ← get
  foldEach (fun acc e => do
    let s ← get
    if s.heap.status (s.root e.2) = .unknown then do
      match ← whenTimeout e.2 with
      | none => pure (acc ++ [e.2])
      | some t => pure (if 0 < t then acc ++ [e.2] else acc)
    else pure acc) [] s.trees

def startNext : M Bool := do
  match ← schedulables with
  | [] => return false
  | i :: _ => do
    modify fun s => { s with current := some i }
    modify fun s => { s with totalSolvers := (s.solvers .all).length }
    forEach (fun x => do
      startSolver i x
      modifyConfig fun c => { c with partitionCount := 0 }) (← solvers (.at none))
    return true

def welcome (i : InstId) : M Unit := do
  let s ← get
  forEach (fun x => do
    modify fun s => { s with totalSolvers := s.totalSolvers + 1 }
    startSolver i x) (← inOrder s.newlyJointSolver)

def closeServer : M Unit := do
  let s ← get
  forEach (fun x => do
    modify fun s => { s with rlist := s.rlist.filter (· ≠ x) }
    closeSocket x) (← inOrder s.rlist)

def allDone (solving : Option InstId) : M Unit := do
  let s ← get
  when (solving ≠ none) do
    when (s.config.idleQuit = true) do
      when (∀ x ∈ s.rlist, s.kind x = .raw → x = 0) do
        closeServer
        raise .systemExit

structure Pass where
  solved : List SockId := []
  toPartition : Option NodeId := none
  solverPartition : Bool := false

/-- A solver leaves its solved node: it is taken from the idle list, or else no
longer counted as working on a partition. -/
def collectSolver (acc : List SockId) (x : SockId) : M (List SockId) := do
  let s ← get
  if x ∈ s.idleSolvers then modify fun s => { s with idleSolvers := s.idleSolvers.erase x }
  else modifyConfig fun c => { c with partitionCount := c.partitionCount - 1 }
  return if x ∈ acc then acc else acc ++ [x]

def addIdle (counted : Bool) (x : SockId) : M Unit := do
  let s ← get
  when (x ∉ s.idleSolvers) do
    modify fun s => { s with idleSolvers := s.idleSolvers ++ [x] }
    when (counted = true) (modifyConfig fun c => { c with partitionCount := c.partitionCount - 1 })

def collectAt (n : NodeId) (solved : List SockId) : M (List SockId) := do
  modifyNode n fun a => { a with processed := true }
  foldEach collectSolver solved (← solvers (.at (some n)))

def passUnsat (n : NodeId) (solved : List SockId) : M (List SockId) := do
  let s ← get
  let solved ← match (s.heap.truthyParent n).bind s.heap.parent with
    | none => pure solved
    | some g =>
      if s.heap.status g = .unknown then do
        let solved ← foldEach collectSolver solved (← solvers (.at (some g)))
        modifyNode g fun a => { a with processed := true }
        pure solved
      else pure solved
  collectAt n solved

/-- The solvers of a node with partitions become idle. -/
def retire (n : NodeId) (counted : Bool) : M Unit := do
  forEach (addIdle counted) (← solvers (.at (some n)))
  modifyNode n fun a => { a with processed := true }
  modifyNode n fun a => { a with isTimeout := true }

/-- Those of a node without partitions, the first time that its time is up. -/
def suspend (n : NodeId) : M Unit := do
  forEach (addIdle true) (← solvers (.at (some n)))
  modifyNode n fun a => { a with assumedTimout := true }

def passTimeout (n : NodeId) : M Unit := do
  let s ← get
  let split ←
    if (s.heap.attrs n).partitioning then
      match s.heap.children n with
      | [] => raise .indexError
      | o :: _ => pure (decide (s.heap.children o ≠ []))
    else pure false
  if split then retire n (!(s.heap.attrs n).assumedTimout)
  else when ((s.heap.attrs n).assumedTimout = false) (suspend n)

def chooseNodeTimeout (i : InstId) : M Unit := do
  let s ← get
  let t ← now
  match (s.heap.attrs (s.root i)).started with
  | none => raise .typeError
  | some started =>
    if roundTo second (t - started) < 60 * second then
      modifyConfig fun c => { c with nodeTimeout := some (60 * second) }
    else do
      let t ← now
      modifyConfig fun c => { c with nodeTimeout := some (roundTo second (t - started + 5 * second)) }

def timedOut (n : NodeId) : M Bool := do
  let s ← get
  match truthy s.config.nodeTimeout, truthy (s.heap.attrs n).started with
  | some limit, some started => do return decide (started + limit ≤ (← now))
  | _, _ => return false

def aim (acc : Pass) (n : NodeId) (solved : List SockId) : M Pass := do
  let s ← get
  let a := s.heap.attrs n
  if a.partitioning = false ∧ a.processed = false ∧ s.heap.len n = 0 ∧ acc.toPartition = none then
    return { solved := solved, toPartition := some n
             solverPartition := decide (s.solvers (.at (some n)) = []) && a.assumedTimout }
  else return { acc with solved := solved }

def passNode (i : InstId) (acc : Pass) (n : NodeId) : M Pass := do
  let s ← get
  if s.heap.isAnd n ∧ (s.heap.attrs n).processed = false then do
    when (s.heap.status n = .sat) (raise .assertionError)
    let solved ←
      if s.heap.status n = .unsat then passUnsat n acc.solved
      else do
        if ← timedOut n then passTimeout n
        else do
          let s ← get
          when (truthy s.config.nodeTimeout = none ∧ s.heap.len n = 0 ∧
            (s.solvers (.at (some n))).length = 1) (chooseNodeTimeout i)
        pure acc.solved
    aim acc n solved
  else return acc

/-- `all_active_nodes`. -/
def State.activeNodes (s : State) (nodes : List NodeId) : List NodeId :=
  nodes.filter fun n =>
    s.heap.status n = .unknown && s.heap.isAnd n && !(s.heap.attrs n).processed

def relocateTo (solved : List SockId) (child : NodeId) : M (List SockId) := do
  let s ← get
  let active := (s.activeNodes (s.heap.all child)).insertionSort fun a b =>
    (s.solvers (.at (some a))).length ≤ (s.solvers (.at (some b))).length
  match active with
  | [] => return solved
  | n :: _ => do
    match ← inOrder solved with
    | [] => return []
    | x :: rest => do
      Solver.incremental x n
      return rest

/-- The relocation of the solvers of solved nodes. -/
def relocate (fuel : Nat) (i : InstId) (solved : List SockId) : M Unit := do
  let s ← get
  when (solved ≠ []) do
    let childs ← ofExcept (s.heap.childeren (s.root i))
    Prog.whileNonempty .noFuel (fun solved => foldEach relocateTo solved childs) fuel solved

/-- `header['partition_recieved']`: the node set by `Solver.read`, or a text that
came with the message. -/
inductive PNode
  | node (n : NodeId)
  | text
  deriving DecidableEq

/-- The solvers a node can spare: those that are not idle, while more than
`portfolio_min` are left. -/
def spare (portfolioMin : Int) (idle : List SockId) : Int → List SockId → List SockId
  | _, [] => []
  | counter, x :: xs =>
    if 0 ≤ portfolioMin ∧ portfolioMin < counter ∧ x ∉ idle then
      x :: spare portfolioMin idle (counter - 1) xs
    else spare portfolioMin idle counter xs

def movableSolvers (p : PNode) : M (List SockId) := do
  let s ← get
  if s.config.portfolioMin ≠ 0 then
    match p with
    | .text => raise .attributeError
    | .node n =>
      foldEach (fun acc m => do
        let xs ← solvers (.at (some m))
        let s ← get
        return acc ++ spare s.config.portfolioMin s.idleSolvers xs.length xs) []
        (s.heap.pathToNode n)
  else solvers .busy

def PNode.childeren (h : Heap) : PNode → Except Exn (List NodeId)
  | .node n => h.childeren n
  | .text => .error .attributeError

def dealOne (movable : List SockId) (n : NodeId) : M (List SockId) :=
  match movable with
  | [] => pure []
  | x :: rest => do
    Solver.incremental x n
    pure rest

def spreadRound (p : PNode) (movable : List SockId) : M (List SockId) := do
  let s ← get
  foldEach dealOne movable (← ofExcept (p.childeren s.heap))

def spread (fuel : Nat) (p : PNode) : M Unit := do
  Prog.whileNonempty .noFuel (spreadRound p) fuel (← movableSolvers p)

/-- `un_attempted_active_leaves`, for one node. -/
def State.unAttempted (s : State) (n : NodeId) : Bool :=
  s.heap.len n = 0 && s.heap.status n = .unknown && (s.heap.attrs n).started = none &&
    s.heap.isAnd n && !(s.heap.attrs n).processed

def pickIdle (leaf : NodeId) : List SockId → M (Option SockId)
  | [] => pure none
  | x :: xs => do
    let s ← get
    match (s.solver x).node with
    | none => raise .typeError
    | some n =>
      if s.heap.root n ≠ s.heap.root leaf then raise .valueError
      else if s.heap.isAncestor n leaf then return some x
      else if s.heap.len n = 0 ∧ (s.heap.attrs n).assumedTimout = true ∧
          (s.heap.attrs leaf).isTimeout = false ∧ s.solvers (.at (some leaf)) = [] ∧ n ≠ leaf then
        return some x
      else pickIdle leaf xs

def reassignTo (leaf : NodeId) : M Unit := do
  let s ← get
  when (s.unAttempted leaf = true ∧ s.idleSolvers ≠ []) do
    match ← pickIdle leaf s.idleSolvers with
    | none => pure ()
    | some x => do
      modify fun s => { s with idleSolvers := s.idleSolvers.erase x }
      Solver.incremental x leaf

/-- The sort key of the idle solvers: the text of the path, cut to the length of
the solver's own, is the same. -/
def samePrefix (h : Heap) (target n : NodeId) : Bool :=
  let own := (render (h.path n)).toList
  let cut := fun (text : List Char) => (text.take (own.length - 1)).drop 1
  cut (render (h.path target)).toList = cut own

def sendIdle (target : NodeId) : M Unit := do
  let s ← get
  if ∃ x ∈ s.idleSolvers, (s.solver x).node = none then raise .attributeError
  else do
    let near := fun x => (s.solver x).node.any fun n => samePrefix s.heap target n
    modify fun s => { s with
      idleSolvers := s.idleSolvers.filter near ++ s.idleSolvers.filter fun x => !near x }
    let s ← get
    match s.idleSolvers with
    | [] => pure ()
    | x :: _ =>
      when ((s.solver x).orWaiting = []) do
        Solver.incremental x target
        modify fun s => { s with idleSolvers := s.idleSolvers.erase x }

def reassign (nodes : List NodeId) (pass : Pass) : M Unit := do
  let s ← get
  when (s.idleSolvers ≠ []) do
    forEach reassignTo nodes
    let s ← get
    when (s.totalSolvers < s.idleSolvers.length) (raise .assertionError)
    match pass.toPartition with
    | some target =>
      when (pass.solverPartition = true ∧ s.idleSolvers ≠ []) (sendIdle target)
    | none => pure ()

/-- The inner loop of `partition`: the first solver that has worked long enough
is asked. -/
def askFirst (n : NodeId) : List SockId → M Bool
  | [] => pure false
  | x :: xs => do
    let s ← get
    match (s.solver x).started, s.config.partitionTimeout with
    | some started, some limit => do
      if started + limit ≤ (← now) then do
        Solver.askPartitions x (← levelChildren (s.heap.level n + 1))
        return true
      else askFirst n xs
    | _, _ => raise .typeError

def partitionLoop (n : NodeId) : Nat → M Bool
  | 0 => pure false
  | k + 1 => do
    if ← askFirst n (← solvers (.at (some n))) then return true
    else partitionLoop n k

/-- `ParallelizationServer.partition`, not forced. -/
def partition (n : NodeId) : M Bool := do
  let s ← get
  let maxChildren ← levelChildren (s.heap.level n)
  partitionLoop n (maxChildren - s.heap.len n)

/-- With partitioning on, `entrust` first passes over the nodes and relocates the
solvers of solved ones. -/
def survey (fuel : Nat) (i : InstId) : M (List NodeId × Pass) := do
  let s ← get
  let nodes := s.heap.sortByLevel (s.heap.all (s.root i))
  let pass ← foldEach (passNode i) {} nodes
  relocate fuel i pass.solved
  return (nodes, pass)

def request (i : InstId) (pass : Pass) : M Unit := do
  let s ← get
  if (s.heap.label (s.root i)).cls = .smt then
    match pass.toPartition with
    | some n => when (s.config.partitionCount < s.totalSolvers) do
        let _ ← partition n
    | none => pure ()
  else pure ()

def redistribute (i : InstId) (nodes : List NodeId) (pass : Pass) : M Unit := do
  reassign nodes pass
  request i pass

def distribute (fuel : Nat) (i : InstId) (p : Option PNode) (nodes : List NodeId) (pass : Pass) :
    M Unit := do
  match p with
  | some p => spread fuel p
  | none => pure ()
  redistribute i nodes pass

/-- The current instance is given up when it is over.  The result tells whether `entrust` returns
there. -/
def settle : Option InstId → M Bool
  | some i => do
    if ← isOver i then conclude i else pure false
  | none => pure false

def proceed (solving : Option InstId) (returned : Bool) : M (Option InstId) := do
  if returned then return none
  else do
    match ← gets State.current with
    | none => do
      if ← startNext then pure () else allDone solving
      return none
    | some i => do
      welcome i
      let s ← get
      return if truthy s.config.partitionTimeout ≠ none then some i else none

/-- The beginning of `entrust`.  The result is the instance to go on with. -/
def attend : M (Option InstId) := do
  let solving ← gets State.current
  proceed solving (← settle solving)

def entrust (fuel : Nat) (p : Option PNode) : M Unit := do
  match ← attend with
  | none => pure ()
  | some i => do
    let (nodes, pass) ← survey fuel i
    distribute fuel i p nodes pass

end Smts.Server
