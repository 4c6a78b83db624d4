import Smts.Server.Schedular

namespace Smts.Server

open Smts.Lib Smts.Lib.Prog

/-- `s.find(pattern) > 0`: the pattern occurs, and the text does not begin with it. -/
def occursLater (pattern s : List Char) : Bool :=
  !pattern.isPrefixOf s && s.tails.any pattern.isPrefixOf

/-- `framework.parse`.  The new root is entered in the heap unless the
constructor of the instance raises. -/
def parse (env : Env) (h : Heap) (name smt : String) : Option (NodeId × Heap) :=
  if ".mcmt".toList.isSuffixOf name.toList then
    some (h.addRoot { cls := .mcmt, smt := smt, name := name })
  else if occursLater "(query ".toList smt.toList then
    (env.horn smt).map fun p =>
      h.addRoot { cls := .fixedpoint, smt := p.smt, name := name, query := p.query }
  else some (h.addRoot { cls := .smt, smt := smt, name := name })

/-- `Fixedpoint.partition`, as far as the tree is concerned. -/
def fixedpointPartition (p : HornScript) (root : NodeId) (h : Heap) : Option Exn × Heap :=
  match h.newOr root p.rewritten with
  | .error e => (some e, h)
  | .ok (o, h) => h.addAnds o (p.queries.map fun q => "(query " ++ q ++ ")")

/-- The branch of `handle_message` for the command `solve` of a client. -/
def submit (name : String) (payload : Payload) : M Unit := do
  let s ← get
  match payload.bind fun text => (parse s.world.env s.heap name text).map (text, ·) with
  | none => print (.log "cannot add instance")
  | some (text, root, h) => do
    let i := s.nextInst
    modify fun s => { s with
      heap := h
      inst := Function.update s.inst i { root := root, timeout := s.config.solvingTimeout }
      nextInst := i + 1
      trees := if (s.trees.lookup name).isSome then
          s.trees.map fun e => if e.1 = name then (name, i) else e
        else s.trees ++ [(name, i)] }
    when ((h.label root).cls = .fixedpoint ∧ s.config.fixedpointPartition = true) do
      match s.world.env.horn text with
      | none => pure ()
      | some p => do
        let (failed, h) := fixedpointPartition p root h
        modifyHeap fun _ => h
        when (failed ≠ none) (print (.log "cannot add instance"))

/-- The branch of `handle_message` for a solver that joins. -/
def join (x : SockId) (name : String) : M Unit := do
  let s ← get
  let y := s.nextSock
  modify fun s => { s with
    nextSock := y + 1
    kind := Function.update s.kind y .solver
    sock := Function.update s.sock y (s.sock x)
    solver := Function.update s.solver y { name := name } }
  when (s.config.enableLog = true) (write y [(Constant.logMode, "1")] "" none)
  if x ∈ s.rlist then
    modify fun s => { s with rlist := s.rlist.filter (· ≠ x) ++ [y] }
  else raise .keyError
  match ← lemmaServer with
  | some l => Solver.setLemmaServer y (some l)
  | none => pure ()

/-- The branch of `handle_message` for a lemma server that joins. -/
def joinLemmaServer (x : SockId) (listening : String) : M Unit := do
  let s ← get
  let address ← match listening.toList with
    | [] => raise .indexError
    | ':' :: _ =>
      match s.sock x with
      | some c => pure (s.remote c ++ listening)
      | none => raise .typeError
    | _ => pure listening
  match ← lemmaServer with
  | some l => closeSocket l
  | none => pure ()
  if x ∈ s.rlist then modify fun s => { s with rlist := s.rlist.filter (· ≠ x) }
  else raise .keyError
  let s ← get
  let y := s.nextSock
  modify fun s => { s with
    nextSock := y + 1
    kind := Function.update s.kind y .lemmaServer
    sock := Function.update s.sock y (s.sock x)
    listening := Function.update s.listening y address }
  write y ((if s.config.enableLog then [(Constant.logMode, "1")] else []) ++
    [(Constant.maxMemory, toString s.config.maxMemory)]) "" none
  modify fun s => { s with rlist := s.rlist ++ [y] }
  forEach (fun z => Solver.setLemmaServer z (some y)) (← solvers .all)

/-- `level, message = report.split(':', 1)`, and whether the level is `ERROR`. -/
def errorReport (report : String) : Option String :=
  let text := report.toList
  if ':' ∈ text ∧ (text.takeWhile (· ≠ ':')).map Char.toUpper = "ERROR".toList then
    some (String.ofList ((text.dropWhile (· ≠ ':')).drop 1))
  else none

/-- The keys of `logging._nameToLevel`. -/
def logLevels : List String :=
  ["CRITICAL", "FATAL", "ERROR", "WARN", "WARNING", "INFO", "DEBUG", "NOTSET"]

/-- The report of a lemma server, which no handler is around. -/
def lemmaReport (report : String) : M Unit := do
  let text := report.toList
  when (':' ∉ text) (raise .valueError)
  when (String.ofList ((text.takeWhile (· ≠ ':')).map Char.toUpper) ∉ logLevels) (raise .keyError)
  when ((errorReport report).isSome) (raise .systemExit)

/-- Such a report changes nothing: it is passed over, or it ends the message. -/
theorem wp_lemmaReport {report : String} {s : State} {Q : Unit → State → Prop}
    {E : Exn → State → Prop} (hQ : Q () s) (hE : ∀ e, e ≠ .noFuel → E e s) :
    wp (lemmaReport report) Q E s := by
  rw [lemmaReport, wp_bind, wp_when]
  refine ⟨fun _ => hE _ (by decide), fun _ => ?_⟩
  rw [wp_bind, wp_when]
  refine ⟨fun _ => hE _ (by decide), fun _ => ?_⟩
  rw [wp_when]
  exact ⟨fun _ => hE _ (by decide), fun _ => hQ⟩

/-- An error report of a solver takes away all the time of the current instance.
The `exit(1)` that follows is caught by the handler around it. -/
def solverError (report : String) : M Unit := do
  let s ← get
  match errorReport report, s.current with
  | some message, some i => do
    modifyInst i fun d => { d with timeout := some 0 }
    print (.error message (s.heap.label (s.root i)).name)
  | _, _ => pure ()

/-- `handle_message` for a solver, after `Solver.read`, up to its call of `entrust`.
Here and below the result is the argument of that call, which always comes last. -/
def handleSolver (r : Solver.Received) : M (Option (Option PNode)) := do
  if r.header = [] ∧ r.partitionRecieved = none then return none
  else do
    match r.header.lookup Constant.report with
    | some report => solverError report
    | none => pure ()
    return some <| match r.partitionRecieved with
      | some n => some (.node n)
      | none => if r.header.has "partition_recieved" then some .text else none

/-- The commands of clients. -/
def handleCommand (command : String) (header : Header) (payload : Payload) :
    M (Option (Option PNode)) := do
  if command = Constant.terminate then do
    closeServer
    return none
  else if command = Constant.solve then
    match header.lookup Constant.name with
    | none => return none
    | some name => do
      submit name payload
      return some none
  else return none

/-- `handle_message` for a client or a lemma server.  Expressions sent to be
evaluated are taken to read only. -/
def handleOther (x : SockId) (header : Header) (payload : Payload) :
    M (Option (Option PNode)) := do
  let s ← get
  let isLemma := s.kind x = .lemmaServer
  if isLemma ∧ header = [] then return none
  else do
    match header.lookup Constant.report with
    | some report => when (isLemma) (lemmaReport report)
    | none => pure ()
    match header.lookup Constant.command with
    | some command => handleCommand command header payload
    | none =>
      match header.lookup Constant.solver with
      | some name => do
        join x name
        return some none
      | none => do
        match header.lookup Constant.lemmas with
        | some listening => joinLemmaServer x listening
        | none => when (header.has Constant.eval = true) (write x [] "" none)
        return none

/-- `handle_close`. -/
def handleClose (x : SockId) : M Unit := do
  let s ← get
  match s.kind x with
  | .solver => attempt (Solver.stop x) fun _ => pure ()
  | .lemmaServer => forEach (fun z => Solver.setLemmaServer z none) (← solvers .all)
  | .raw => pure ()

/-- What `select` can report to the loop. -/
inductive Event
  | timeout
  | accept (remote : String)
  | message (x : SockId) (header : Header) (payload : Payload)
  | closed (x : SockId)

/-- Events are reported for sockets of `_rlist`, and what was closed here reports
nothing any more. -/
def Event.ready (s : State) : Event → Prop
  | .timeout | .accept _ => True
  | .message x _ _ | .closed x => x ∈ s.rlist ∧ x ≠ 0 ∧ (s.sock x).any s.isOpen = true

def accept (remote : String) : M Unit :=
  modify fun s => { s with
    nextSock := s.nextSock + 1
    nextConn := s.nextConn + 1
    kind := Function.update s.kind s.nextSock .raw
    sock := Function.update s.sock s.nextSock (some s.nextConn)
    isOpen := Function.update s.isOpen s.nextConn true
    remote := Function.update s.remote s.nextConn remote
    rlist := s.rlist ++ [s.nextSock] }

def handleMessage (x : SockId) (header : Header) (payload : Payload) :
    M (Option (Option PNode)) := do
  let s ← get
  -- logging decodes the payload, and raises where that fails
  let log := when (s.config.enableLog = true ∧ payload = none) (raise .unicodeError)
  if s.kind x = .solver then do
    let r ← Solver.read x header payload
    log
    handleSolver r
  else do
    log
    handleOther x header payload

/-- A turn of `run_until_timeout` up to its call of `entrust`. -/
def receive : Event → M (Option (Option PNode))
  | .timeout => return some none
  | .accept remote => do
    accept remote
    return none
  | .message x header payload => handleMessage x header payload
  | .closed x => do
    handleClose x
    closeSocket x
    modify fun s => { s with rlist := s.rlist.filter (· ≠ x) }
    return none

/-- One turn of `run_until_timeout`. -/
def handle (fuel : Nat) (ev : Event) : M Unit := do
  match ← receive ev with
  | some p => entrust fuel p
  | none => pure ()

/-- The server at its start: only the listening socket, which is socket `0`. -/
def State.init (env : Env) (config : Config) : State where
  world := { env := env }
  config := config
  sock := fun x => if x = 0 then some 0 else none
  isOpen := fun c => c = 0
  nextSock := 1
  nextConn := 1
  rlist := [0]

/-- The loop handles an event.  Exceptions end the handling and are swallowed,
except for the exit of the server; without sockets the loop ends as well.  A turn
that runs for ever is no step. -/
inductive Step (s : State) (ev : Event) : State → Prop
  | mk {fuel : Nat} {r : Except Exn Unit} {s' : State} (running : s.running = true)
      (ready : ev.ready s) (run : handle fuel ev s = (r, s')) (ends : r ≠ .error .noFuel) :
      Step s ev { s' with running := r ≠ .error .systemExit ∧ s'.rlist ≠ [] }

/-- The loop handles an event, which returns or raises so. -/
inductive Ends (s : State) (ev : Event) (r : Except Exn Unit) : State → Prop
  | mk {fuel : Nat} {s' : State} (running : s.running = true) (ready : ev.ready s)
      (run : handle fuel ev s = (r, s')) (ends : r ≠ .error .noFuel) :
      Ends s ev r { s' with running := r ≠ .error .systemExit ∧ s'.rlist ≠ [] }

theorem Ends.step {s t : State} {ev : Event} {r : Except Exn Unit} (h : Ends s ev r t) :
    Step s ev t := by
  obtain ⟨running, ready, run, ends⟩ := h
  exact .mk running ready run ends

theorem Step.ends {s t : State} {ev : Event} (h : Step s ev t) : ∃ r, Ends s ev r t := by
  obtain ⟨running, ready, run, ends⟩ := h
  exact ⟨_, .mk running ready run ends⟩

end Smts.Server
