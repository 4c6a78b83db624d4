import Smts.LemmaServer.Text
import Smts.Server.SolverLaws
import Smts.Server.Turns

namespace Smts.Client

open Smts.Server Smts.Lib Smts.Lib.Prog

/-- What a solver client takes from elsewhere: the reading of a flag, the text of the
parameter `seed`, and whether its solver can read an instance. -/
structure Parts where
  toBool : String → Bool
  seed : Header → String
  parses : Header → Bool

inductive TaskName
  | clausePush | clausePull | clauseLearn | memoryCheck | communication
  deriving DecidableEq

structure PoolTask where
  name : TaskName
  seed : Int := 0
  tdMin : Int := 0
  tdMax : Int := 0
  deriving DecidableEq

/-- A solver client.  Of the socket to the lemma server the address is kept. -/
structure SolverServer where
  running : Bool := true
  logEnabled : Bool := false
  lemmaServerSocket : Option String := none
  lemmaAmount : String := ""
  lemmaPushMin : Int := 0
  lemmaPushMax : Int := 0
  lemmaPullMin : Int := 0
  lemmaPullMax : Int := 0
  seed : Int := 0
  clauseShareMode : Bool := false
  threads : Nat := 1
  tasks : List PoolTask := []
  queue : List Header := []

namespace SolverServer

/-- `std::map::operator[]`, where the entry it may insert is not looked at. -/
def entry (h : Header) (k : String) : String := (h.lookup k).getD ""

/-- `atoi`, whose value beyond an `int` is not specified. -/
def atoi (s : String) : Int :=
  match LemmaServer.stoi (utf8 s) with
  | .ok n => n
  | .error _ => 0

def pushToPool (c : SolverServer) (t : PoolTask) : SolverServer :=
  { c with tasks := c.tasks ++ [t] }

def increase (c : SolverServer) (n : Nat) : SolverServer := { c with threads := c.threads + n }

/-- The socket after `initiate_lemma_server`, every attempt of which succeeds here.  The code reports
an attempt that fails, and keeps the socket it has. -/
def connect (socket : Option String) (address : String) : Option String :=
  if address ≠ "" ∧ socket = none then some address else socket

def initiateLemmaServer (c : SolverServer) (h : Header) : SolverServer :=
  { c with lemmaServerSocket := connect c.lemmaServerSocket (entry h Constant.lemmas) }

def pushLemmaWorkers (c : SolverServer) : SolverServer :=
  ((c.pushToPool ⟨.clausePush, c.seed, c.lemmaPushMin, c.lemmaPushMax⟩).pushToPool
    ⟨.clausePull, c.seed, c.lemmaPullMin, c.lemmaPullMax⟩).pushToPool
    { name := .clauseLearn, seed := 15000 }

def setUpThreadArch (c : SolverServer) (h : Header) : SolverServer :=
  let c := if c.seed ≠ 0 ∧ c.lemmaServerSocket ≠ none then (c.increase 3).pushLemmaWorkers else c
  let c := match h.lookup Constant.maxMemory with
    | none | some "0" => c
    | some m => (c.increase 1).pushToPool { name := .memoryCheck, seed := atoi m }
  (c.increase 1).pushToPool { name := .communication }

/-- `Schedular::queue_event`, followed by the exit on the command `STOP`. -/
def queueEvent (c : SolverServer) (h : Header) : SolverServer :=
  if entry h Constant.command = Constant.stop then
    { c with queue := h :: c.queue, running := false }
  else if entry h Constant.command = Constant.solve then
    { c with queue := c.queue ++ [h.set Constant.command "resume"] }
  else { c with queue := c.queue ++ [h] }

/-- The branch of `handle_event` for the command `LEMMAS`. -/
def handleLemmas (c : SolverServer) (h : Header) : SolverServer :=
  let c : SolverServer := { c with
    lemmaAmount := entry h Constant.lemmaAmount
    lemmaPushMin := atoi (entry h Constant.lemmaPushMin)
    lemmaPushMax := atoi (entry h Constant.lemmaPushMax)
    lemmaPullMin := atoi (entry h Constant.lemmaPullMin)
    lemmaPullMax := atoi (entry h Constant.lemmaPullMax) }
  let c : SolverServer := { c.initiateLemmaServer h with clauseShareMode := true }
  if c.seed ≠ 0 then (c.increase 3).pushLemmaWorkers else c

/-- The branch of `handle_event` for the command `SOLVE`.  An instance that cannot be read
raises, and is not queued. -/
def handleSolve (parts : Parts) (c : SolverServer) (h : Header) : SolverServer :=
  let c : SolverServer := { c with seed := atoi (parts.seed h) }
  if parts.parses h then (c.setUpThreadArch h).queueEvent h else c

/-- `handle_event` on a message of the SMTS server. -/
def handleEvent (parts : Parts) (c : SolverServer) (h : Header) : SolverServer :=
  if c.running = false then c
  else if (h.lookup Constant.logMode).any parts.toBool then { c with logEnabled := true }
  else
    match h.lookup Constant.command with
    | none => c
    | some command =>
      if command = Constant.terminate then { c with running := false }
      else if command = Constant.lemmas then c.handleLemmas h
      else if command = Constant.solve then handleSolve parts c h
      else c.queueEvent h

/-- The address that a message tells the client, if it is a command `LEMMAS`. -/
def told (parts : Parts) (h : Header) : Option String :=
  if (h.lookup Constant.logMode).any parts.toBool then none
  else if h.lookup Constant.command = some Constant.lemmas then some (entry h Constant.lemmas)
  else none

/-- The lemma server a client was last told about. -/
def asked (addresses : List String) : Option String := addresses.getLast?.filter (· ≠ "")

/-- The last command repeats the first address. -/
def Steady (addresses : List String) : Prop :=
  ∀ a, addresses.find? (· ≠ "") = some a → addresses.getLast? = some a

section Commands

variable {parts : Parts} {c : SolverServer} {h : Header}

@[simp] theorem lemmaServerSocket_pushToPool (t : PoolTask) :
    (c.pushToPool t).lemmaServerSocket = c.lemmaServerSocket := rfl

@[simp] theorem lemmaServerSocket_increase (n : Nat) :
    (c.increase n).lemmaServerSocket = c.lemmaServerSocket := rfl

@[simp] theorem lemmaServerSocket_pushLemmaWorkers :
    c.pushLemmaWorkers.lemmaServerSocket = c.lemmaServerSocket := rfl

@[simp] theorem lemmaServerSocket_setUpThreadArch :
    (c.setUpThreadArch h).lemmaServerSocket = c.lemmaServerSocket := by
  simp only [setUpThreadArch]
  split <;> split <;> simp

@[simp] theorem lemmaServerSocket_queueEvent :
    (c.queueEvent h).lemmaServerSocket = c.lemmaServerSocket := by
  simp only [queueEvent]
  split
  · rfl
  · split <;> rfl

theorem lemmaServerSocket_handleLemmas :
    (c.handleLemmas h).lemmaServerSocket = connect c.lemmaServerSocket (entry h Constant.lemmas) := by
  simp only [handleLemmas]
  split <;> rfl

@[simp] theorem lemmaServerSocket_handleSolve :
    (handleSolve parts c h).lemmaServerSocket = c.lemmaServerSocket := by
  simp only [handleSolve]
  split <;> simp

theorem handleEvent_stopped (hc : c.running = false) : handleEvent parts c h = c := if_pos hc

/-- Only the command `LEMMAS` touches the socket. -/
theorem lemmaServerSocket_handleEvent (hc : c.running = true) :
    (handleEvent parts c h).lemmaServerSocket =
      (told parts h).toList.foldl connect c.lemmaServerSocket := by
  rw [handleEvent, if_neg (by simp [hc]), told]
  split
  · rfl
  · cases hcommand : h.lookup Constant.command with
    | none => rfl
    | some command =>
      simp only [Option.some.injEq]
      by_cases hterminate : command = Constant.terminate
      · subst hterminate
        rfl
      · rw [if_neg hterminate]
        by_cases hlemmas : command = Constant.lemmas
        · rw [if_pos hlemmas, if_pos hlemmas]
          exact lemmaServerSocket_handleLemmas
        · rw [if_neg hlemmas, if_neg hlemmas]
          split <;> simp

theorem stopped_foldl (hc : c.running = false) (messages : List Header) :
    messages.foldl (handleEvent parts) c = c := by
  induction messages with
  | nil => rfl
  | cons h messages ih => rw [List.foldl_cons, handleEvent_stopped hc, ih]

theorem lemmaServerSocket_foldl (messages : List Header)
    (hr : (messages.foldl (handleEvent parts) c).running = true) :
    (messages.foldl (handleEvent parts) c).lemmaServerSocket =
      (messages.filterMap (told parts)).foldl connect c.lemmaServerSocket := by
  induction messages generalizing c with
  | nil => rfl
  | cons h messages ih =>
    have hc : c.running = true := by
      by_contra hc
      exact hc ((stopped_foldl (Bool.eq_false_iff.mpr hc) (h :: messages)) ▸ hr)
    rw [List.foldl_cons] at hr ⊢
    rw [ih hr, lemmaServerSocket_handleEvent hc]
    cases ht : told parts h with
    | none => rw [List.filterMap_cons_none ht]; rfl
    | some a => rw [List.filterMap_cons_some ht]; rfl

end Commands

theorem connect_some (a address : String) : connect (some a) address = some a :=
  if_neg fun h => absurd h.2 (Option.some_ne_none a)

/-- The client connects once, to the first address. -/
theorem foldl_connect (addresses : List String) :
    addresses.foldl connect none = addresses.find? (· ≠ "") := by
  induction addresses with
  | nil => rfl
  | cons a addresses ih =>
    by_cases ha : a = ""
    · rw [List.foldl_cons, connect, if_neg (by simp [ha]), ih, List.find?_cons_of_neg (by simp [ha])]
    · have hstay (l : List String) : l.foldl connect (some a) = some a := by
        induction l with
        | nil => rfl
        | cons b l ihl => rw [List.foldl_cons, connect_some, ihl]
      rw [List.foldl_cons, connect, if_pos ⟨ha, rfl⟩, hstay, List.find?_cons_of_pos (by simp [ha])]

theorem find_eq_asked (addresses : List String) :
    addresses.find? (· ≠ "") = asked addresses ↔ Steady addresses := by
  rw [Steady, asked]
  cases hf : addresses.find? (· ≠ "") with
  | some a =>
    have ha : a ≠ "" := by simpa using List.find?_some hf
    simp only [Option.some.injEq, forall_eq']
    cases addresses.getLast? with
    | none => simp
    | some b =>
      by_cases hb : b = ""
      · simp [Option.filter, hb, ha.symm]
      · simp [Option.filter, hb, eq_comm]
  | none =>
    refine iff_of_true ?_ fun _ h => absurd h (by simp)
    have hall : ∀ a ∈ addresses, a = "" := by simpa using hf
    cases hl : addresses.getLast? with
    | none => rfl
    | some b => simp [Option.filter, hall b (List.mem_of_getLast? hl)]

/-- After any messages the client is connected to the lemma server it was last told about
if and only if the last command repeats the first address. -/
theorem lemmaServer_followed (parts : Parts) (messages : List Header)
    (hr : (messages.foldl (handleEvent parts) {}).running = true) :
    (messages.foldl (handleEvent parts) {}).lemmaServerSocket =
        asked (messages.filterMap (told parts)) ↔
      Steady (messages.filterMap (told parts)) := by
  rw [lemmaServerSocket_foldl messages hr, foldl_connect, find_eq_asked]

/-- The messages the server has put on a socket. -/
def messagesTo (s : State) (x : SockId) : List Header :=
  (s.sent.filter (·.sock = x)).map Sent.header

def plainly : Parts := ⟨fun v => v = "1", fun h => entry h "parameter.seed", fun _ => true⟩

/-- A solver and a lemma server register. -/
def oneLemmaServer : List Server.Event :=
  [.accept "a", .accept "b", .message 1 [(Constant.solver, "OpenSMT2")] (some ""),
    .message 2 [(Constant.lemmas, ":5000")] (some "")]

theorem lemmaServer_followed_once :
    ∃ s, Turns (fun _ _ => True) (State.init Env.steady {}) s ∧
      ((messagesTo s 3).foldl (handleEvent plainly) {}).lemmaServerSocket = some "b:5000" ∧
      asked ((messagesTo s 3).filterMap (told plainly)) = some "b:5000" := by
  obtain ⟨s, h, hasked, running, steady⟩ := exists_of_any
    (o := oneLemmaServer.foldlM (guarded (State.turn 0) fun _ _ => True) (State.init Env.steady {}))
    (P := fun s => asked ((messagesTo s 3).filterMap (told plainly)) = some "b:5000" ∧
      ((messagesTo s 3).foldl (handleEvent plainly) {}).running = true ∧
      ((messagesTo s 3).filterMap (told plainly)).find? (· ≠ "") =
        asked ((messagesTo s 3).filterMap (told plainly))) (by decide +kernel)
  have followed := (lemmaServer_followed plainly _ running).mpr ((find_eq_asked _).mp steady)
  exact ⟨s, .of_run (.of_script h), followed.trans hasked, hasked⟩

/-- The lemma server closes, and the client keeps its connection. -/
theorem lemmaServer_kept :
    ∃ s, Turns (fun _ _ => True) (State.init Env.steady {}) s ∧
      asked ((messagesTo s 3).filterMap (told plainly)) = none ∧
      ((messagesTo s 3).foldl (handleEvent plainly) {}).running = true ∧
      ((messagesTo s 3).foldl (handleEvent plainly) {}).lemmaServerSocket = some "b:5000" := by
  obtain ⟨s, h, kept⟩ := exists_of_any
    (o := (oneLemmaServer ++ [Server.Event.closed 4]).foldlM
      (guarded (State.turn 0) fun _ _ => True) (State.init Env.steady {}))
    (P := fun s => asked ((messagesTo s 3).filterMap (told plainly)) = none ∧
      ((messagesTo s 3).foldl (handleEvent plainly) {}).running = true ∧
      ((messagesTo s 3).foldl (handleEvent plainly) {}).lemmaServerSocket = some "b:5000")
    (by decide +kernel)
  exact ⟨s, .of_run (.of_script h), kept⟩

end SolverServer

end Smts.Client
