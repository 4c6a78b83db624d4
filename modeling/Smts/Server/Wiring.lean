import Smts.Lib.Leaves
import Smts.Server.Loop

namespace Smts.Server

open Smts.Lib Smts.Lib.Prog

/-- What the server knows of its sockets. -/
structure Wiring where
  rlist : List SockId
  kind : SockId → Kind
  sock : SockId → Option ConnId
  isOpen : ConnId → Bool
  nextSock : SockId
  nextConn : ConnId

def State.wiring (s : State) : Wiring where
  rlist := s.rlist
  kind := s.kind
  sock := s.sock
  isOpen := s.isOpen
  nextSock := s.nextSock
  nextConn := s.nextConn

/-- A program that leaves the sockets alone. -/
abbrev Unwired {α : Type} (m : M α) : Prop := Leaves State.wiring m

/-- The configuration without the two entries that the scheduler writes. -/
def State.settings (s : State) : Config :=
  { s.config with nodeTimeout := none, partitionCount := 0 }

/-- A program that leaves both the sockets and the settings alone. -/
abbrev Untouched {α : Type} (m : M α) : Prop := Leaves (fun s : State => (s.wiring, s.settings)) m

theorem Untouched.unwired {α : Type} {m : M α} (h : Untouched m) : Unwired m :=
  fun s => congrArg Prod.fst (h s)

theorem Untouched.settings {α : Type} {m : M α} (h : Untouched m) : Leaves State.settings m :=
  fun s => congrArg Prod.snd (h s)

section Views

/-- Whether a solver has a node. -/
def State.busy (s : State) (x : SockId) : Bool := (s.solver x).node.isSome

/-- What few functions change: sockets and settings, who works and who is idle, the counts, and
what the server keeps from one instance to the next. -/
structure Outline where
  wiring : Wiring
  settings : Config
  busy : SockId → Bool
  idleSolvers : List SockId
  totalSolvers : Int
  partitionCount : Int
  nodeTimeout : Option Time
  terminate : Bool
  counter : Nat

def State.outline (s : State) : Outline where
  wiring := s.wiring
  settings := s.settings
  busy := s.busy
  idleSolvers := s.idleSolvers
  totalSolvers := s.totalSolvers
  partitionCount := s.config.partitionCount
  nodeTimeout := s.config.nodeTimeout
  terminate := s.terminate
  counter := s.counter

variable {γ : Type}

/-- The view shows nothing but the outline. -/
class View (f : State → γ) : Prop where
  congr : ∀ {s t : State}, t.outline = s.outline → f t = f s

class HidesWiring (f : State → γ) : Prop where
  hides : ∀ {s t : State}, t.outline = { s.outline with wiring := t.wiring } → f t = f s

class HidesSolver (f : State → γ) (x : SockId) : Prop where
  hides : ∀ s d, f { s with solver := Function.update s.solver x d } = f s

class HidesBusy (f : State → γ) : Prop where
  hides : ∀ s solver, f { s with solver := solver } = f s

class HidesIdle (f : State → γ) : Prop where
  hides : ∀ s l, f { s with idleSolvers := l } = f s

class HidesTotal (f : State → γ) : Prop where
  hides : ∀ s k, f { s with totalSolvers := k } = f s

class HidesCount (f : State → γ) : Prop where
  hides : ∀ s k, f { s with config := { s.config with partitionCount := k } } = f s

class HidesLimit (f : State → γ) : Prop where
  hides : ∀ s k, f { s with config := { s.config with nodeTimeout := k } } = f s

class HidesTerminate (f : State → γ) : Prop where
  hides : ∀ s b, f { s with terminate := b } = f s

class HidesSeed (f : State → γ) : Prop where
  hides : ∀ s k, f { s with counter := k } = f s

instance (f : State → γ) [HidesBusy f] (x : SockId) : HidesSolver f x :=
  ⟨fun s _ => HidesBusy.hides s _⟩

instance : View State.settings := ⟨fun h => congrArg Outline.settings h⟩
instance : HidesWiring State.settings := ⟨fun h => (congrArg Outline.settings h :)⟩
instance : HidesBusy State.settings := ⟨fun _ _ => rfl⟩
instance : HidesIdle State.settings := ⟨fun _ _ => rfl⟩
instance : HidesTotal State.settings := ⟨fun _ _ => rfl⟩
instance : HidesCount State.settings := ⟨fun _ _ => rfl⟩
instance : HidesLimit State.settings := ⟨fun _ _ => rfl⟩
instance : HidesTerminate State.settings := ⟨fun _ _ => rfl⟩
instance : HidesSeed State.settings := ⟨fun _ _ => rfl⟩

instance : View fun s : State => (s.wiring, s.settings) :=
  ⟨fun h => Prod.ext (congrArg Outline.wiring h) (congrArg Outline.settings h)⟩

instance : HidesBusy fun s : State => (s.wiring, s.settings) := ⟨fun _ _ => rfl⟩
instance : HidesIdle fun s : State => (s.wiring, s.settings) := ⟨fun _ _ => rfl⟩
instance : HidesTotal fun s : State => (s.wiring, s.settings) := ⟨fun _ _ => rfl⟩
instance : HidesCount fun s : State => (s.wiring, s.settings) := ⟨fun _ _ => rfl⟩
instance : HidesLimit fun s : State => (s.wiring, s.settings) := ⟨fun _ _ => rfl⟩
instance : HidesTerminate fun s : State => (s.wiring, s.settings) := ⟨fun _ _ => rfl⟩
instance : HidesSeed fun s : State => (s.wiring, s.settings) := ⟨fun _ _ => rfl⟩

instance (x : SockId) : View fun s : State => s.busy x :=
  ⟨fun h => congrFun (congrArg Outline.busy h) x⟩
instance (x : SockId) : HidesSeed fun s : State => s.busy x := ⟨fun _ _ => rfl⟩

instance {δ : Type} (v : State → γ) (w : State → δ) [View v] [View w] : View fun s => (v s, w s) :=
  ⟨fun h => Prod.ext (View.congr h) (View.congr h)⟩

end Views

section Untouched

variable {γ : Type} {v : State → γ} [View v]

@[simp] theorem untouched_now : Leaves v now := fun _ => View.congr rfl

@[simp] theorem untouched_random : Leaves v random := fun _ => View.congr rfl

@[simp] theorem untouched_inOrder (xs : List SockId) : Leaves v (inOrder xs) :=
  fun _ => View.congr rfl

omit [View v] in
@[simp] theorem untouched_idle [HidesIdle v] (l : State → List SockId) :
    Leaves v (modify fun s => { s with idleSolvers := l s } : M Unit) := fun s => HidesIdle.hides s _

@[simp] theorem untouched_print (line : Output) : Leaves v (print line) := fun _ => View.congr rfl

@[simp] theorem untouched_modifyHeap (f : Heap → Heap) : Leaves v (modifyHeap f) :=
  fun _ => View.congr rfl

@[simp] theorem untouched_modifyNode (n : NodeId) (f : Attrs → Attrs) : Leaves v (modifyNode n f) :=
  fun _ => View.congr rfl

omit [View v] in
@[simp] theorem untouched_modifySolver (x : SockId) [HidesSolver v x] (f : SolverData → SolverData) :
    Leaves v (modifySolver x f) := fun s => HidesSolver.hides s _

@[simp] theorem untouched_workingSolver (x : SockId) {f : SolverData → SolverData}
    (h : ∀ d, (f d).node.isSome = d.node.isSome) : Leaves v (modifySolver x f) := by
  refine fun s => View.congr ?_
  have hbusy : (modifySolver x f s).2.busy = s.busy := by
    funext y
    by_cases hy : y = x
    · subst hy
      simp [State.busy, modifySolver, modify, h]
    · simp [State.busy, modifySolver, modify, hy]
  rw [State.outline, hbusy]
  rfl

omit [View v] in
@[simp] theorem untouched_partitionCount [HidesCount v] (k : Config → Int) :
    Leaves v (modifyConfig fun c => { c with partitionCount := k c }) := fun s => HidesCount.hides s _

omit [View v] in
@[simp] theorem untouched_nodeTimeout [HidesLimit v] (t : Option Time) :
    Leaves v (modifyConfig fun c => { c with nodeTimeout := t }) := fun s => HidesLimit.hides s _

@[simp] theorem untouched_modifyInst (i : InstId) (f : Instance → Instance) :
    Leaves v (modifyInst i f) := fun _ => View.congr rfl

@[simp] theorem untouched_write (x : SockId) (header : Header) (payload : String)
    (about : Option NodeId) : Leaves v (write x header payload about) := by
  intro s
  unfold write
  split
  · rfl
  · split
    · dsimp only
      split
      · exact View.congr rfl
      · exact View.congr rfl
    · rfl

@[simp] theorem untouched_stop (x : SockId) [HidesSolver v x] : Leaves v (Solver.stop x) := by
  refine .bind .get fun s => ?_
  split
  · simp
  · simp

@[simp] theorem untouched_terminate (x : SockId) : Leaves v (Solver.terminate x) := by
  refine .bind .get fun s => ?_
  split
  · simp
  · simp

@[simp] theorem untouched_markStarted (n : NodeId) : Leaves v (Solver.markStarted n) :=
  .bind .get fun _ => .when (by simp)

@[simp] theorem untouched_assign (x : SockId) [HidesSolver v x] (n : NodeId) (parameters : Header) :
    Leaves v (Solver.assign x n parameters) := by
  refine .bind (by simp) fun _ => .bind .get fun s => .bind (.ofExcept _) fun r => ?_
  exact .bind (by simp) fun _ => .bind (by simp) fun _ => by simp

@[simp] theorem untouched_solve (x : SockId) [HidesSolver v x] (n : NodeId) (parameters : Header) :
    Leaves v (Solver.solve x n parameters) :=
  .bind .get fun _ => .bind (.when (by simp)) fun _ => by simp

@[simp] theorem untouched_incremental (x : SockId) (n : NodeId) :
    Leaves v (Solver.incremental x n) := by
  -- the solver that moves has a node already
  intro s
  have keep {α : Type} {m : M α} (h : Leaves (fun u : State => (v u, u.busy x)) m) :
      Preserves (fun u => v u = v s ∧ u.busy x = true) m := by
    intro u ⟨hu, hbusy⟩
    exact ⟨(congrArg Prod.fst (h u)).trans hu, (congrArg Prod.snd (h u)).trans hbusy⟩
  have last : Preserves (fun u => v u = v s ∧ u.busy x = true)
      (modifySolver x fun d => { d with node := some n }) := by
    intro u ⟨hu, hbusy⟩
    have hsame : (modifySolver x (fun d => { d with node := some n }) u).2.busy = u.busy := by
      funext y
      by_cases hy : y = x
      · subst hy
        rw [hbusy]
        simp [State.busy, modifySolver, modify]
      · simp [State.busy, modifySolver, modify, hy]
    refine ⟨(View.congr ?_).trans hu, hsame ▸ hbusy⟩
    rw [State.outline, hsame]
    rfl
  cases hn : (s.solver x).node with
  | none =>
    rw [Solver.incremental, bind_run, get_run]
    simp only [hn]
    rfl
  | some a =>
    have hbusy : s.busy x = true := by simp [State.busy, hn]
    rw [Solver.incremental, bind_run, get_run]
    simp only [hn]
    refine And.left ((?_ : Preserves (fun u => v u = v s ∧ u.busy x = true) _) s ⟨rfl, hbusy⟩)
    refine .bind (keep (by simp)) fun r => .bind (keep (by simp)) fun _ =>
      .bind (keep (by simp)) fun _ => ?_
    exact .bind (keep (by simp)) fun t => .bind (keep (by simp)) fun _ =>
      .bind (keep (by simp)) fun _ => last

@[simp] theorem untouched_setLemmaServer (x : SockId) (l : Option SockId) :
    Leaves v (Solver.setLemmaServer x l) := .bind .get fun _ => by simp

@[simp] theorem untouched_askPartitions [HidesCount v] (x : SockId) (k : Nat) :
    Leaves v (Solver.askPartitions x k) := by
  refine .bind (by simp) fun _ => .bind .get fun s => ?_
  split
  · simp
  · refine .bind (by simp) fun _ => .bind .get fun s => .bind (.ofExcept _) fun r => ?_
    exact .bind (.modify fun _ => View.congr rfl) fun _ => by simp

@[simp] theorem untouched_readPartitions [HidesCount v] (x : SockId) (header : Header) (payload : Payload) :
    Leaves v (Solver.readPartitions x header payload) := by
  have recount (o : NodeId) : Leaves v (Solver.recount o) := by
    refine .bind .get fun s => ?_
    split
    · simp
    · simp
  refine .bind .get fun s => ?_
  dsimp only
  cases (s.solver x).orWaiting.getLast? with
  | none => simp
  | some o =>
    refine .bind (by simp) fun _ => ?_
    split
    · simp
    · refine .bind (by simp) fun _ => ?_
      split
      · simp
      · exact .bind (by simp) fun _ => .bind (recount o) fun _ => by simp

@[simp] theorem untouched_readStatus (x : SockId) (n : NodeId) (status : SolveStatus) :
    Leaves v (Solver.readStatus x n status) := by
  refine .bind (by simp) fun _ => .bind (by simp) fun _ => .when (.bind (by simp) fun h => ?_)
  exact .forEach (fun c => .bind (by simp) fun _ => by simp) _

@[simp] theorem untouched_read [HidesCount v] (x : SockId) (header : Header) (payload : Payload) :
    Leaves v (Solver.read x header payload) := by
  refine .bind .get fun s => ?_
  split
  · simp
  · split
    · refine .ite (by simp) (.ite (by simp) ?_)
      split
      · simp
      · simp
    · simp

@[simp] theorem untouched_configEntrust (name : String) (workers : Nat) :
    Leaves v (configEntrust name workers) := by
  refine .bind .get fun s => .bind (.foldEach (fun h e => ?_) _ _) fun fixed =>
    .ite (by simp) (.ite (by simp) (by simp))
  refine .ite ?_ (by simp)
  split
  · simp
  · exact .bind (by simp) fun _ => by simp

@[simp] theorem untouched_whenTimeout (i : InstId) : Leaves v (whenTimeout i) := by
  refine .bind .get fun s => ?_
  split
  · simp
  · simp

@[simp] theorem untouched_lemmaServer : Leaves v lemmaServer := .bind .get fun _ => by simp

@[simp] theorem untouched_solvers (w : Which) : Leaves v (solvers w) := .bind .get fun _ => by simp

omit [View v] in
@[simp] theorem untouched_levelChildren (level : Nat) : Leaves v (levelChildren level) := by
  refine .bind .get fun s => ?_
  split
  · simp
  · simp

@[simp] theorem untouched_solversOn (root : NodeId) : Leaves v (solversOn root) :=
  .bind (by simp) fun _ => .bind .get fun _ => .ite (by simp) (by simp)

@[simp] theorem untouched_resetLemmas (x : SockId) (root : NodeId) :
    Leaves v (resetLemmas x root) := .bind .get fun _ => by simp

@[simp] theorem untouched_stuck [HidesTerminate v] (i : InstId) : Leaves v (stuck i) := by
  refine .bind .get fun s => .ite (.bind (.ofExcept _) fun childs => .ite ?_ (by simp)) (by simp)
  refine .bind (by simp) fun _ => .bind (by simp) fun l => .bind (by simp) fun _ => ?_
  exact .bind (.modify fun s => HidesTerminate.hides s _) fun _ => by simp

@[simp] theorem untouched_printResult (i : InstId) : Leaves v (printResult i) := by
  refine .bind .get fun s => .bind (by simp) fun t => ?_
  split
  · simp
  · exact .ite (.bind (by simp) fun _ => .ite (.modify fun _ => View.congr rfl) (by simp)) (by simp)

@[simp] theorem untouched_release [HidesBusy v] [HidesIdle v] (i : InstId) :
    Leaves v (release i) := by
  have gone (s : State) : v { s with current := none, idleSolvers := [] } = v s := by
    rw [← HidesIdle.hides (f := v) s []]
    exact View.congr rfl
  refine .bind .get fun s => .bind (by simp) fun l => .bind (by simp) fun _ =>
    .bind (by simp) fun l => ?_
  split
  · exact .bind (by simp) fun _ => .modify gone
  · exact .modify gone

@[simp] theorem untouched_conclude [HidesBusy v] [HidesIdle v] [HidesTerminate v] (i : InstId) :
    Leaves v (conclude i) := by
  have rest (returned : Bool) : Leaves v (if returned then return true else do
      printResult i
      release i
      return false : M Bool) :=
    .ite (by simp) (.bind (by simp) fun _ => .bind (by simp) fun _ => by simp)
  refine .bind .get fun s => .ite (.bind (by simp) fun b => .ite (rest true) ?_) (rest false)
  exact .bind (.when (by simp)) fun _ => rest false

@[simp] theorem untouched_isOver (i : InstId) : Leaves v (isOver i) :=
  .bind .get fun _ => .ite (by simp) (by simp)

@[simp] theorem untouched_startSolver [HidesSeed v] (i : InstId) (x : SockId) [HidesSolver v x] :
    Leaves v (startSolver i x) := by
  refine .bind .get fun s => .bind (by simp) fun h =>
    .bind (.modify fun s => HidesSeed.hides s _) fun _ => ?_
  refine .bind .get fun s => .bind (by simp) fun _ => .bind .get fun s => .when ?_
  exact .bind (by simp) fun _ => by simp

@[simp] theorem untouched_schedulables : Leaves v schedulables := by
  refine .bind .get fun s => .foldEach (fun acc e => .bind .get fun s => .ite ?_ (by simp)) _ _
  refine .bind (by simp) fun t => ?_
  split
  · simp
  · simp

@[simp] theorem untouched_startNext [HidesBusy v] [HidesTotal v] [HidesCount v] [HidesSeed v] :
    Leaves v startNext := by
  refine .bind untouched_schedulables fun l => ?_
  split
  · simp
  · refine .bind (.modify fun _ => View.congr rfl) fun _ =>
      .bind (.modify fun s => HidesTotal.hides s _) fun _ => ?_
    refine .bind (by simp) fun l => .bind (.forEach (fun x => ?_) _) fun _ => by simp
    exact .bind (by simp) fun _ => by simp

@[simp] theorem untouched_welcome [HidesBusy v] [HidesTotal v] [HidesSeed v] (i : InstId) :
    Leaves v (welcome i) := by
  refine .bind .get fun s => .bind (by simp) fun l => .forEach (fun x => ?_) _
  exact .bind (.modify fun s => HidesTotal.hides s _) fun _ => by simp

omit [View v] in
@[simp] theorem untouched_collectSolver [HidesIdle v] [HidesCount v] (acc : List SockId) (x : SockId) :
    Leaves v (collectSolver acc x) :=
  .bind .get fun _ => .ite (.bind (by simp) fun _ => by simp) (by simp)

omit [View v] in
@[simp] theorem untouched_addIdle [HidesIdle v] [HidesCount v] (counted : Bool) (x : SockId) :
    Leaves v (addIdle counted x) :=
  .bind .get fun _ => .when (.bind (by simp) fun _ => .when (by simp))

@[simp] theorem untouched_passUnsat [HidesIdle v] [HidesCount v] (n : NodeId) (solved : List SockId) :
    Leaves v (passUnsat n solved) := by
  have rest (solved : List SockId) : Leaves v (collectAt n solved) :=
    .bind (by simp) fun _ => .bind (by simp) fun l => .foldEach (fun _ _ => by simp) _ _
  refine .bind .get fun s => ?_
  dsimp only
  split
  · exact .bind (by simp) rest
  · refine .ite (.bind (by simp) fun l => ?_) (.bind (by simp) rest)
    exact .bind (.foldEach (fun _ _ => by simp) _ _) fun _ => .bind (by simp) fun _ =>
      .bind (by simp) rest

@[simp] theorem untouched_passTimeout [HidesIdle v] [HidesCount v] (n : NodeId) :
    Leaves v (passTimeout n) := by
  have rest (s : State) (split : Bool) : Leaves v (
      if split = true then retire n (!(s.heap.attrs n).assumedTimout)
      else when ((s.heap.attrs n).assumedTimout = false) (suspend n)) := by
    refine .ite (.bind (by simp) fun l => ?_) (.when (.bind (by simp) fun l => ?_))
    · exact .bind (by simp) fun _ => .bind (by simp) fun _ => by simp
    · exact .bind (by simp) fun _ => by simp
  refine .bind .get fun s => .ite ?_ (.bind (by simp) (rest s))
  split
  · exact .bind (by simp) (rest s)
  · exact .bind (by simp) (rest s)

@[simp] theorem untouched_timedOut (n : NodeId) : Leaves v (timedOut n) := by
  refine .bind .get fun s => ?_
  split
  · simp
  · simp

@[simp] theorem untouched_chooseNodeTimeout [HidesLimit v] (i : InstId) :
    Leaves v (chooseNodeTimeout i) := by
  refine .bind .get fun s => .bind (by simp) fun t => ?_
  split
  · simp
  · exact .ite (by simp) (.bind (by simp) fun _ => by simp)

@[simp] theorem untouched_passNode [HidesIdle v] [HidesCount v] [HidesLimit v] (i : InstId) (acc : Pass)
    (n : NodeId) : Leaves v (passNode i acc n) := by
  have rest (solved : List SockId) : Leaves v (aim acc n solved) :=
    .bind .get fun _ => .ite (by simp) (by simp)
  refine .bind .get fun s => .ite (.bind (.when (by simp)) fun _ => ?_) (by simp)
  refine .ite (.bind (by simp) rest) (.bind (by simp) fun late => .ite ?_ ?_)
  · exact .bind (by simp) fun _ => .bind (by simp) rest
  · exact .bind .get fun s => .bind (.when (by simp)) fun _ => .bind (by simp) rest

@[simp] theorem untouched_relocateTo (solved : List SockId) (child : NodeId) :
    Leaves v (relocateTo solved child) := by
  refine .bind .get fun s => ?_
  dsimp only
  split
  · simp
  · refine .bind (by simp) fun l => ?_
    split
    · simp
    · exact .bind (by simp) fun _ => by simp

@[simp] theorem untouched_relocate (fuel : Nat) (i : InstId) (solved : List SockId) :
    Leaves v (relocate fuel i solved) :=
  .bind .get fun s => .when (.bind (.ofExcept _) fun childs =>
    .whileNonempty (fun l => .foldEach (fun _ _ => by simp) _ _) _ _)

@[simp] theorem untouched_survey [HidesIdle v] [HidesCount v] [HidesLimit v] (fuel : Nat) (i : InstId) :
    Leaves v (survey fuel i) := by
  refine .bind .get fun s => .bind (.foldEach (fun acc n => by simp) _ _) fun pass => ?_
  exact .bind (by simp) fun _ => by simp

@[simp] theorem untouched_partition [HidesCount v] (n : NodeId) : Leaves v (partition n) := by
  have askFirst (l : List SockId) : Leaves v (askFirst n l) := by
    induction l with
    | nil => exact .pure false
    | cons x xs ih =>
      refine .bind .get fun s => ?_
      split
      · refine .bind (by simp) fun t => .ite (.bind (by simp) fun k => ?_) ih
        exact .bind (by simp) fun _ => by simp
      · simp
  have partitionLoop (k : Nat) : Leaves v (partitionLoop n k) := by
    induction k with
    | zero => exact .pure false
    | succ k ih =>
      exact .bind (by simp) fun l => .bind (askFirst l) fun b => .ite (by simp) ih
  exact .bind .get fun s => .bind (by simp) fun k => partitionLoop _

omit [View v] in
@[simp] theorem untouched_pickIdle (leaf : NodeId) (l : List SockId) :
    Leaves v (pickIdle leaf l) := by
  induction l with
  | nil => exact .pure none
  | cons x xs ih =>
    refine .bind .get fun s => ?_
    split
    · simp
    · exact .ite (by simp) (.ite (by simp) (.ite (by simp) ih))

@[simp] theorem untouched_reassign [HidesIdle v] (nodes : List NodeId) (pass : Pass) :
    Leaves v (reassign nodes pass) := by
  have reassignTo (leaf : NodeId) : Leaves v (reassignTo leaf) := by
    refine .bind .get fun s => .when (.bind (by simp) fun x => ?_)
    split
    · simp
    · exact .bind (by simp) fun _ => by simp
  have sendIdle (target : NodeId) : Leaves v (sendIdle target) := by
    refine .bind .get fun s => .ite (by simp) (.bind (by simp) fun _ => ?_)
    refine .bind .get fun s => ?_
    split
    · simp
    · exact .when (.bind (by simp) fun _ => by simp)
  refine .bind .get fun s => .when (.bind (.forEach reassignTo _) fun _ => .bind .get fun s => ?_)
  refine .bind (.when (by simp)) fun _ => ?_
  split
  · exact .when (sendIdle _)
  · simp

@[simp] theorem untouched_movableSolvers (p : PNode) : Leaves v (movableSolvers p) := by
  refine .bind .get fun s => .ite ?_ (by simp)
  split
  · simp
  · exact .foldEach (fun acc m => .bind (by simp) fun xs => .bind .get fun s => by simp) _ _

@[simp] theorem untouched_spread (fuel : Nat) (p : PNode) : Leaves v (spread fuel p) := by
  refine .bind (by simp) fun l => .whileNonempty (fun l => ?_) _ _
  refine .bind .get fun s => .bind (.ofExcept _) fun childs => .foldEach (fun l n => ?_) _ _
  cases l with
  | nil => exact .pure _
  | cons x xs => exact .bind (by simp) fun _ => .pure _

@[simp] theorem untouched_request [HidesCount v] (i : InstId) (pass : Pass) :
    Leaves v (request i pass) := by
  refine .bind .get fun s => .ite ?_ (by simp)
  cases pass.toPartition with
  | some n => exact .when (.bind (by simp) fun _ => by simp)
  | none => simp

@[simp] theorem untouched_redistribute [HidesIdle v] [HidesCount v] (i : InstId)
    (nodes : List NodeId) (pass : Pass) : Leaves v (redistribute i nodes pass) :=
  .bind (by simp) fun _ => by simp

@[simp] theorem untouched_distribute [HidesIdle v] [HidesCount v] (fuel : Nat) (i : InstId)
    (p : Option PNode) (nodes : List NodeId) (pass : Pass) : Leaves v (distribute fuel i p nodes pass) := by
  cases p with
  | some p => exact .bind (by simp) fun _ => untouched_redistribute i nodes pass
  | none => exact untouched_redistribute i nodes pass

@[simp] theorem untouched_submit (name : String) (payload : Payload) :
    Leaves v (submit name payload) := by
  refine .bind .get fun s => ?_
  split
  · simp
  · refine .bind (.modify fun _ => View.congr rfl) fun _ => .when ?_
    split
    · simp
    · exact .bind (by simp) fun _ => .when (by simp)

@[simp] theorem untouched_handleSolver (r : Solver.Received) : Leaves v (handleSolver r) := by
  have solverError (report : String) : Leaves v (solverError report) := by
    refine .bind .get fun s => ?_
    split
    · exact .bind (by simp) fun _ => by simp
    · simp
  refine .ite (by simp) ?_
  cases r.header.lookup Constant.report with
  | some report => exact .bind (solverError _) fun _ => .pure _
  | none => exact .pure _

@[simp] theorem untouched_handleClose [HidesBusy v] (x : SockId) : Leaves v (handleClose x) := by
  refine .bind .get fun s => ?_
  split
  · simp
  · exact .bind (by simp) fun l => by simp
  · simp

end Untouched

end Smts.Server
