import Smts.Lib.Raises
import Smts.Server.SolverLaws

namespace Smts.Server

open Smts.Lib Smts.Lib.Prog

/-- Neither an access to an empty list nor a violated assertion. -/
def Exn.Benign (e : Exn) : Prop := e ≠ .indexError ∧ e ≠ .assertionError

@[simp] theorem Exn.benign_iff (e : Exn) : e.Benign ↔ e ≠ .indexError ∧ e ≠ .assertionError :=
  Iff.rfl

/-- However the program ends, it is not by such a fault. -/
abbrev Faultless {α : Type} (m : M α) : Prop := Raises Exn.Benign m

section Solvers

@[simp] theorem faultless_now : Faultless now := fun _ => trivial

@[simp] theorem faultless_random : Faultless random := fun _ => trivial

@[simp] theorem faultless_inOrder (xs : List SockId) : Faultless (inOrder xs) := fun _ => trivial

@[simp] theorem faultless_print (line : Output) : Faultless (print line) := fun _ => trivial

@[simp] theorem faultless_modifyNode (n : NodeId) (f : Attrs → Attrs) :
    Faultless (modifyNode n f) := fun _ => trivial

@[simp] theorem faultless_modifySolver (x : SockId) (f : SolverData → SolverData) :
    Faultless (modifySolver x f) := fun _ => trivial

@[simp] theorem faultless_modifyConfig (f : Config → Config) : Faultless (modifyConfig f) :=
  fun _ => trivial

@[simp] theorem faultless_modifyInst (i : InstId) (f : Instance → Instance) :
    Faultless (modifyInst i f) := fun _ => trivial

@[simp] theorem faultless_write (x : SockId) (header : Header) (payload : String)
    (about : Option NodeId) : Faultless (write x header payload about) := by
  intro s
  cases hx : s.sock x with
  | none => simp [wp, write, hx]
  | some c =>
    simp only [wp, write, hx]
    by_cases hfits : header.fits payload = true
    · by_cases hopen : (s.isOpen c && s.world.env.writeOk s.world.writeTick) = true
      · simp [hfits, hopen]
      · simp [hfits, hopen]
    · simp [hfits]

@[simp] theorem faultless_closeSocket (x : SockId) : Faultless (closeSocket x) := by
  intro s
  cases hx : s.sock x with
  | none => simp [wp, closeSocket, hx]
  | some c => simp [wp, closeSocket, hx]

theorem faultless_toString {h : Heap} {self node : NodeId} {start : Option NodeId} :
    Faultless (ofExcept (h.toString self node start)) :=
  .ofExcept fun e he => by rcases Heap.toString_raises he with rfl | rfl <;> simp

@[simp] theorem faultless_stop (x : SockId) : Faultless (Solver.stop x) := by
  refine .bind .get fun s => ?_
  split
  · simp
  · simp

@[simp] theorem faultless_terminate (x : SockId) : Faultless (Solver.terminate x) := by
  refine .bind .get fun s => ?_
  split
  · simp
  · simp

@[simp] theorem faultless_markStarted (n : NodeId) : Faultless (Solver.markStarted n) :=
  .bind .get fun _ => .when (by simp)

@[simp] theorem faultless_solve (x : SockId) (n : NodeId) (parameters : Header) :
    Faultless (Solver.solve x n parameters) := by
  refine .bind .get fun s => .bind (.when (by simp)) fun _ => .bind (by simp) fun _ =>
    .bind .get fun s => ?_
  exact .bind faultless_toString fun r => .bind (by simp) fun _ => by simp

@[simp] theorem faultless_incremental (x : SockId) (n : NodeId) :
    Faultless (Solver.incremental x n) := by
  refine .bind .get fun s => ?_
  split
  · simp
  · refine .bind faultless_toString fun r => .bind (by simp) fun _ => .bind (by simp) fun _ => ?_
    exact .bind (by simp) fun _ => by simp

@[simp] theorem faultless_askPartitions (x : SockId) (k : Nat) :
    Faultless (Solver.askPartitions x k) := by
  refine .bind (by simp) fun _ => .bind .get fun s => ?_
  split
  · simp
  · refine .bind (by simp) fun _ => .bind .get fun s => .bind (.ofExcept fun e he => ?_)
      fun r => by simp
    unfold Heap.newOr at he
    split at he
    · cases he
    · cases he
      simp

end Solvers

section Entrusting

@[simp] theorem faultless_lemmaServer : Faultless lemmaServer := .bind .get fun _ => by simp

@[simp] theorem faultless_solvers (w : Which) : Faultless (solvers w) := .bind .get fun _ => by simp

@[simp] theorem faultless_whenTimeout (i : InstId) : Faultless (whenTimeout i) := by
  refine .bind .get fun s => ?_
  split
  · simp
  · simp

@[simp] theorem faultless_levelChildren (level : Nat) : Faultless (levelChildren level) := by
  refine .bind .get fun s => ?_
  split
  · simp
  · simp

@[simp] theorem faultless_configEntrust (name : String) (workers : Nat) :
    Faultless (configEntrust name workers) := by
  refine .bind .get fun s => .bind (.foldEach (fun h e => ?_) _ _) fun fixed =>
    .ite (by simp) (.ite (by simp) (by simp))
  refine .ite ?_ (by simp)
  split
  · simp
  · simp

@[simp] theorem faultless_release (i : InstId) : Faultless (release i) := by
  have solversOn (root : NodeId) : Faultless (solversOn root) :=
    .bind (by simp) fun _ => .bind .get fun _ => .ite (by simp) (by simp)
  refine .bind .get fun s => .bind (solversOn _) fun l => .bind (by simp) fun _ =>
    .bind (by simp) fun l => ?_
  split
  · exact .bind (.bind .get fun _ => by simp) fun _ => by simp
  · simp

@[simp] theorem faultless_printResult (i : InstId) : Faultless (printResult i) := by
  refine .bind .get fun s => .bind (by simp) fun t => ?_
  split
  · simp
  · exact .ite (.bind (by simp) fun _ => .ite (by simp) (by simp)) (by simp)

@[simp] theorem faultless_isOver (i : InstId) : Faultless (isOver i) :=
  .bind .get fun _ => .ite (by simp) (by simp)

@[simp] theorem faultless_startSolver (i : InstId) (x : SockId) : Faultless (startSolver i x) := by
  refine .bind .get fun s => .bind (by simp) fun h => .bind (by simp) fun _ => ?_
  exact .bind .get fun s => .bind (by simp) fun _ => .bind .get fun s => .when (by simp)

@[simp] theorem faultless_startNext : Faultless startNext := by
  have schedulables : Faultless schedulables := by
    refine .bind .get fun s => .foldEach (fun acc e => .bind .get fun s => .ite ?_ (by simp)) _ _
    refine .bind (by simp) fun t => ?_
    split
    · simp
    · simp
  refine .bind schedulables fun l => ?_
  split
  · simp
  · refine .bind (by simp) fun _ => .bind (by simp) fun _ => .bind (by simp) fun l => ?_
    exact .bind (.forEach (fun x => by simp) _) fun _ => by simp

@[simp] theorem faultless_welcome (i : InstId) : Faultless (welcome i) :=
  .bind .get fun s => .bind (by simp) fun l => .forEach (fun x => by simp) _

@[simp] theorem faultless_allDone (solving : Option InstId) : Faultless (allDone solving) := by
  have closeServer : Faultless closeServer :=
    .bind .get fun _ => .bind (by simp) fun l => .forEach (fun x => by simp) _
  exact .bind .get fun _ => .when (.when (.when (.bind closeServer fun _ => by simp)))

@[simp] theorem faultless_passUnsat (n : NodeId) (solved : List SockId) :
    Faultless (passUnsat n solved) := by
  have collectSolver (acc : List SockId) (x : SockId) : Faultless (collectSolver acc x) :=
    .bind .get fun _ => .ite (by simp) (by simp)
  have rest (solved : List SockId) : Faultless (collectAt n solved) :=
    .bind (by simp) fun _ => .bind (by simp) fun l => .foldEach collectSolver _ _
  refine .bind .get fun s => ?_
  dsimp only
  split
  · exact .bind (by simp) rest
  · refine .ite (.bind (by simp) fun l => ?_) (.bind (by simp) rest)
    exact .bind (.foldEach collectSolver _ _) fun _ => .bind (by simp) fun _ => .bind (by simp) rest

@[simp] theorem faultless_addIdle (counted : Bool) (x : SockId) : Faultless (addIdle counted x) :=
  .bind .get fun _ => .when (.bind (by simp) fun _ => .when (by simp))

@[simp] theorem faultless_timedOut (n : NodeId) : Faultless (timedOut n) := by
  refine .bind .get fun s => ?_
  split
  · simp
  · simp

@[simp] theorem faultless_chooseNodeTimeout (i : InstId) : Faultless (chooseNodeTimeout i) := by
  refine .bind .get fun s => .bind (by simp) fun t => ?_
  split
  · simp
  · exact .ite (by simp) (by simp)

@[simp] theorem faultless_relocateTo (solved : List SockId) (child : NodeId) :
    Faultless (relocateTo solved child) := by
  refine .bind .get fun s => ?_
  dsimp only
  split
  · simp
  · refine .bind (by simp) fun l => ?_
    split
    · simp
    · simp

@[simp] theorem faultless_movableSolvers (p : PNode) : Faultless (movableSolvers p) := by
  refine .bind .get fun s => .ite ?_ (by simp)
  split
  · simp
  · exact .foldEach (fun acc m => .bind (by simp) fun xs => .bind .get fun s => by simp) _ _

@[simp] theorem faultless_reassignTo (leaf : NodeId) : Faultless (reassignTo leaf) := by
  have pickIdle (l : List SockId) : Faultless (pickIdle leaf l) := by
    induction l with
    | nil => exact .pure none
    | cons x xs ih =>
      refine .bind .get fun s => ?_
      split
      · simp
      · exact .ite (by simp) (.ite (by simp) (.ite (by simp) ih))
  refine .bind .get fun s => .when (.bind (pickIdle _) fun x => ?_)
  split
  · simp
  · simp

@[simp] theorem faultless_sendIdle (target : NodeId) : Faultless (sendIdle target) := by
  refine .bind .get fun s => .ite (by simp) (.bind (by simp) fun _ => .bind .get fun s => ?_)
  split
  · simp
  · exact .when (by simp)

@[simp] theorem faultless_partition (n : NodeId) : Faultless (partition n) := by
  have askFirst (l : List SockId) : Faultless (askFirst n l) := by
    induction l with
    | nil => exact .pure false
    | cons x xs ih =>
      refine .bind .get fun s => ?_
      split
      · exact .bind (by simp) fun t => .ite (by simp) ih
      · simp
  have partitionLoop (k : Nat) : Faultless (partitionLoop n k) := by
    induction k with
    | zero => exact .pure false
    | succ k ih => exact .bind (by simp) fun l => .bind (askFirst l) fun b => .ite (by simp) ih
  exact .bind .get fun s => .bind (by simp) fun k => partitionLoop _

end Entrusting

end Smts.Server
