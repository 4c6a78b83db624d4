import Smts.Server.Turns
import Smts.Server.Wiring

namespace Smts.Server

open Smts.Lib Smts.Lib.Prog

variable {s t : State}

section Untouched

variable {γ : Type} {v : State → γ} [View v]

omit [View v] in
@[simp] theorem untouched_closeSocket [HidesWiring v] (x : SockId) : Leaves v (closeSocket x) := by
  intro s
  unfold closeSocket
  split
  · rfl
  · exact HidesWiring.hides rfl

@[simp] theorem untouched_closeServer [HidesWiring v] : Leaves v closeServer := by
  refine .bind .get fun _ => .bind (by simp) fun l => .forEach (fun x => ?_) l
  exact .bind (.modify fun _ => HidesWiring.hides rfl) fun _ => by simp

@[simp] theorem untouched_allDone [HidesWiring v] (solving : Option InstId) :
    Leaves v (allDone solving) :=
  .bind .get fun _ => .when (.when (.when (.bind (by simp) fun _ => .raise _)))

theorem untouched_greet (y : SockId) : Leaves v (do
    match ← lemmaServer with
    | some l => Solver.setLemmaServer y (some l)
    | none => pure ()) := by
  refine .bind (by simp) fun l => ?_
  cases l with
  | none => exact .pure _
  | some l => simp

@[simp] theorem untouched_join [HidesWiring v] [HidesBusy v] (x : SockId) (name : String) :
    Leaves v (join x name) := by
  refine .bind .get fun s => .bind (.modify fun t => ?_) fun _ =>
    .bind (.when (by simp)) fun _ => ?_
  · rw [← HidesBusy.hides (f := v) t (Function.update t.solver s.nextSock { name := name })]
    exact HidesWiring.hides rfl
  · exact .ite (.bind (.modify fun _ => HidesWiring.hides rfl) fun _ => untouched_greet _)
      (.bind (.raise _) fun _ => untouched_greet _)

@[simp] theorem untouched_joinLemmaServer [HidesWiring v] (x : SockId) (listening : String) :
    Leaves v (joinLemmaServer x listening) := by
  refine .bind .get fun s => ?_
  dsimp only
  split
  case' h_2 => split
  all_goals
    refine .bind (by simp) fun address => .bind (by simp) fun l => ?_
    cases l
    case' some l => refine .bind (untouched_closeSocket l) fun _ => ?_
  all_goals
    refine .ite (.bind (.modify fun _ => HidesWiring.hides rfl) fun _ => ?_) (.bind (.raise _) fun _ => ?_)
  all_goals
    refine .bind .get fun s => .bind (.modify fun _ => HidesWiring.hides rfl) fun _ => ?_
    refine .bind (by simp) fun _ => .bind (.modify fun _ => HidesWiring.hides rfl) fun _ => ?_
    exact .bind (by simp) fun l => .forEach (fun z => by simp) l

theorem untouched_serve [HidesWiring v] [HidesBusy v] (x : SockId) (header : Header)
    (payload : Payload) : Leaves v (
    match header.lookup Constant.command with
    | some command => handleCommand command header payload
    | none =>
      match header.lookup Constant.solver with
      | some name => do
        join x name
        return some none
      | none => do
        match header.lookup Constant.lemmas with
        | some listening => joinLemmaServer x listening
        | none => when (header.has Constant.eval = true) (write x [] "" none)
        return none : M (Option (Option PNode))) := by
  cases header.lookup Constant.command with
  | some command =>
    refine .ite (.bind (by simp) fun _ => .pure _) (.ite ?_ (.pure _))
    cases header.lookup Constant.name with
    | some name => exact .bind (by simp) fun _ => .pure _
    | none => exact .pure _
  | none =>
    cases header.lookup Constant.solver with
    | some name => exact .bind (by simp) fun _ => .pure _
    | none =>
      cases header.lookup Constant.lemmas with
      | some listening => exact .bind (by simp) fun _ => .pure _
      | none => exact .bind (.when (by simp)) fun _ => .pure _

@[simp] theorem untouched_handleOther [HidesWiring v] [HidesBusy v] (x : SockId) (header : Header)
    (payload : Payload) : Leaves v (handleOther x header payload) := by
  refine .bind .get fun s => .ite (.pure _) ?_
  cases header.lookup Constant.report with
  | none => exact untouched_serve x header payload
  | some report =>
    refine .bind (.when ?_) fun _ => untouched_serve x header payload
    exact .bind (.when (.raise _)) fun _ => .bind (.when (.raise _)) fun _ => .when (.raise _)

@[simp] theorem untouched_receive [HidesWiring v] [HidesBusy v] [HidesCount v] (ev : Event) :
    Leaves v (receive ev) := by
  cases ev with
  | timeout => exact .pure _
  | accept remote => exact .bind (.modify fun _ => HidesWiring.hides rfl) fun _ => .pure _
  | message x header payload =>
    refine .bind .get fun s => .ite ?_ (.bind (.when (.raise _)) fun _ => by simp)
    exact .bind (by simp) fun r => .bind (.when (.raise _)) fun _ => by simp
  | closed x =>
    refine .bind (by simp) fun _ => .bind (by simp) fun _ => ?_
    exact .bind (.modify fun _ => HidesWiring.hides rfl) fun _ => .pure _

variable [HidesWiring v] [HidesBusy v] [HidesTotal v] [HidesCount v] [HidesSeed v]

theorem untouched_proceed (solving : Option InstId) (returned : Bool) :
    Leaves v (proceed solving returned) := by
  refine .ite (.pure _) (.bind (.gets _) fun current => ?_)
  cases current with
  | none =>
    refine .bind (by simp) fun started => ?_
    cases started with
    | true => exact .pure _
    | false => exact .bind (by simp) fun _ => .pure _
  | some i => exact .bind (by simp) fun _ => .bind .get fun _ => .pure _

omit [HidesWiring v] [HidesTotal v] [HidesCount v] [HidesSeed v] in
theorem untouched_settle [HidesIdle v] [HidesTerminate v] (solving : Option InstId) :
    Leaves v (settle solving) := by
  cases solving with
  | none => exact .pure _
  | some i => exact .bind (by simp) fun _ => .ite (by simp) (.pure _)

variable [HidesIdle v] [HidesTerminate v]

theorem untouched_attend : Leaves v attend :=
  .bind (.gets _) fun solving => .bind (untouched_settle solving) fun returned =>
    untouched_proceed solving returned

variable [HidesLimit v]

theorem untouched_entrust (fuel : Nat) (p : Option PNode) : Leaves v (entrust fuel p) := by
  refine .bind untouched_attend fun r => ?_
  cases r with
  | none => exact .pure _
  | some i => exact .bind (by simp) fun r => by simp

end Untouched

/-- A program that leaves the settings alone. -/
abbrev Unset {α : Type} (m : M α) : Prop := Leaves State.settings m

theorem unset_receive (ev : Event) : Unset (receive ev) := untouched_receive ev

theorem unset_entrust (fuel : Nat) (p : Option PNode) : Unset (entrust fuel p) :=
  untouched_entrust fuel p

theorem unset_handle (fuel : Nat) (ev : Event) : Unset (handle fuel ev) := by
  refine .bind (unset_receive ev) fun r => ?_
  cases r with
  | none => exact .pure _
  | some p => exact unset_entrust fuel p

/-- No turn changes the settings. -/
theorem Step.settings {ev : Event} (h : Step s ev t) : t.settings = s.settings := by
  cases h with
  | mk running ready run ends =>
    rename_i fuel r u
    have hu := unset_handle fuel ev s
    rw [run] at hu
    exact hu

theorem Turns.settings {G : State → Event → Prop} (h : Turns G s t) : t.settings = s.settings :=
  h.invariant (I := fun u => u.settings = s.settings)
    (fun _ _ _ hu _ hstep => hstep.settings.trans hu) rfl

end Smts.Server
