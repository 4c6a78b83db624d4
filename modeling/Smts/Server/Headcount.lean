import Mathlib.Data.List.Perm.Subperm
import Smts.Server.Receiving
import Smts.Server.Settings

namespace Smts.Server

open Smts.Lib Smts.Lib.Prog

variable {s t u : State} {l : List SockId} {x : SockId} {i : InstId} {n : NodeId}

/-- Who is connected, who works and who is idle, and how many there are to be. -/
def State.crew (s : State) : List SockId × (SockId → Kind) × (SockId → Bool) × List SockId × Int :=
  (s.rlist, s.kind, s.busy, s.idleSolvers, s.totalSolvers)

instance : View State.crew :=
  ⟨fun h => congrArg (fun o : Outline => (o.wiring.rlist, o.wiring.kind, o.busy, o.idleSolvers,
    o.totalSolvers)) h⟩

instance : HidesCount State.crew := ⟨fun _ _ => rfl⟩
instance : HidesLimit State.crew := ⟨fun _ _ => rfl⟩
instance : HidesTerminate State.crew := ⟨fun _ _ => rfl⟩
instance : HidesSeed State.crew := ⟨fun _ _ => rfl⟩

/-- The same without who works. -/
def State.roll (s : State) : List SockId × (SockId → Kind) × List SockId × Int :=
  (s.rlist, s.kind, s.idleSolvers, s.totalSolvers)

instance : View State.roll :=
  ⟨fun h => congrArg (fun o : Outline => (o.wiring.rlist, o.wiring.kind, o.idleSolvers,
    o.totalSolvers)) h⟩

instance : HidesBusy State.roll := ⟨fun _ _ => rfl⟩
instance : HidesCount State.roll := ⟨fun _ _ => rfl⟩
instance : HidesLimit State.roll := ⟨fun _ _ => rfl⟩
instance : HidesTerminate State.roll := ⟨fun _ _ => rfl⟩
instance : HidesSeed State.roll := ⟨fun _ _ => rfl⟩

instance : View State.totalSolvers := ⟨fun h => congrArg Outline.totalSolvers h⟩
instance : HidesWiring State.totalSolvers := ⟨fun h => (congrArg Outline.totalSolvers h :)⟩
instance : HidesBusy State.totalSolvers := ⟨fun _ _ => rfl⟩
instance : HidesCount State.totalSolvers := ⟨fun _ _ => rfl⟩
instance : HidesLimit State.totalSolvers := ⟨fun _ _ => rfl⟩
instance : HidesTerminate State.totalSolvers := ⟨fun _ _ => rfl⟩
instance : HidesSeed State.totalSolvers := ⟨fun _ _ => rfl⟩

/-- All solvers that work or are idle are in the list. -/
structure State.Manned (s : State) (l : List SockId) : Prop where
  idle : ∀ x ∈ s.idleSolvers, x ∈ l
  busy : ∀ x, s.Connected x → s.busy x = true → x ∈ l

/-- `total_solvers` counts the solvers that work or are idle. -/
def State.Counted (s : State) (l : List SockId) : Prop :=
  s.Manned l ∧ (l.length : Int) ≤ s.totalSolvers

namespace State.Manned

theorem congr (h : s.Manned l) (idle : ∀ x, x ∈ t.idleSolvers → x ∈ s.idleSolvers)
    (connected : ∀ x, t.Connected x → s.Connected x)
    (busy : ∀ x, t.Connected x → t.busy x = true → s.busy x = true) : t.Manned l :=
  ⟨fun x hx => h.idle x (idle x hx), fun x hx hb => h.busy x (connected x hx) (busy x hx hb)⟩

theorem quiet (h : s.Manned l) (hq : Quiet s t) : t.Manned l :=
  h.congr (fun x hx => hq.idleSolvers ▸ hx) (fun x => (hq.connected x).mp)
    fun x _ hb => by rwa [State.busy, hq.node] at hb

/-- One solver changes, and gets no node. -/
theorem update {d : SolverData} (h : s.Manned l) (solver : t.solver = Function.update s.solver x d)
    (rlist : t.rlist = s.rlist) (kind : t.kind = s.kind) (idle : t.idleSolvers = s.idleSolvers)
    (hd : d.node.isSome = true → s.busy x = true) : t.Manned l := by
  refine h.congr (fun y hy => idle ▸ hy) (fun y hy => ?_) fun y _ hb => ?_
  · rwa [State.Connected, rlist, kind] at hy
  · rw [State.busy, solver] at hb
    by_cases hy : y = x
    · subst hy
      exact hd (by simpa using hb)
    · simpa [State.busy, hy] using hb

/-- Nobody is missing after an action, unless it gives a node to a solver that had none. -/
theorem act {hindered : Prop} (h : s.Manned l) (hs : Consistent s) (a : Act)
    (ha : a.Allowed hindered s) (hne : ∀ x n m, a ≠ .solve x n m) : (a.apply s).Manned l := by
  have self : (a.apply s).idleSolvers = s.idleSolvers → (a.apply s).rlist.Sublist s.rlist →
      (a.apply s).kind = s.kind → (a.apply s).solver = s.solver → (a.apply s).Manned l := by
    intro idle rlist kind solver
    refine h.congr (fun y hy => idle ▸ hy) (fun y hy => ⟨rlist.subset hy.1, kind ▸ hy.2⟩)
      fun y _ hb => by rwa [State.busy, solver] at hb
  cases a with
  | solve x n m => exact absurd rfl (hne x n m)
  | move x n m =>
    obtain ⟨_, a, hnode, _⟩ := ha.1
    exact h.update (x := x) rfl rfl rfl rfl fun _ => by simp [State.busy, hnode]
  | leave x => exact h.update (x := x) rfl rfl rfl rfl fun hd => by cases hd
  | ask x n => exact h.update (x := x) rfl rfl rfl rfl id
  | report x n status => exact h.update (x := x) rfl rfl rfl rfl id
  | reply x o partitions => exact h.update (x := x) rfl rfl rfl rfl id
  | idleAdd x =>
    obtain ⟨hx, _, i, n, _, hnode, _⟩ := ha.2
    refine ⟨fun y hy => ?_, h.busy⟩
    rcases List.mem_append.mp hy with hy | hy
    · exact h.idle y hy
    · obtain rfl := List.mem_singleton.mp hy
      exact h.busy y hx (by simp [State.busy, hnode])
  | idleDrop x => exact ⟨fun y hy => h.idle y (List.mem_of_mem_erase hy), h.busy⟩
  | idleSort l => exact ⟨fun y hy => h.idle y (ha.2.mem_iff.mp hy), h.busy⟩
  | conclude i shown =>
    refine ⟨fun y hy => absurd hy List.not_mem_nil, fun y hy hb => ?_⟩
    have hreset : ((Act.conclude i shown).apply s).solver y = Solver.reset (s.solver y) := if_pos hy
    rw [State.busy, hreset] at hb
    cases hb
  | create k name =>
    refine h.congr (fun _ hy => hy) (fun y hy => ⟨hy.1, ?_⟩) fun y hy hb => ?_
    · have hne : y ≠ s.nextSock := Nat.ne_of_lt (hs.sockets y hy.1)
      have hk : ((Act.create k name).apply s).kind y = s.kind y := Function.update_of_ne hne _ _
      exact hk.symm.trans hy.2
    · have hne : y ≠ s.nextSock := Nat.ne_of_lt (hs.sockets y hy.1)
      simp only [State.busy, Act.apply, State.create] at hb
      split at hb
      · simpa [State.busy, hne] using hb
      · exact hb
  | enlist x =>
    refine ⟨h.idle, fun y hy hb => ?_⟩
    rcases List.mem_append.mp hy.1 with hmem | hmem
    · exact h.busy y ⟨hmem, hy.2⟩ hb
    · obtain rfl := List.mem_singleton.mp hmem
      have hfree := ha.2.2.2 hy.2
      rw [State.busy, show ((Act.enlist y).apply s).solver = s.solver from rfl, hfree] at hb
      cases hb
  | delist x => exact self rfl List.filter_sublist rfl rfl
  | shut x => exact self rfl List.filter_sublist rfl rfl
  | _ => exact self rfl (.refl _) rfl rfl

end State.Manned

section Keeping

/-- The program keeps the count. -/
abbrev Keeps {α : Type} (l : List SockId) (m : M α) : Prop := Preserves (fun s => s.Counted l) m

theorem State.Counted.crew (h : s.Counted l) (he : t.crew = s.crew) : t.Counted l := by
  obtain ⟨hm, hle⟩ := h
  simp only [State.crew, Prod.mk.injEq] at he
  obtain ⟨hr, hk, hb, hi, ht⟩ := he
  refine ⟨hm.congr (fun y hy => hi ▸ hy) (fun y hy => ?_) fun y _ hy => congrFun hb y ▸ hy, ht ▸ hle⟩
  rwa [State.Connected, hr, hk] at hy

theorem keeps {α : Type} {m : M α} (h : Leaves State.crew m) : Keeps l m :=
  fun s hs => hs.crew (h s)

theorem keeps_idle {f : State → List SockId} (h : ∀ s, ∀ x ∈ f s, x ∈ s.idleSolvers) :
    Keeps l (modify fun s => { s with idleSolvers := f s } : M Unit) :=
  fun s hs => ⟨⟨fun y hy => hs.1.idle y (h s y hy), hs.1.busy⟩, hs.2⟩

theorem keeps_stop (x : SockId) : Keeps l (Solver.stop x) := by
  refine .bind .get fun s => ?_
  split
  · exact .raise _
  · refine .bind (fun t ht => ⟨ht.1.update (x := x) rfl rfl rfl rfl fun hd => ?_, ht.2⟩) fun _ =>
      keeps (by simp)
    cases hd

theorem keeps_conclude (i : InstId) : Keeps l (conclude i) := by
  have gone : Keeps l (modify fun s => { s with current := none, idleSolvers := [] } : M Unit) :=
    fun s hs => ⟨⟨fun y hy => absurd hy List.not_mem_nil, hs.1.busy⟩, hs.2⟩
  have release : Keeps l (release i) := by
    refine .bind .get fun s => .bind (keeps (by simp)) fun xs =>
      .bind (.forEach keeps_stop xs) fun _ => .bind (keeps (by simp)) fun r => ?_
    split
    · exact .bind (keeps (by simp)) fun _ => gone
    · exact gone
  have rest (returned : Bool) : Keeps l (if returned then return true else do
      printResult i
      Server.release i
      return false : M Bool) :=
    .ite (.pure _) (.bind (keeps (by simp)) fun _ => .bind release fun _ => .pure _)
  refine .bind .get fun s => .ite (.bind (keeps (by simp)) fun b => .ite (rest true) ?_) (rest false)
  exact .bind (.when (.raise _)) fun _ => rest false

theorem keeps_collect (acc xs : List SockId) : Keeps l (foldEach collectSolver acc xs) := by
  refine .foldEach (fun acc x => .bind .get fun s => .ite ?_ ?_) acc xs
  · exact .bind (keeps_idle fun _ _ hy => List.mem_of_mem_erase hy) fun _ => .pure _
  · exact .bind (keeps (by simp)) fun _ => .pure _

theorem keeps_passUnsat (n : NodeId) (solved : List SockId) : Keeps l (passUnsat n solved) := by
  have rest (solved : List SockId) : Keeps l (collectAt n solved) :=
    .bind (keeps (by simp)) fun _ => .bind (keeps (by simp)) fun xs => keeps_collect _ _
  refine .bind .get fun s => ?_
  dsimp only
  split
  · exact .bind (.pure _) rest
  · refine .ite (.bind (keeps (by simp)) fun xs => ?_) (.bind (.pure _) rest)
    exact .bind (keeps_collect _ _) fun _ => .bind (keeps (by simp)) fun _ => .bind (.pure _) rest

theorem keeps_addIdle (counted : Bool) (hx : x ∈ l) : Keeps l (addIdle counted x) := by
  refine .bind .get fun s => .when (.bind (fun t ht => ⟨⟨fun y hy => ?_, ht.1.busy⟩, ht.2⟩) fun _ =>
    keeps (.when (by simp)))
  rcases List.mem_append.mp hy with hy | hy
  · exact ht.1.idle y hy
  · exact List.mem_singleton.mp hy ▸ hx

theorem wp_crewSolvers (w : Which) : wp (solvers w)
    (fun xs t => t.crew = s.crew ∧ xs.Perm (s.solvers w)) (fun _ t => t.crew = s.crew) s := by
  have order : wp (solvers w) (fun xs _ => xs.Perm (s.solvers w)) (fun _ _ => True) s :=
    wp_inOrder (E := fun _ _ => True) fun _ _ _ hl => hl
  exact wp_mono (wp_and (Leaves.wp (f := State.crew) (I := fun c => c = s.crew) (by simp) rfl) order)
    (fun _ _ h => h) fun _ _ h => h.1

/-- The solvers of a node are among those that are counted. -/
theorem keeps_addIdles (counted : Bool) (n : NodeId) :
    Keeps l (do forEach (addIdle counted) (← solvers (.at (some n)))) := by
  refine .bind_of (Q := fun xs => ∀ x ∈ xs, x ∈ l) (fun s hs => ?_) fun xs hxs =>
    .forEach_of fun x hx => keeps_addIdle counted (hxs x hx)
  refine wp_mono (wp_crewSolvers _) (fun xs t ⟨ht, hperm⟩ => ⟨hs.crew ht, fun x hx => ?_⟩)
    fun _ t ht => hs.crew ht
  obtain ⟨hc, hw⟩ := State.mem_solvers.mp (hperm.mem_iff.mp hx)
  refine hs.1.busy x hc ?_
  have hnode : (s.solver x).node = some n := by simpa [Which.holds] using hw
  simp [State.busy, hnode]

theorem keeps_passTimeout (n : NodeId) : Keeps l (passTimeout n) := by
  have assume (c : Prop) [Decidable c] : Keeps l (when c (suspend n)) := by
    refine .when ?_
    have rest : Keeps l ((do forEach (addIdle true) (← solvers (.at (some n)))) >>= fun _ =>
        modifyNode n fun a => { a with assumedTimout := true }) :=
      .bind (keeps_addIdles true n) fun _ => keeps (by simp)
    rwa [bind_bind] at rest
  have done (counted : Bool) : Keeps l (retire n counted) := by
    have rest : Keeps l ((do forEach (addIdle counted) (← solvers (.at (some n)))) >>= fun _ => do
        modifyNode n fun a => { a with processed := true }
        modifyNode n fun a => { a with isTimeout := true }) :=
      .bind (keeps_addIdles counted n) fun _ => keeps (.bind (by simp) fun _ => by simp)
    rwa [bind_bind] at rest
  refine .bind .get fun s => ?_
  dsimp only
  split
  · split
    · exact .bind (.raise _) fun split => .ite (done _) (assume _)
    · exact .bind (.pure _) fun split => .ite (done _) (assume _)
  · exact .bind (.pure _) fun split => .ite (done _) (assume _)

theorem keeps_passNode (i : InstId) (acc : Pass) (n : NodeId) : Keeps l (passNode i acc n) := by
  have last (solved : List SockId) : Keeps l (aim acc n solved) :=
    .bind .get fun s => .ite (.pure _) (.pure _)
  refine .bind .get fun s => .ite (.bind (.when (.raise _)) fun _ => .ite ?_ ?_) (.pure _)
  · exact .bind (keeps_passUnsat n _) last
  · refine .bind (keeps (by simp)) fun late => .ite ?_ (.bind .get fun s => ?_)
    · exact .bind (keeps_passTimeout n) fun _ => .bind (.pure _) last
    · exact .bind (keeps (.when (by simp))) fun _ => .bind (.pure _) last

theorem keeps_survey (fuel : Nat) (i : InstId) : Keeps l (survey fuel i) :=
  .bind .get fun s => .bind (.foldEach (keeps_passNode i) _ _) fun pass =>
    .bind (keeps (by simp)) fun _ => .pure _

theorem keeps_reassignTo (leaf : NodeId) : Keeps l (reassignTo leaf) := by
  refine .bind .get fun s => .when (.bind (keeps (by simp)) fun x => ?_)
  split
  · exact .pure _
  · exact .bind (keeps_idle fun _ _ hy => List.mem_of_mem_erase hy) fun _ => keeps (by simp)

theorem keeps_reassign (nodes : List NodeId) (pass : Pass) : Keeps l (reassign nodes pass) := by
  have sendIdle (target : NodeId) : Keeps l (sendIdle target) := by
    refine .bind .get fun s => .ite (.raise _)
      (.bind (keeps_idle fun u y hy => ?_) fun _ => .bind .get fun s => ?_)
    · rcases List.mem_append.mp hy with hy | hy
      · exact List.mem_of_mem_filter hy
      · exact List.mem_of_mem_filter hy
    · split
      · exact .pure _
      · refine .when (.bind (keeps (by simp)) fun _ => ?_)
        exact keeps_idle fun _ _ hy => List.mem_of_mem_erase hy
  refine .bind .get fun s => .when (.bind (.forEach keeps_reassignTo _) fun _ => .bind .get fun s => ?_)
  refine .bind (.when (.raise _)) fun _ => ?_
  split
  · exact .when (sendIdle _)
  · exact .pure _

theorem keeps_distribute (fuel : Nat) (i : InstId) (p : Option PNode) (nodes : List NodeId)
    (pass : Pass) : Keeps l (distribute fuel i p nodes pass) := by
  have rest : Keeps l (redistribute i nodes pass) :=
    .bind (keeps_reassign _ _) fun _ => keeps (by simp)
  cases p with
  | none => exact rest
  | some p => exact .bind (keeps (by simp)) fun _ => rest

/-- A solver that is counted gets the root. -/
theorem keeps_startSolver (i : InstId) (hx : x ∈ l) : Keeps l (startSolver i x) := by
  intro s hs
  have roll : (startSolver i x s).2.roll = s.roll := untouched_startSolver i x s
  simp only [State.roll, Prod.mk.injEq] at roll
  obtain ⟨hr, hk, hi, ht⟩ := roll
  refine ⟨⟨fun y hy => hs.1.idle y (hi ▸ hy), fun y hy hb => ?_⟩, ht ▸ hs.2⟩
  by_cases hyx : y = x
  · exact hyx ▸ hx
  · have : HidesSolver (fun s : State => s.busy y) x := ⟨fun s d => by simp [State.busy, hyx]⟩
    have hbusy : (startSolver i x s).2.busy y = s.busy y :=
      untouched_startSolver (v := fun s : State => s.busy y) i x s
    rw [State.Connected, hr, hk] at hy
    exact hs.1.busy y hy (hbusy ▸ hb)

end Keeping

/-- All solvers that work or are idle are counted in `total_solvers`. -/
def State.Staffed (s : State) : Prop := ∃ l, s.Counted l

theorem staffed {α : Type} {m : M α} (h : ∀ l, Keeps l m) : Preserves State.Staffed m :=
  fun s ⟨l, hl⟩ => ⟨l, h l s hl⟩

/-- Every solver that joins is counted. -/
theorem staffed_welcome (i : InstId) : Preserves State.Staffed (welcome i) := by
  have one (x : SockId) : Preserves State.Staffed (do
      modify fun s => { s with totalSolvers := s.totalSolvers + 1 }
      startSolver i x) := by
    intro s ⟨l, hl⟩
    refine ⟨x :: l, keeps_startSolver i List.mem_cons_self _ ⟨?_, ?_⟩⟩
    · exact ⟨fun y hy => List.mem_cons_of_mem _ (hl.1.idle y hy),
        fun y hy hb => List.mem_cons_of_mem _ (hl.1.busy y hy hb)⟩
    · have hlen : (l.length : Int) ≤ s.totalSolvers := hl.2
      simp only [List.length_cons]
      omega
  refine .bind .get fun s => .bind (staffed fun l => keeps (by simp)) fun xs => .forEach one xs

/-- With a new instance all connected solvers are counted. -/
theorem staffed_startNext (hs : s.Staffed) (hidle : s.idleSolvers = []) :
    (startNext s).2.Staffed := by
  refine wp_final (Leaves.wp_bind (f := State.crew) (by simp) (fun is t ht => ?_) fun e t ht => ?_)
  · cases is with
    | nil =>
      obtain ⟨l, hl⟩ := hs
      exact ⟨l, hl.crew ht⟩
    | cons i rest =>
      rw [wp_bind, wp_modify, wp_bind, wp_modify]
      generalize hu : ({ t with current := some i } : State) = u
      have hidle : u.idleSolvers = [] := by
        rw [← hu]
        exact (congrArg (fun c => c.2.2.2.1) ht).trans hidle
      have hl :
          State.Counted { u with totalSolvers := (u.solvers .all).length } (u.solvers .all) := by
        refine ⟨⟨fun x hx => ?_, fun x hx _ => State.mem_solvers.mpr ⟨hx, rfl⟩⟩, Int.le_refl _⟩
        exact absurd (hidle ▸ hx) List.not_mem_nil
      rw [wp_bind]
      refine wp_mono (wp_crewSolvers _) (fun xs v ⟨hv, hperm⟩ => ?_) fun _ v hv => ⟨_, hl.crew hv⟩
      have start : Keeps (u.solvers .all) (do
          forEach (fun x => do
            startSolver i x
            modifyConfig fun c => { c with partitionCount := 0 }) xs
          return true : M Bool) := by
        refine .bind (.forEach_of fun x hx => ?_) fun _ => .pure _
        have hc := (State.mem_solvers.mp (hperm.mem_iff.mp hx)).1
        exact .bind (keeps_startSolver i (State.mem_solvers.mpr ⟨hc, rfl⟩)) fun _ => keeps (by simp)
      exact wp_mono (start.wp (hl.crew hv)) (fun _ _ h => ⟨_, h⟩) fun _ _ h => ⟨_, h⟩
  · obtain ⟨l, hl⟩ := hs
    exact ⟨l, hl.crew ht⟩

theorem keeps_allDone (solving : Option InstId) : Keeps l (allDone solving) := by
  have shut (x : SockId) : Keeps l (do
      modify fun s => { s with rlist := s.rlist.filter (· ≠ x) }
      closeSocket x) := by
    refine .bind (fun s hs => ⟨?_, hs.2⟩) fun _ s hs => ?_
    · exact hs.1.congr (fun _ hy => hy) (fun y hy => ⟨List.mem_of_mem_filter hy.1, hy.2⟩)
        fun _ _ hb => hb
    · have hq := wp_final (wp_mono (still_closeSocket x s) (fun _ _ h => h) fun _ _ h => h.1)
      refine ⟨hs.1.quiet hq, ?_⟩
      have htotal : (closeSocket x s).2.totalSolvers = s.totalSolvers := untouched_closeSocket x s
      exact htotal ▸ hs.2
  refine .bind .get fun s => .when (.when (.when (.bind ?_ fun _ => .raise _)))
  exact .bind .get fun s => .bind (keeps (by simp)) fun xs => .forEach shut xs

/-- Idle solvers are listed once, and nobody is idle while nothing is solved. -/
structure State.Rested (s : State) : Prop where
  once : s.idleSolvers.Nodup
  free : s.current = none → s.idleSolvers = []

namespace State.Rested

variable {hindered : Prop}

theorem quiet (hs : s.Rested) (hq : Quiet s t) : t.Rested :=
  ⟨hq.idleSolvers ▸ hs.once, fun h => hq.idleSolvers.trans (hs.free (hq.current ▸ h))⟩

theorem act (hs : s.Rested) (a : Act) (ha : a.Allowed hindered s) : (a.apply s).Rested := by
  cases a with
  | idleAdd x =>
    obtain ⟨_, hnew, i, _, hi, _⟩ := ha.2
    refine ⟨hs.once.append (List.nodup_singleton x) (by simpa using hnew), fun h => ?_⟩
    rw [show ((Act.idleAdd x).apply s).current = s.current from rfl, hi] at h
    cases h
  | idleDrop x => exact ⟨hs.once.erase x, fun h => by simp [Act.apply, hs.free h]⟩
  | idleSort l =>
    refine ⟨ha.2.nodup_iff.mpr hs.once, fun h => ?_⟩
    have hl : l.Perm [] := hs.free h ▸ ha.2
    exact hl.eq_nil
  | start i =>
    refine ⟨hs.once, fun h => ?_⟩
    cases h
  | conclude i shown => exact ⟨List.nodup_nil, fun _ => rfl⟩
  | _ => exact ⟨hs.once, hs.free⟩

theorem path {G : Act → State → Prop} (hs : s.Rested) (hG : ∀ a u, G a u → a.Allowed hindered u)
    (h : Path G s t) : t.Rested :=
  h.invariant (fun _ _ hq hu => hu.quiet hq) (fun a u ha hu => hu.act a (hG a u ha)) hs

end State.Rested

section Turns

variable {ev : Event}

theorem staffed_receive (hs : Consistent s) (h : s.Staffed) : (receive ev s).2.Staffed := by
  obtain ⟨l, hm, hle⟩ := h
  have received : Runs (Act.Received True ev s) True (receive ev) (ev.Brings s) s := runs_receive hs
  have hpath : Path (Act.Received True ev s) s (receive ev s).2 :=
    wp_final (wp_mono received (fun _ _ h => h.1) fun _ _ h => h.1)
  have htotal : (receive ev s).2.totalSolvers = s.totalSolvers := untouched_receive ev s
  refine ⟨l, ?_, htotal ▸ hle⟩
  refine (hpath.invariant (I := fun u => Consistent u ∧ u.Manned l)
    (fun _ _ hq hu => ⟨hu.1.quiet hq, hu.2.quiet hq⟩)
    (fun a u ha hu => ⟨hu.1.act a ha.1, hu.2.act hu.1 a ha.1 fun x n m he => ?_⟩) ⟨hs, hm⟩).2
  subst he
  exact ha.2

theorem staffed_proceed (solving : Option InstId) (returned : Bool) (hr : s.Rested)
    (h : s.Staffed) : (proceed solving returned s).2.Staffed := by
  refine wp_final ?_
  rw [proceed]
  split
  · exact h
  · rw [wp_bind, wp_gets]
    cases hc : s.current with
    | none =>
      have next : wp startNext (fun _ t => t.Staffed) (fun _ t => t.Staffed) s :=
        wp_of_run (fun b t ht => by simpa [ht] using staffed_startNext h (hr.free hc))
          fun e t ht => by simpa [ht] using staffed_startNext h (hr.free hc)
      rw [wp_bind]
      refine wp_mono next (fun b t ht => ?_) fun _ _ ht => ht
      have rest : Preserves State.Staffed (do
          if b then pure () else allDone solving
          return none : M (Option InstId)) :=
        .ite (.pure _) (.bind (staffed fun l => keeps_allDone solving) fun _ => .pure _)
      exact rest.wp ht
    | some i =>
      have rest : Preserves State.Staffed (do
          welcome i
          let s ← get
          return if truthy s.config.partitionTimeout ≠ none then some i else none) :=
        .bind (staffed_welcome i) fun _ => .bind .get fun _ => .pure _
      exact rest.wp h

theorem staffed_attend (hs : Consistent s) (hr : s.Rested) (h : s.Staffed) :
    (attend s).2.Staffed := by
  have settled : Runs (Act.Entrusted True s.idleSolvers) True (settle s.current) (fun _ _ => True) s :=
    (runs_settle hs rfl (.inl trivial)).mono fun _ _ _ _ => trivial
  have keep : Preserves State.Staffed (settle s.current) := by
    cases s.current with
    | none => exact .pure _
    | some i =>
      exact .bind (staffed fun l => keeps (by simp)) fun ended =>
        .ite (staffed fun l => keeps_conclude i) (.pure _)
  rw [attend]
  refine wp_final ?_
  rw [wp_bind, wp_gets, wp_bind]
  refine wp_mono (wp_and settled (keep.wp h)) (fun returned t ht => ?_) fun _ _ ht => ht.2
  have hrt : t.Rested := hr.path (fun _ _ ha => ha.1) ht.1.1
  have hfinal := staffed_proceed s.current returned hrt ht.2
  exact wp_of_run (fun _ _ hu => by simpa [hu] using hfinal)
    fun _ _ hu => by simpa [hu] using hfinal

theorem staffed_entrust (hs : Consistent s) (hr : s.Rested) (h : s.Staffed) (fuel : Nat)
    (p : Option PNode) : (entrust fuel p s).2.Staffed := by
  refine wp_final ?_
  rw [entrust, wp_bind]
  have hattend := staffed_attend hs hr h
  refine wp_of_run (fun r t hrun => ?_) fun _ t ht => by simpa [ht] using hattend
  have ht : t.Staffed := by simpa [hrun] using hattend
  cases r with
  | none => exact ht
  | some i =>
    refine Preserves.wp (staffed fun l => ?_) ht
    exact .bind (keeps_survey fuel i) fun _ => keeps_distribute fuel i p _ _

end Turns

end Smts.Server
