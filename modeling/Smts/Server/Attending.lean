import Mathlib.Data.List.Perm.Subperm
import Smts.Server.Concluding

namespace Smts.Server

open Smts.Lib Smts.Lib.Prog

variable {hindered out : Prop} {idle : List SockId} {i : InstId} {s t : State}

theorem still_whenTimeout (i : InstId) : Still (whenTimeout i) := by
  refine Still.get.bind fun s => ?_
  split
  · exact Still.now.bind fun _ => Still.pure _
  · exact Still.pure _

theorem still_configEntrust (name : String) (workers : Nat) :
    Still (configEntrust name workers) := by
  refine Still.get.bind fun s => (Still.foldEach (fun h e => ?_) _ _).bind fun fixed => ?_
  · refine Still.ite ?_ (Still.pure _)
    cases e.2 with
    | text v => exact (Still.pure v).bind fun _ => Still.pure _
    | random => exact Still.random.bind fun _ => (Still.pure _).bind fun _ => Still.pure _
  · exact Still.ite (Still.pure _) (Still.ite (Still.pure _) (Still.pure _))

theorem wp_isOver {Q : Bool → State → Prop} {E : Exn → State → Prop}
    (ended : ∀ t, Quiet s t → isOver i s = (.ok true, t) → Q true t)
    (going : ∀ t, Quiet s t → s.heap.status (s.root i) = .unknown → Q false t)
    (failed : ∀ e t, Quiet s t → e ≠ .noFuel → E e t) : wp (isOver i) Q E s := by
  by_cases hu : s.heap.status (s.root i) = .unknown
  · have hrun : isOver i s = (do return (← whenTimeout i).any (· < 0) : M Bool) s := by
      rw [isOver, bind_run, get_run]
      simp only [hu, ne_eq, not_true_eq_false, if_false]
    have still : Still (do return (← whenTimeout i).any (· < 0) : M Bool) :=
      (still_whenTimeout i).bind fun _ => Still.pure _
    refine wp_of_run (fun b t ht => ?_) fun e t ht => ?_
    · have hq := wp_ok (still s) (hrun.symm.trans ht)
      cases b with
      | true => exact ended t hq ht
      | false => exact going t hq hu
    · have hq := wp_error (still s) (hrun.symm.trans ht)
      exact failed e t hq.1 hq.2
  · have hrun : isOver i s = (.ok true, s) := by
      rw [isOver, bind_run, get_run]
      simp only [hu, ne_eq, not_false_eq_true, if_true]
      rfl
    rw [wp, hrun]
    exact ended s (.refl s) hrun

/-- A free solver gets the root of the current instance. -/
theorem runs_startSolver (hs : Solving i s) {x : SockId} (hx : (s.solver x).node = none) :
    Runs (Act.Inside hindered) out (startSolver i x)
      (fun _ t => ∀ y, y ≠ x → (t.solver y).node = (s.solver y).node) s := by
  have stamp : Still (do
      let s ← get
      when ((s.inst i).started = none) do
        let t ← now
        modifyInst i fun d => { d with started := some t }) :=
    Still.get.bind fun _ => Still.when (Still.now.bind fun _ => Still.modifyInst i fun _ => rfl)
  refine Traced.get (Traced.bind (Runs.still inside_quiet (still_configEntrust _ _))
    fun parameters t ht hqt => ?_)
  refine Traced.bind (Q := fun _ u => Quiet t u)
    (Runs.still inside_quiet fun u => Quiet.of_rest rfl rfl rfl rfl (.refl _) (fun _ => rfl)
      (fun _ => rfl) fun _ => rfl) fun _ u hu hqu => Traced.get ?_
  have hq := hqt.trans hqu
  have hsu := hs.path (ht.trans hu)
  have hfree : (u.solver x).node = none := (hq.node x).trans hx
  refine Traced.bind (Q := fun _ v => ∀ y, y ≠ x → (v.solver y).node = (s.solver y).node) ?_
    fun _ v _ hv => (Runs.still inside_quiet stamp).mono fun _ w _ hw y hy => ?_
  · have guard : ∀ m, (∀ m' ∈ m, Solver.SolveMessage u x (u.root i) m') →
        Act.Inside hindered (.solve x (u.root i) m) u := fun m hm =>
      ⟨⟨⟨hfree, hsu.root, hm⟩, i, hsu.current, rfl⟩, trivial⟩
    refine Solver.wp_solve (fun _ => Solver.wp_assign (fun m v hm hv => ?_) fun e v hv he => ?_)
      fun a ha => ?_
    · refine ⟨Path.act _ (guard (some m) fun m' hm' => ?_) hv, fun y hy => ?_⟩
      · cases hm'
        exact hm
      · rw [hv.node, ← hq.node]
        simp [Act.apply, State.modifySolver, hy]
    · exact ⟨Path.act _ (guard none fun m' hm' => by cases hm') hv, fun h => absurd h he⟩
    · rw [hfree] at ha
      cases ha
  · rw [hw.node, hv y hy]

/-- Free solvers get the root of the current instance, one after the other. -/
theorem runs_startSolvers (hs : Solving i s) {f : SockId → M Unit} {l : List SockId}
    (hf : ∀ u x, Solving i u → (u.solver x).node = none → Runs (Act.Inside hindered) out (f x)
      (fun _ t => ∀ y, y ≠ x → (t.solver y).node = (u.solver y).node) u)
    (hnodup : l.Nodup) (hl : ∀ x ∈ l, (s.solver x).node = none) :
    Runs (Act.Inside hindered) out (forEach f l) (fun _ _ => True) s := by
  refine Traced.mono (Traced.forEach (I := fun as u => as.Nodup ∧
    ∀ x ∈ as, (u.solver x).node = none) ?_ ⟨hnodup, hl⟩) fun _ _ _ _ => trivial
  intro x as u hu ⟨hnodup, hfree⟩
  obtain ⟨hx, hnodup⟩ := List.nodup_cons.mp hnodup
  refine (hf u x (hs.path hu) (hfree x List.mem_cons_self)).mono fun _ v _ hv => ⟨hnodup, ?_⟩
  intro y hy
  rw [hv y fun he => hx (he ▸ hy)]
  exact hfree y (List.mem_cons_of_mem _ hy)

theorem wp_schedulables :
    wp schedulables (fun l t => Quiet s t ∧ ∀ i ∈ l, i ∈ s.trees.map Prod.snd ∧
      s.heap.status (s.root i) = .unknown) (fun e t => Quiet s t ∧ e ≠ .noFuel) s := by
  rw [schedulables, wp_bind, wp_get]
  have start : Quiet s s ∧ (∀ i ∈ ([] : List InstId), i ∈ s.trees.map Prod.snd ∧
      s.heap.status (s.root i) = .unknown) ∧ ∀ e ∈ s.trees, e ∈ s.trees :=
    ⟨.refl s, fun _ hi => absurd hi List.not_mem_nil, fun _ he => he⟩
  refine wp_mono (wp_foldEach (I := fun acc es t => Quiet s t ∧ (∀ i ∈ acc,
    i ∈ s.trees.map Prod.snd ∧ s.heap.status (s.root i) = .unknown) ∧ ∀ e ∈ es, e ∈ s.trees)
    ?_ start) (fun l t ht => ⟨ht.1, ht.2.1⟩) fun _ _ h => h
  intro acc e es t ⟨hq, hacc, hes⟩
  have hes' : ∀ e' ∈ es, e' ∈ s.trees := fun e' he' => hes e' (List.mem_cons_of_mem _ he')
  rw [wp_bind, wp_get]
  split
  · next hu =>
    rw [hq.root, hq.heap.status] at hu
    have hadd : ∀ i ∈ acc ++ [e.2], i ∈ s.trees.map Prod.snd ∧
        s.heap.status (s.root i) = .unknown := by
      intro i hi
      rcases List.mem_append.mp hi with hi | hi
      · exact hacc i hi
      · obtain rfl := List.mem_singleton.mp hi
        exact ⟨List.mem_map_of_mem (hes e List.mem_cons_self), hu⟩
    rw [wp_bind]
    refine (still_whenTimeout e.2).wp (fun r u hu => ?_) fun e u hu he => ⟨hq.trans hu, he⟩
    cases r with
    | none => exact ⟨hq.trans hu, hadd, hes'⟩
    | some time =>
      refine ⟨hq.trans hu, fun i hi => ?_, hes'⟩
      split at hi
      · exact hadd i hi
      · exact hacc i hi
  · exact ⟨hq, hacc, hes'⟩

theorem State.nodup_solvers (hs : Consistent s) (w : Which) : (s.solvers w).Nodup :=
  hs.distinct.filter _

theorem runs_startNext (hs : Consistent s) (hnone : s.current = none) :
    Runs (Act.Entrusted hindered idle) out startNext
      (fun r t => r = false → t.idleSolvers = s.idleSolvers) s := by
  refine Traced.bind (Q := fun l t => Quiet s t ∧ ∀ i ∈ l, i ∈ s.trees.map Prod.snd ∧
      s.heap.status (s.root i) = .unknown)
    (wp_mono wp_schedulables (fun l t ht => ⟨Path.quiet entrusted_quiet ht.1, ht⟩)
      fun e t ht => ⟨Path.quiet entrusted_quiet ht.1, fun h => absurd h ht.2⟩)
    fun l t _ ⟨hq, hl⟩ => ?_
  cases l with
  | nil => exact Traced.pure fun _ => hq.idleSolvers
  | cons i rest =>
    obtain ⟨hmem, hu⟩ := hl i List.mem_cons_self
    have guard : Act.Entrusted hindered idle (.start i) t := by
      refine ⟨⟨trivial, hq.current.trans hnone, ?_, ?_⟩, trivial⟩
      · rwa [hq.trees]
      · rwa [hq.root, hq.heap.status]
    have hst : Solving i ((Act.start i).apply t) :=
      ⟨(hs.quiet hq).act (.start i) guard.1, rfl⟩
    refine Traced.bind (Q := fun _ u => u = (Act.start i).apply t)
      (Runs.act (.start i) guard (Quiet.refl _) rfl) ?_
    rintro _ u _ rfl
    have quiet : Quiet ((Act.start i).apply t) { (Act.start i).apply t with
        totalSolvers := ((Act.start i).apply t |>.solvers .all).length } :=
      Quiet.of_rest rfl rfl rfl rfl (.refl _) (fun _ => rfl) (fun _ => rfl) fun _ => rfl
    refine Traced.bind (Q := fun _ u => Quiet ((Act.start i).apply t) u)
      (Traced.modify ⟨.quiet, entrusted_quiet, quiet⟩ quiet) fun _ u _ hqu => ?_
    refine Traced.bind (runs_solvers entrusted_quiet) fun xs v _ ⟨hqv, hxs⟩ => ?_
    have hsv : Solving i v := ⟨(hst.consistent.quiet hqu).quiet hqv,
      (hqv.current.trans hqu.current).trans hst.current⟩
    refine Traced.seq (Runs.entrusted (runs_startSolvers hsv (fun w x hw hx => ?_) ?_ ?_))
      fun _ _ _ => Traced.pure fun h => nomatch h
    · refine Traced.bind (runs_startSolver hw hx) fun _ w' _ hw' => ?_
      refine (Runs.still inside_quiet (Still.modifyConfig
        (f := fun c => { c with partitionCount := 0 }) (fun _ => rfl) fun _ => rfl)).mono
        fun _ w'' _ hq'' y hy => ?_
      rw [hq''.node, hw' y hy]
    · exact hxs.nodup_iff.mpr (State.nodup_solvers (hst.consistent.quiet hqu) _)
    · intro x hx
      rw [hqv.node]
      have hx := (State.mem_solvers.mp (hxs.mem_iff.mp hx)).2
      simpa [Which.holds] using hx

theorem State.mem_newlyJointSolver {x : SockId} :
    x ∈ s.newlyJointSolver ↔ s.Connected x ∧ (s.solver x).node = none ∧
      (s.solver x).started = none := by
  simp [State.newlyJointSolver, State.Connected, and_assoc]

theorem runs_welcome (hs : Solving i s) :
    Runs (Act.Inside hindered) out (welcome i) (fun _ _ => True) s := by
  refine Traced.get (Traced.bind (runs_inOrder inside_quiet) fun xs t ht ⟨hq, hxs⟩ => ?_)
  refine runs_startSolvers (hs.path ht) (fun u x hu hx => ?_)
    (hxs.nodup_iff.mpr (hs.consistent.distinct.filter _)) fun x hx => ?_
  · have quiet : Quiet u { u with totalSolvers := u.totalSolvers + 1 } :=
      Quiet.of_rest rfl rfl rfl rfl (.refl _) (fun _ => rfl) (fun _ => rfl) fun _ => rfl
    refine Traced.bind (Q := fun _ v => Quiet u v)
      (Traced.modify ⟨.quiet, inside_quiet, quiet⟩ quiet) fun _ v hv hqv => ?_
    refine (runs_startSolver (hu.path hv) ((hqv.node x).trans hx)).mono fun _ w _ hw y hy => ?_
    rw [hw y hy, hqv.node]
  · exact (hq.node x).trans (State.mem_newlyJointSolver.mp (hxs.mem_iff.mp hx)).2.1

theorem still_closeSocket (x : SockId) : Still (closeSocket x) := by
  intro s
  cases hs : s.sock x with
  | none =>
    simp only [wp, closeSocket, hs]
    exact ⟨.refl s, by decide⟩
  | some c =>
    simp only [wp, closeSocket, hs]
    exact { Quiet.refl s with env := rfl }

/-- All sockets are shut, while nobody becomes idle. -/
theorem runs_closeServer {G : Act → State → Prop} (quiet : ∀ u, G .quiet u)
    (shut : ∀ x u, u.idleSolvers = s.idleSolvers → G (.shut x) u) :
    Runs G out closeServer (fun _ _ => True) s := by
  refine Traced.get (Traced.bind (runs_inOrder (quiet s)) fun xs t _ ⟨hq, _⟩ => ?_)
  refine Traced.mono (Traced.forEach (I := fun _ u => u.idleSolvers = s.idleSolvers) ?_
    hq.idleSolvers) fun _ _ _ _ => trivial
  intro x as u _ hu
  refine Traced.bind (Q := fun _ v => v.idleSolvers = s.idleSolvers)
    (Runs.act (.shut x) (shut x u hu) (Quiet.refl _) hu) fun _ v _ hv => ?_
  exact (Runs.still (quiet v) (still_closeSocket x)).mono fun _ w _ hw => hw.idleSolvers.trans hv

theorem runs_allDone {solving : Option InstId} (free : solving ≠ none → s.idleSolvers = []) :
    Runs (Act.Entrusted hindered idle) out (allDone solving) (fun _ _ => True) s := by
  refine Traced.get (Traced.when (fun hsol => ?_) fun _ => trivial)
  refine Traced.when (fun _ => Traced.when (fun _ => ?_) fun _ => trivial) fun _ => trivial
  refine Traced.seq (runs_closeServer (fun _ => entrusted_quiet) fun x u hu => ?_)
    fun _ _ _ => Runs.raise (by decide)
  exact ⟨⟨trivial, trivial⟩, hu.trans (free hsol)⟩

/-- When `entrust` finds the current instance over, nothing stands in the way of
concluding it. -/
def State.Concludable (s : State) : Prop :=
  ∀ i t, s.current = some i → isOver i s = (.ok true, t) → t.Stuck i ∨ Unhindered t i

/-- The instance that `attend` goes on with was the current one, and is not over. -/
def Attended (s : State) (r : Option InstId) (t : State) : Prop :=
  ∀ i, r = some i → Solving i t ∧ Fixed s t ∧ t.heap.status (t.root i) = .unknown

/-- The second half of `attend`. -/
theorem runs_proceed {solving : Option InstId} {returned : Bool} (hs : Consistent s)
    (free : s.current = none → solving ≠ none → s.idleSolvers = [])
    (unknown : returned = false → ∀ i, s.current = some i → s.heap.status (s.root i) = .unknown) :
    Runs (Act.Entrusted hindered idle) out (proceed solving returned)
      (Attended s) s := by
  rw [proceed]
  refine Traced.ite (fun _ => Traced.pure fun _ h => nomatch h) fun hret => Traced.gets ?_
  cases hc : s.current with
  | none =>
    refine Traced.bind (runs_startNext hs hc) fun r t _ hidle => ?_
    cases r with
    | true => exact Traced.pure fun _ h => nomatch h
    | false =>
      refine Traced.seq (runs_allDone fun hsol => ?_) fun _ _ _ => Traced.pure fun _ h => nomatch h
      exact (hidle rfl).trans (free hc hsol)
  | some i =>
    have inside : Runs (Act.Inside hindered) out (welcome i)
        (fun _ t => Path (Act.Inside hindered) s t) s :=
      (runs_welcome ⟨hs, hc⟩).mono fun _ _ h _ => h
    refine Traced.bind inside.entrusted fun _ t _ ht => Traced.get (Traced.pure fun j hj => ?_)
    obtain rfl : i = j := by
      split at hj
      · exact Option.some.inj hj
      · cases hj
    have hf := Fixed.path ht
    refine ⟨Solving.path ⟨hs, hc⟩ ht, hf, ?_⟩
    rw [hf.root, hf.status]
    exact unknown (Bool.eq_false_iff.mpr hret) i hc

theorem Attended.quiet {r : Option InstId} {u : State} (h : Attended t r u) (hq : Quiet s t) :
    Attended s r u := by
  intro i hi
  obtain ⟨hs, hf, hu⟩ := h i hi
  exact ⟨hs, (Fixed.quiet hq).trans hf, hu⟩

theorem runs_isOver :
    Runs (Act.Entrusted hindered idle) out (isOver i) (fun b t => Quiet s t ∧
      (b = true → isOver i s = (.ok true, t)) ∧
      (b = false → s.heap.status (s.root i) = .unknown)) s :=
  wp_isOver
    (fun _ ht hover => ⟨Path.quiet entrusted_quiet ht, ht, fun _ => hover, fun h => nomatch h⟩)
    (fun _ ht hu => ⟨Path.quiet entrusted_quiet ht, ht, fun h => absurd h (by decide), fun _ => hu⟩)
    fun _ _ ht he => ⟨Path.quiet entrusted_quiet ht, fun h => absurd h he⟩

/-- An instance that is not given up is the current one still, and it is not over. -/
theorem runs_settle (hs : Consistent s) (hidle : s.idleSolvers = idle)
    (clear : hindered ∨ s.Concludable) :
    Runs (Act.Entrusted hindered idle) out (settle s.current) (fun returned t =>
      (t.current = none → s.current ≠ none → returned = false → t.idleSolvers = []) ∧
      ∀ i, returned = false → t.current = some i →
        Quiet s t ∧ t.heap.status (t.root i) = .unknown) s := by
  cases hc : s.current with
  | none =>
    refine Traced.pure ⟨fun _ h => absurd rfl h, fun i _ hi => ?_⟩
    cases hc.symm.trans hi
  | some i =>
    refine Traced.bind runs_isOver fun b t _ ⟨hq, hover, hgoing⟩ => ?_
    have hst : Solving i t := ⟨hs.quiet hq, hq.current.trans hc⟩
    refine Traced.ite (fun hb => ?_) fun hb => Traced.pure ⟨fun hn => ?_, fun j _ hj => ⟨hq, ?_⟩⟩
    · refine (runs_conclude hst (hq.idleSolvers.trans hidle)
        (clear.imp_right fun h => h i t hc (hover hb))).mono fun returned u _ hu =>
          ⟨fun _ _ hr => (hu hr).2, fun j hr hj => ?_⟩
      cases (hu hr).1.symm.trans hj
    · cases hst.current.symm.trans hn
    · rw [hst.current, Option.some.injEq] at hj
      rw [← hj, hq.heap.status, hq.root]
      exact hgoing (Bool.eq_false_iff.mpr hb)

theorem runs_attend (hs : Consistent s) (hidle : s.idleSolvers = idle)
    (clear : hindered ∨ s.Concludable) :
    Runs (Act.Entrusted hindered idle) out attend (Attended s) s := by
  refine Traced.gets (Traced.bind (runs_settle hs hidle clear) fun returned t ht ⟨hfree, hgoing⟩ => ?_)
  cases returned with
  | true => exact Traced.pure fun _ h => nomatch h
  | false =>
    have hst : Consistent t := hs.path (fun _ _ ha => ha.1) ht
    refine (runs_proceed hst (fun hn hsol => hfree hn hsol rfl) fun _ i hi =>
      (hgoing i rfl hi).2).mono fun r u _ hu i hi => ?_
    obtain ⟨hsu, hf, _⟩ := hu i hi
    exact hu.quiet (hgoing i rfl (hf.current.symm.trans hsu.current)).1 i hi

/-- The tree of the current instance has a node for the solvers of solved nodes to go to. -/
def State.Open (s : State) (i : InstId) : Prop :=
  (∃ n, s.heap.Reaches (s.root i) n ∧ s.heap.isAnd n = true ∧ s.heap.status n = .unsat) →
    ∀ childs, s.heap.childeren (s.root i) = .ok childs → ∃ c ∈ childs, s.Live c

theorem Pass.Fits.length_le {acc : Pass} (h : acc.Fits i s) : acc.solved.length ≤ s.rlist.length :=
  (h.once.subperm fun x hx => (h.connected x hx).1).length_le

theorem Fixed.movableBound (hf : Fixed s t) (p : PNode) : t.movableBound p = s.movableBound p := by
  cases p with
  | text => rw [State.movableBound, State.movableBound, hf.rlist]
  | node n =>
    rw [State.movableBound, State.movableBound, hf.rlist,
      Heap.pathToNode_congr hf.forest hf.label]

theorem Fixed.spares (hf : Fixed s t) : t.Spares ↔ s.Spares := by
  rw [State.Spares, State.Spares, hf.portfolioMin, State.solvers, State.solvers, hf.rlist, hf.kind]
  rfl

/-- What makes the loops of `entrust` end. -/
structure Lively (hindered : Prop) (fuel : Nat) (p : Option PNode) (s : State) : Prop where
  rounds : s.rlist.length ≤ fuel
  relocate : ∀ i t, Path (Act.Entrusted hindered s.idleSolvers) s t → Solving i t →
    t.heap.status (t.root i) = .unknown → t.Open i
  spread : ∀ q, p = some q →
    s.movableBound q ≤ fuel ∧ (s.Spares → q.childeren s.heap ≠ .ok [])

theorem runs_entrust (hs : Consistent s) {fuel : Nat} {p : Option PNode}
    (hp : ∀ q, p = some q → ∀ i, s.current = some i → q.Here i s)
    (clear : hindered ∨ s.Concludable) (live : out ∨ Lively hindered fuel p s) :
    Runs (Act.Entrusted hindered s.idleSolvers) out (entrust fuel p) (fun _ _ => True) s := by
  refine Traced.bind (runs_attend hs rfl clear) fun r t ht hr => ?_
  cases r with
  | none => exact Traced.pure trivial
  | some i =>
    obtain ⟨hst, hf, hu⟩ := hr i rfl
    have survey : Runs (Act.Inside hindered) out (survey fuel i) (fun r u =>
        Path (Act.Inside hindered) t u ∧ (∀ n ∈ r.1, u.heap.Reaches (u.root i) n) ∧
          r.2.Fits i u) t := by
      refine (runs_survey hst (live.imp_right fun h acc u hu' hacc => ?_)).mono
        fun _ _ hp h => ⟨hp, h⟩
      have hfu := Fixed.path hu'
      refine ⟨Nat.le_trans hacc.length_le ?_, fun hne => ?_⟩
      · rw [hfu.rlist, hf.rlist]
        exact h.rounds
      · refine h.relocate i u (ht.trans hu'.entrusted) (hst.path hu') ?_ (hacc.cause hne)
        rw [hfu.root, hfu.status]
        exact hu
    refine Traced.bind survey.entrusted fun r u _ ⟨hu', hnodes, hpass⟩ => ?_
    have hfu := hf.trans (Fixed.path hu')
    refine runs_distribute (hst.path hu') (fun q hq => ?_) hnodes hpass
      (live.imp_right fun h q hq => ?_)
    · exact (hp q hq i (hf.current.symm.trans hst.current)).fixed hfu
    · obtain ⟨hbound, hne⟩ := h.spread q hq
      rw [hfu.movableBound, hfu.spares, PNode.childeren_congr hfu.forest hfu.status]
      exact ⟨hbound, hne⟩

end Smts.Server
