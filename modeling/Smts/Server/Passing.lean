import Smts.Server.Tracing

namespace Smts.Server

open Smts.Lib Smts.Lib.Prog

variable {hindered out : Prop} {i : InstId} {s t : State}

theorem Act.Calm.inside {a : Act} (hc : a.Calm) (ha : a.Allowed hindered s) :
    a.Inside hindered s := ⟨ha, hc⟩

theorem inside_quiet : Act.Inside hindered .quiet s := Act.Calm.inside trivial ⟨trivial, trivial⟩

theorem Solving.listed (h : Solving i s) {n : NodeId} (hn : s.heap.Reaches (s.root i) n)
    (ha : s.heap.isAnd n = true) : s.heap.Listed n :=
  ⟨hn.lt_size h.root.1, ha, h.root.2.2.below hn⟩

theorem Solving.root_of (h : Solving i s) {n : NodeId} (hn : s.heap.Reaches (s.root i) n) :
    s.heap.root n = s.root i := by
  rw [hn.root_eq, h.root_root]

theorem runs_collectSolver {acc : List SockId} {x : SockId} :
    Runs (Act.Inside hindered) out (collectSolver acc x)
      (fun r _ => r = if x ∈ acc then acc else acc ++ [x]) s := by
  refine Traced.get (Traced.ite (fun _ => ?_) fun _ => ?_)
  · refine Traced.seq ?_ fun _ _ _ => Traced.pure rfl
    exact Runs.act (.idleDrop x) (Act.Calm.inside trivial ⟨trivial, trivial⟩) (Quiet.refl _) trivial
  · refine Traced.seq ?_ fun _ _ _ => Traced.pure rfl
    exact Runs.quietly inside_quiet (Still.modifyConfig (fun _ => rfl) fun _ => rfl)

theorem runs_collect {acc l : List SockId} :
    Runs (Act.Inside hindered) out (foldEach collectSolver acc l)
      (fun r _ => (∀ x ∈ r, x ∈ acc ∨ x ∈ l) ∧ (acc.Nodup → r.Nodup)) s := by
  have start : (∀ x ∈ acc, x ∈ acc ∨ x ∈ l) ∧ (acc.Nodup → acc.Nodup) ∧ ∀ x ∈ l, x ∈ l :=
    ⟨fun _ hx => .inl hx, fun h => h, fun _ hx => hx⟩
  refine Traced.mono (Traced.foldEach (I := fun r as _ =>
    (∀ x ∈ r, x ∈ acc ∨ x ∈ l) ∧ (acc.Nodup → r.Nodup) ∧ ∀ x ∈ as, x ∈ l) ?_ start)
    fun r t _ hr => ⟨hr.1, hr.2.1⟩
  intro r x as t _ ⟨hsub, hnodup, hl⟩
  refine runs_collectSolver.mono fun r' u _ hr' => ?_
  subst hr'
  refine ⟨fun y hy => ?_, fun hacc => ?_, fun y hy => hl y (List.mem_cons_of_mem _ hy)⟩
  · split at hy
    · exact hsub y hy
    · rcases List.mem_append.mp hy with hy | hy
      · exact hsub y hy
      · exact .inr (List.mem_singleton.mp hy ▸ hl x List.mem_cons_self)
  · split
    · exact hnodup hacc
    · next hx => exact (hnodup hacc).append (List.nodup_singleton x) (by simpa using hx)

theorem runs_process {n : NodeId}
    (h : s.heap.status n ≠ .unknown ∨ ∃ o ∈ s.heap.children n, s.heap.children o ≠ []) :
    Runs (Act.Inside hindered) out (modifyNode n fun a => { a with processed := true })
      (fun _ _ => True) s :=
  Runs.act (.process n) (Act.Calm.inside trivial ⟨trivial, h⟩) (Quiet.refl _) trivial

/-- The collected solvers are connected, and each is collected once. -/
theorem runs_passUnsat (hs : Solving i s) {n : NodeId} {solved : List SockId}
    (hn : s.heap.Reaches (s.root i) n) (hu : s.heap.status n = .unsat) :
    Runs (Act.Inside hindered) out (passUnsat n solved)
      (fun r _ => (∀ x ∈ r, x ∈ solved ∨ s.Connected x) ∧ (solved.Nodup → r.Nodup)) s := by
  have rest : ∀ r t, Path (Act.Inside hindered) s t →
      (∀ x ∈ r, x ∈ solved ∨ s.Connected x) ∧ (solved.Nodup → r.Nodup) →
      Runs (Act.Inside hindered) out (collectAt n r)
        (fun r _ => (∀ x ∈ r, x ∈ solved ∨ s.Connected x) ∧ (solved.Nodup → r.Nodup)) t := by
    intro r t ht hr
    have hknown : t.heap.status n ≠ .unknown := by
      rw [(Fixed.path ht).status, hu]
      decide
    refine Traced.seq (runs_process (.inl hknown)) fun _ u hu => ?_
    refine Traced.bind (runs_solversAt inside_quiet) fun l v hv ⟨_, hl⟩ => ?_
    refine runs_collect.mono fun r' w _ hr' => ⟨fun x hx => ?_, fun h => hr'.2 (hr.2 h)⟩
    rcases hr'.1 x hx with hx | hx
    · exact hr.1 x hx
    · exact .inr (((Fixed.path ((ht.trans hu).trans hv)).connected x).mp (hl x hx).1)
  refine Traced.get ?_
  cases hg : (s.heap.truthyParent n).bind s.heap.parent with
  | none => exact rest solved s (.refl s) ⟨fun _ hx => .inl hx, fun h => h⟩
  | some g =>
    refine Traced.ite (fun _ => ?_) fun _ =>
      rest solved s (.refl s) ⟨fun _ hx => .inl hx, fun h => h⟩
    obtain ⟨o, ho, hog⟩ := Option.bind_eq_some_iff.mp hg
    obtain ⟨hpar, hne⟩ := Heap.truthyParent_eq_some.mp ho
    have hatt : s.heap.Attached o := Forest.Attached.parent (hs.root.2.2.below hn) hpar
    have hmem : o ∈ s.heap.children g := hatt.mem_of_parent hog
    refine Traced.bind (runs_solversAt inside_quiet) fun l t ht ⟨hq, hl⟩ => ?_
    refine Traced.bind runs_collect fun r u hu hr => ?_
    have hf : u.heap.toForest = s.heap.toForest := (Fixed.path (ht.trans hu)).forest
    refine Traced.seq (runs_process (.inr ⟨o, hf ▸ hmem, hf ▸ hne⟩)) fun _ v hv => ?_
    refine rest r v ((ht.trans hu).trans hv) ⟨fun x hx => ?_, hr.2⟩
    exact (hr.1 x hx).imp_right fun hx => (hq.connected x).mp (hl x hx).1

theorem runs_addIdle (hs : Solving i s) {counted : Bool} {x : SockId} {n : NodeId}
    (hx : s.Connected x) (hn : (s.solver x).node = some n) :
    Runs (Act.Inside hindered) out (addIdle counted x)
      (fun _ t => ∀ y, (t.solver y).node = (s.solver y).node) s := by
  refine Traced.get (Traced.when (fun hidle => ?_) fun _ _ => rfl)
  have hG : Act.Inside hindered (.idleAdd x) s :=
    Act.Calm.inside trivial ⟨trivial, hx, hidle, i, n, hs.current, hn, hs.here (.inl hx) hn⟩
  refine Traced.bind (Q := fun _ t => t.solver = s.solver)
    (Runs.act (.idleAdd x) hG (Quiet.refl _) rfl) fun _ t _ ht => ?_
  have still := Still.when (c := counted = true) (Still.modifyConfig
    (f := fun c => { c with partitionCount := c.partitionCount - 1 }) (fun _ => rfl) fun _ => rfl)
  exact (Runs.still inside_quiet still).mono fun _ u _ hu y => ht ▸ hu.node y

/-- All solvers of a node become idle. -/
theorem runs_addIdles (hs : Solving i s) {counted : Bool} {n : NodeId} {l : List SockId}
    (hl : ∀ x ∈ l, s.Connected x ∧ (s.solver x).node = some n) :
    Runs (Act.Inside hindered) out (forEach (addIdle counted) l) (fun _ _ => True) s := by
  refine Traced.mono (Traced.forEach (I := fun as u =>
    ∀ x ∈ as, u.Connected x ∧ (u.solver x).node = some n) ?_ hl) fun _ _ _ _ => trivial
  intro x as u hu hI
  obtain ⟨hc, hn⟩ := hI x List.mem_cons_self
  refine (runs_addIdle (hs.path hu) hc hn).mono fun _ v hv hnode y hy => ?_
  obtain ⟨hc', hn'⟩ := hI y (List.mem_cons_of_mem _ hy)
  exact ⟨((Fixed.path hv).connected y).mpr hc', (hnode y).trans hn'⟩

theorem runs_passTimeout (hs : Solving i s) {n : NodeId} :
    Runs (Act.Inside hindered) out (passTimeout n) (fun _ _ => True) s := by
  have assume : Runs (Act.Inside hindered) out (when ((s.heap.attrs n).assumedTimout = false)
      (suspend n)) (fun _ _ => True) s := by
    refine Traced.when (fun _ => ?_) fun _ => trivial
    refine Traced.bind (runs_solversAt inside_quiet) fun l t ht ⟨_, hl⟩ => ?_
    refine Traced.seq (runs_addIdles (hs.path ht) hl) fun _ u _ => ?_
    exact Runs.quietly inside_quiet
      (Still.modifyNode (f := fun a => { a with assumedTimout := true }) n (fun _ => rfl)
        (fun _ => rfl) fun _ => rfl)
  refine Traced.get (Traced.ite (fun _ => ?_) fun _ => assume)
  cases hc : s.heap.children n with
  | nil => exact Runs.raise (by decide)
  | cons o os =>
    refine Traced.ite (fun ho => ?_) fun _ => assume
    have hsplit : ∃ o ∈ s.heap.children n, s.heap.children o ≠ [] :=
      ⟨o, hc ▸ List.mem_cons_self, of_decide_eq_true ho⟩
    refine Traced.bind (runs_solversAt inside_quiet) fun l t ht ⟨_, hl⟩ => ?_
    refine Traced.seq (runs_addIdles (hs.path ht) hl) fun _ u hu => ?_
    have hf : u.heap.toForest = s.heap.toForest := (Fixed.path (ht.trans hu)).forest
    refine Traced.seq (runs_process (.inr (hf ▸ hsplit))) fun _ v _ => ?_
    exact Runs.quietly inside_quiet
      (Still.modifyNode (f := fun a => { a with isTimeout := true }) n (fun _ => rfl)
        (fun _ => rfl) fun _ => rfl)

theorem still_timedOut (n : NodeId) : Still (timedOut n) := by
  refine Still.get.bind fun s => ?_
  split
  · exact Still.now.bind fun _ => Still.pure _
  · exact Still.pure _

theorem still_chooseNodeTimeout (i : InstId) : Still (chooseNodeTimeout i) := by
  refine Still.get.bind fun s => Still.now.bind fun t => ?_
  cases (s.heap.attrs (s.root i)).started with
  | none => exact Still.raise (by decide)
  | some started =>
    exact Still.ite (Still.modifyConfig (fun _ => rfl) fun _ => rfl)
      (Still.now.bind fun _ => Still.modifyConfig (fun _ => rfl) fun _ => rfl)

/-- What the pass over the nodes has found out about the tree of instance `i`. -/
structure Pass.Fits (i : InstId) (acc : Pass) (s : State) : Prop where
  connected : ∀ x ∈ acc.solved, s.Connected x
  once : acc.solved.Nodup
  cause : acc.solved ≠ [] → ∃ n, s.heap.Reaches (s.root i) n ∧ s.heap.isAnd n = true ∧
    s.heap.status n = .unsat
  target : ∀ n, acc.toPartition = some n → s.heap.Reaches (s.root i) n ∧
    s.heap.isAnd n = true ∧ s.heap.children n = [] ∧ (s.heap.attrs n).partitioning = false

namespace Pass.Fits

variable {acc : Pass}

theorem empty : Pass.Fits i {} s :=
  ⟨fun _ hx => absurd hx List.not_mem_nil, List.nodup_nil, fun h => absurd rfl h,
    fun _ hn => (nomatch hn)⟩

theorem fixed (h : Pass.Fits i acc s) (hf : Fixed s t) : Pass.Fits i acc t where
  connected x hx := (hf.connected x).mpr (h.connected x hx)
  once := h.once
  cause hne := by
    obtain ⟨n, hn, hand, hu⟩ := h.cause hne
    exact ⟨n, by rw [hf.root, hf.forest]; exact hn, (hf.isAnd n).trans hand,
      (hf.status n).trans hu⟩
  target n hn := by
    rw [hf.root, hf.forest, hf.isAnd, hf.partitioning]
    exact h.target n hn

/-- Solvers are added at an unsat node. -/
theorem collect (h : Pass.Fits i acc s) {n : NodeId} {solved : List SockId}
    (hn : s.heap.Reaches (s.root i) n) (hand : s.heap.isAnd n = true)
    (hu : s.heap.status n = .unsat) (hsub : ∀ x ∈ solved, x ∈ acc.solved ∨ s.Connected x)
    (hnodup : acc.solved.Nodup → solved.Nodup) : Pass.Fits i { acc with solved := solved } s where
  connected x hx := (hsub x hx).elim (h.connected x) id
  once := hnodup h.once
  cause _ := ⟨n, hn, hand, hu⟩
  target := h.target

end Pass.Fits

theorem runs_passNode (hs : Solving i s) {acc : Pass} {n : NodeId}
    (hn : s.heap.Reaches (s.root i) n) (hacc : acc.Fits i s) :
    Runs (Act.Inside hindered) out (passNode i acc n) (fun acc' t => acc'.Fits i t) s := by
  refine Traced.get (Traced.ite (fun ⟨hand, _⟩ => ?_) fun _ => Traced.pure hacc)
  have last : ∀ solved t, Path (Act.Inside hindered) s t →
      Pass.Fits i { acc with solved := solved } t →
        Runs (Act.Inside hindered) out (aim acc n solved) (fun acc' t => Pass.Fits i acc' t) t := by
    intro solved t ht hfits
    refine Traced.get (Traced.ite (fun hc => ?_) fun _ => Traced.pure hfits)
    have hf := Fixed.path ht
    refine Traced.pure ⟨hfits.connected, hfits.once, hfits.cause, fun m hm => ?_⟩
    cases hm
    refine ⟨by rw [hf.root, hf.forest]; exact hn, (hf.isAnd n).trans hand, ?_, hc.1⟩
    exact List.length_eq_zero_iff.mp hc.2.2.1
  refine Traced.seq (Traced.when (fun _ => Runs.raise (by decide)) fun _ => trivial)
    fun _ u hu => ?_
  have hfu := Fixed.path hu
  have hnu : u.heap.Reaches (u.root i) n := by rw [hfu.root, hfu.forest]; exact hn
  refine Traced.ite (fun hunsat => ?_) fun _ => ?_
  · have hunsat' : u.heap.status n = .unsat := (hfu.status n).trans hunsat
    refine Traced.bind (runs_passUnsat (hs.path hu) hnu hunsat') fun r t ht hr => ?_
    refine last r t (hu.trans ht) (((hacc.fixed hfu).collect hnu ((hfu.isAnd n).trans hand)
      hunsat' hr.1 hr.2).fixed (Fixed.path ht))
  · refine Traced.seq (Runs.quietly inside_quiet (still_timedOut n)) fun late t ht => ?_
    have keep : ∀ v, Path (Act.Inside hindered) t v → Pass.Fits i { acc with solved := acc.solved } v :=
      fun v hv => hacc.fixed (Fixed.path ((hu.trans ht).trans hv))
    refine Traced.ite (fun _ => ?_) fun _ => ?_
    · refine Traced.seq (runs_passTimeout (hs.path (hu.trans ht))) fun _ v hv => ?_
      exact last acc.solved v ((hu.trans ht).trans hv) (keep v hv)
    · refine Traced.get (Traced.seq (Runs.quietly inside_quiet
        (Still.when (still_chooseNodeTimeout i))) fun _ v hv => ?_)
      exact last acc.solved v ((hu.trans ht).trans hv) (keep v hv)

theorem Heap.childeren_error {h : Heap} {n : NodeId} {e : Exn} (he : h.childeren n = .error e) :
    e ≠ .noFuel := by
  unfold Heap.childeren at he
  split at he
  · cases he
    decide
  · exact nomatch he

theorem Heap.mem_childeren {h : Heap} {n c : NodeId} {childs : List NodeId}
    (he : h.childeren n = .ok childs) (hc : c ∈ childs) :
    (∃ o ∈ h.children n, c ∈ h.children o) ∧ h.status c = .unknown := by
  unfold Heap.childeren at he
  split at he
  · exact nomatch he
  · next o os ho =>
    cases he
    obtain ⟨hm, hu⟩ := List.mem_filter.mp hc
    exact ⟨⟨o, ho ▸ List.mem_cons_self, hm⟩, of_decide_eq_true hu⟩

theorem Heap.reaches_childeren {h : Heap} {n c : NodeId} {childs : List NodeId}
    (he : h.childeren n = .ok childs) (hc : c ∈ childs) : h.Reaches n c := by
  obtain ⟨⟨o, ho, hoc⟩, _⟩ := Heap.mem_childeren he hc
  exact (Forest.Reaches.of_mem ho).child hoc

theorem Heap.isAnd_childeren {h : Heap} {n c : NodeId} {childs : List NodeId}
    (he : h.childeren n = .ok childs) (hc : c ∈ childs) : h.isAnd c = h.isAnd n := by
  obtain ⟨⟨o, ho, hoc⟩, _⟩ := Heap.mem_childeren he hc
  rw [Heap.isAnd_of_parent (h.parent_of_mem hoc), Heap.isOr_of_parent (h.parent_of_mem ho)]

/-- The node flags that a pass sets stay as they are. -/
def Settled (s t : State) : Prop :=
  ∀ n, (t.heap.attrs n).processed = (s.heap.attrs n).processed

theorem Quiet.settled (h : Quiet s t) : Settled s t := h.heap.processed

theorem Settled.trans {u : State} (st : Settled s t) (tu : Settled t u) : Settled s u :=
  fun n => (tu n).trans (st n)

/-- The node below `child` is unknown and not processed. -/
def State.Live (s : State) (child : NodeId) : Prop := s.activeNodes (s.heap.all child) ≠ []

theorem Fixed.activeNodes (hf : Fixed s t) (hp : Settled s t) (nodes : List NodeId) :
    t.activeNodes nodes = s.activeNodes nodes := by
  simp only [State.activeNodes, hf.status, hf.isAnd, hp _]

theorem Fixed.live (hf : Fixed s t) (hp : Settled s t) (child : NodeId) :
    t.Live child ↔ s.Live child := by
  rw [State.Live, State.Live, hf.activeNodes hp, Heap.all_congr hf.forest]

/-- A solver of the tree moves to a node of the tree. -/
theorem runs_incremental (hs : Solving i s) {x : SockId} {n : NodeId}
    (hn : s.heap.Reaches (s.root i) n) (hand : s.heap.isAnd n = true)
    (hx : ∀ a, (s.solver x).node = some a → s.heap.root a = s.root i) :
    Runs (Act.Inside hindered) out (Solver.incremental x n)
      (fun _ t => Settled s t ∧ t.idleSolvers = s.idleSolvers ∧
        ∀ y, y ≠ x → (t.solver y).node = (s.solver y).node) s := by
  refine Solver.wp_incremental (fun e t ht he => ⟨Path.quiet inside_quiet ht, fun h => absurd h he⟩)
    fun a m t ha hm ht => ?_
  refine ⟨Path.act (.move x n m) ⟨⟨⟨hs.listed hn hand, a, ha, hm⟩, i, hs.current,
    hs.root_of hn, hx⟩, trivial⟩ ht, ht.settled, ht.idleSolvers, fun y hy => (ht.node y).trans ?_⟩
  simp [Act.apply, State.modifySolver, hy]

theorem runs_relocateTo (hs : Solving i s) {solved : List SockId} {child : NodeId}
    (hc : s.heap.Reaches (s.root i) child) (hsol : ∀ x ∈ solved, s.Connected x) :
    Runs (Act.Inside hindered) out (relocateTo solved child)
      (fun l t => Settled s t ∧ (∀ x ∈ l, x ∈ solved) ∧ l.length ≤ solved.length ∧
        (s.Live child → solved ≠ [] → l.length < solved.length)) s := by
  refine Traced.get ?_
  have hsort := List.perm_insertionSort (fun a b =>
    (s.solvers (.at (some a))).length ≤ (s.solvers (.at (some b))).length)
    (s.activeNodes (s.heap.all child))
  cases hact : (s.activeNodes (s.heap.all child)).insertionSort fun a b =>
      (s.solvers (.at (some a))).length ≤ (s.solvers (.at (some b))).length with
  | nil =>
    rw [hact] at hsort
    exact Traced.pure ⟨fun _ => rfl, fun _ hx => hx, Nat.le_refl _,
      fun hlive => absurd hsort.symm.eq_nil hlive⟩
  | cons n ns =>
    have hmem : n ∈ s.activeNodes (s.heap.all child) :=
      hsort.mem_iff.mp (hact ▸ List.mem_cons_self)
    simp only [State.activeNodes, List.mem_filter, Bool.and_eq_true, Heap.mem_all] at hmem
    refine Traced.bind (runs_inOrder inside_quiet) fun l t ht ⟨hq, hl⟩ => ?_
    cases l with
    | nil =>
      have hnil : solved = [] := hl.symm.eq_nil
      exact Traced.pure ⟨hq.settled, fun _ hx => absurd hx List.not_mem_nil, Nat.zero_le _,
        fun _ hne => absurd hnil hne⟩
    | cons x rest =>
      have hf := Fixed.path ht
      have hx : t.Connected x := (hf.connected x).mpr (hsol x (hl.mem_iff.mp List.mem_cons_self))
      have hn : t.heap.Reaches (t.root i) n := by
        rw [hf.root, hf.forest]
        exact hc.trans hmem.1
      refine Traced.bind (runs_incremental (hs.path ht) hn ((hf.isAnd n).trans hmem.2.1.2)
        fun a ha => (hs.path ht).here (.inl hx) ha) fun _ u _ hu => ?_
      refine Traced.pure ⟨hq.settled.trans hu.1, fun y hy => ?_, ?_, fun _ _ => ?_⟩
      · exact hl.mem_iff.mp (List.mem_cons_of_mem _ hy)
      · rw [← hl.length_eq]
        exact Nat.le_succ _
      · rw [← hl.length_eq]
        exact Nat.lt_succ_self _

/-- A round of the relocation moves somebody if there is a live node. -/
theorem runs_relocateRound (hs : Solving i s) {l : List SockId} {childs : List NodeId} (hne : l ≠ [])
    (hc : ∀ c ∈ childs, s.heap.Reaches (s.root i) c) (hl : ∀ x ∈ l, s.Connected x) :
    Runs (Act.Inside hindered) out (foldEach relocateTo l childs)
      (fun b t => Settled s t ∧ (∀ x ∈ b, x ∈ l) ∧
        ((∃ c ∈ childs, s.Live c) → b.length < l.length)) s := by
  have start : Settled s s ∧ (∀ x ∈ l, x ∈ l) ∧ l.length ≤ l.length ∧ (∀ c ∈ childs, c ∈ childs) ∧
      ((∃ c ∈ childs, s.Live c) → (∃ c ∈ childs, s.Live c) ∨ l.length < l.length) :=
    ⟨fun _ => rfl, fun _ hx => hx, Nat.le_refl _, fun _ hx => hx, .inl⟩
  refine Traced.mono (Traced.foldEach (I := fun b cs t =>
    Settled s t ∧ (∀ x ∈ b, x ∈ l) ∧ b.length ≤ l.length ∧ (∀ c ∈ cs, c ∈ childs) ∧
      ((∃ c ∈ childs, s.Live c) → (∃ c ∈ cs, s.Live c) ∨ b.length < l.length)) ?_ start)
    fun b t _ hb => ⟨hb.1, hb.2.1, fun hlive => ?_⟩
  · intro b c cs t ht ⟨hset, hsub, hle, hcs, hlive⟩
    have hf := Fixed.path ht
    have hct : t.heap.Reaches (t.root i) c := by
      rw [hf.root, hf.forest]
      exact hc c (hcs c List.mem_cons_self)
    refine (runs_relocateTo (hs.path ht) hct fun x hx =>
      (hf.connected x).mpr (hl x (hsub x hx))).mono fun b' u _ ⟨hset', hsub', hle', hlt⟩ => ?_
    refine ⟨hset.trans hset', fun x hx => hsub x (hsub' x hx), Nat.le_trans hle' hle,
      fun c' hc' => hcs c' (List.mem_cons_of_mem _ hc'), fun h => ?_⟩
    rcases hlive h with ⟨c', hc', hl'⟩ | hshort
    · rcases List.mem_cons.mp hc' with rfl | hc'
      · refine .inr ?_
        by_cases hb : b = []
        · subst hb
          exact Nat.lt_of_le_of_lt hle' (List.length_pos_iff.mpr hne)
        · exact Nat.lt_of_lt_of_le (hlt ((hf.live hset c').mpr hl') hb) hle
      · exact .inl ⟨c', hc', hl'⟩
    · exact .inr (Nat.lt_of_le_of_lt hle' hshort)
  · rcases hb.2.2.2.2 hlive with ⟨c, hc, _⟩ | hshort
    · exact absurd hc List.not_mem_nil
    · exact hshort

/-- The relocation ends if the tree has a live node for every solver to go to. -/
theorem runs_relocate (hs : Solving i s) {fuel : Nat} {solved : List SockId}
    (hsol : ∀ x ∈ solved, s.Connected x)
    (live : out ∨ solved.length ≤ fuel ∧ (solved ≠ [] → ∀ childs,
      s.heap.childeren (s.root i) = .ok childs → ∃ c ∈ childs, s.Live c)) :
    Runs (Act.Inside hindered) out (relocate fuel i solved) (fun _ _ => True) s := by
  refine Traced.get (Traced.when (fun hne => ?_) fun _ => trivial)
  refine Traced.bind (Q := fun childs t => t = s ∧ s.heap.childeren (s.root i) = .ok childs)
    (Traced.ofExcept (fun e he hf => absurd hf (Heap.childeren_error he)) fun _ h => ⟨rfl, h⟩) ?_
  rintro childs t - ⟨rfl, hchilds⟩
  have hc : ∀ c ∈ childs, t.heap.Reaches (t.root i) c := fun c => Heap.reaches_childeren hchilds
  have round : ∀ l u, l ≠ [] → Path (Act.Inside hindered) t u →
      (∀ x ∈ l, t.Connected x) ∧ Settled t u → Runs (Act.Inside hindered) out
        (foldEach relocateTo l childs) (fun b v => ((∀ x ∈ b, t.Connected x) ∧ Settled t v) ∧
          ((∃ c ∈ childs, t.Live c) → b.length < l.length)) u := by
    intro l u hne hu ⟨hl, hset⟩
    have hf := Fixed.path hu
    have hcu : ∀ c ∈ childs, u.heap.Reaches (u.root i) c := by
      rw [hf.root, hf.forest]
      exact hc
    refine (runs_relocateRound (hs.path hu) hne hcu fun x hx =>
      (hf.connected x).mpr (hl x hx)).mono fun b v _ ⟨hset', hsub, hlt⟩ => ?_
    refine ⟨⟨fun x hx => hl x (hsub x hx), hset.trans hset'⟩, fun ⟨c, hc, hlive⟩ => ?_⟩
    exact hlt ⟨c, hc, (hf.live hset c).mpr hlive⟩
  refine Traced.mono (Traced.whileNonempty (I := fun l u =>
    (∀ x ∈ l, t.Connected x) ∧ Settled t u) (fun l u hne hu hI => ?_) ⟨hsol, fun _ => rfl⟩ ?_)
    fun _ _ _ _ => trivial
  · exact (round l u hne hu hI).mono fun _ _ _ h => h.1
  · rcases live with hout | ⟨hlen, hlive⟩
    · exact .inl fun _ => hout
    · refine .inr ⟨hlen, fun l u hne' hu hI => ?_⟩
      exact (round l u hne' hu hI).mono fun _ _ _ h => h.2 (hlive hne childs hchilds)

/-- The pass over the nodes and the relocation. -/
theorem runs_survey (hs : Solving i s) {fuel : Nat}
    (live : out ∨ ∀ (acc : Pass) t, Path (Act.Inside hindered) s t → acc.Fits i t →
      acc.solved.length ≤ fuel ∧ (acc.solved ≠ [] → ∀ childs,
        t.heap.childeren (t.root i) = .ok childs → ∃ c ∈ childs, t.Live c)) :
    Runs (Act.Inside hindered) out (survey fuel i)
      (fun r t => (∀ n ∈ r.1, t.heap.Reaches (t.root i) n) ∧ r.2.Fits i t) s := by
  refine Traced.get ?_
  have hnodes : ∀ n ∈ s.heap.sortByLevel (s.heap.all (s.root i)), s.heap.Reaches (s.root i) n :=
    fun n hn => Heap.mem_all.mp ((List.perm_insertionSort _ _).mem_iff.mp hn)
  have start : Pass.Fits i {} s ∧ ∀ n ∈ s.heap.sortByLevel (s.heap.all (s.root i)),
      s.heap.Reaches (s.root i) n := ⟨.empty, hnodes⟩
  refine Traced.bind (Traced.foldEach (I := fun acc ns t =>
    Pass.Fits i acc t ∧ ∀ n ∈ ns, s.heap.Reaches (s.root i) n) ?_ start) fun acc t ht hacc => ?_
  · intro acc n ns t ht ⟨hacc, hns⟩
    have hf := Fixed.path ht
    have hn : t.heap.Reaches (t.root i) n := by
      rw [hf.root, hf.forest]
      exact hns n List.mem_cons_self
    exact (runs_passNode (hs.path ht) hn hacc).mono fun _ _ _ hr =>
      ⟨hr, fun m hm => hns m (List.mem_cons_of_mem _ hm)⟩
  · refine Traced.seq (runs_relocate (hs.path ht) hacc.1.connected
      (live.imp_right fun h => h acc t ht hacc.1)) fun _ u hu => Traced.pure ⟨fun n hn => ?_, ?_⟩
    · have hf := Fixed.path (ht.trans hu)
      rw [hf.root, hf.forest]
      exact hnodes n hn
    · exact hacc.1.fixed (Fixed.path hu)

end Smts.Server
