import Smts.Server.Faults
import Smts.Server.Headcount
import Smts.Server.Shape

namespace Smts.Server

open Smts.Lib Smts.Lib.Prog

variable {s t : State} {i : InstId} {n : NodeId}

/-- Started in this state, the program does not end by such a fault. -/
abbrev FaultlessAt {α : Type} (m : M α) (s : State) : Prop :=
  wp m (fun _ _ => True) (fun e _ => e.Benign) s

theorem FaultlessAt.traced {α : Type} {G : Act → State → Prop} {m : M α}
    {Q : α → State → Prop} (hf : FaultlessAt m s) (h : Runs G True m Q s) :
    Traced (Acts G) Exn.Benign m Q s :=
  h.raises hf

theorem FaultlessAt.of_traced {α : Type} {G : Act → State → Prop} {m : M α} {Q : α → State → Prop}
    (h : Traced (Acts G) Exn.Benign m Q s) : FaultlessAt m s :=
  wp_mono h (fun _ _ _ => trivial) fun _ _ h => h.2

theorem Heap.childeren_ok {h : Heap} (hne : h.children n ≠ []) :
    ∃ childs, h.childeren n = .ok childs := by
  unfold Heap.childeren
  split
  · next he => exact absurd he hne
  · exact ⟨_, rfl⟩

section Pass

theorem faultlessAt_passTimeout
    (h : (s.heap.attrs n).partitioning = true → s.heap.children n ≠ []) :
    FaultlessAt (passTimeout n) s := by
  have rest (s : State) (split : Bool) : Faultless (
      if split = true then retire n (!(s.heap.attrs n).assumedTimout)
      else when ((s.heap.attrs n).assumedTimout = false) (suspend n)) := by
    refine .ite (.bind (by simp) fun l => ?_) (.when (.bind (by simp) fun l => ?_))
    · exact .bind (by simp) fun _ => .bind (by simp) fun _ => by simp
    · exact .bind (by simp) fun _ => by simp
  rw [passTimeout, FaultlessAt, wp_bind, wp_get]
  split
  · next hp =>
    split
    · next he => exact absurd he (h hp)
    · exact rest s _ s
  · exact rest s _ s

theorem faultlessAt_passNode {acc : Pass} (hsat : s.heap.status n ≠ .sat)
    (h : (s.heap.attrs n).partitioning = true → s.heap.children n ≠ []) :
    FaultlessAt (passNode i acc n) s := by
  have last (solved : List SockId) : Faultless (aim acc n solved) :=
    .bind .get fun s => .ite (.pure _) (.pure _)
  rw [passNode, FaultlessAt, wp_bind, wp_get]
  split
  · rw [wp_bind, wp_when]
    refine ⟨fun hc => absurd hc hsat, fun _ => ?_⟩
    split
    · exact Raises.bind (faultless_passUnsat n _) last s
    · rw [wp_bind]
      refine wp_mono (wp_and (still_timedOut n s) (faultless_timedOut n s))
        (fun late t ht => ?_) fun _ _ he => he.2
      have hq := ht.1
      have hask : (t.heap.attrs n).partitioning = true → t.heap.children n ≠ [] := by
        rw [hq.heap.partitioning, hq.heap.forest]
        exact h
      split
      · rw [wp_bind]
        exact wp_mono (faultlessAt_passTimeout hask) (fun _ u _ => last acc.solved u)
          fun _ _ he => he
      · exact Raises.bind .get (fun s => .bind (.when (by simp)) fun _ => last acc.solved) t
  · trivial

/-- With solvers to relocate the root has been split. -/
theorem faultlessAt_relocate {fuel : Nat} {solved : List SockId}
    (h : solved ≠ [] → s.heap.children (s.root i) ≠ []) : FaultlessAt (relocate fuel i solved) s := by
  rw [relocate, FaultlessAt, wp_bind, wp_get, wp_when]
  refine ⟨fun hne => ?_, fun _ => trivial⟩
  obtain ⟨childs, hchilds⟩ := Heap.childeren_ok (h hne)
  rw [hchilds, wp_bind, wp_ofExcept_ok]
  have rounds : Faultless (Prog.whileNonempty .noFuel (fun solved => foldEach relocateTo solved childs)
      fuel solved) := by
    simp
  exact rounds s

/-- As the root is unknown, no node of its tree is sat, and those that are unsat are below it. -/
theorem faultlessAt_survey (hs : Solving i s) (hsh : s.heap.Shaped)
    (hu : s.heap.status (s.root i) = .unknown) {fuel : Nat} : FaultlessAt (survey fuel i) s := by
  have hnodes : ∀ n ∈ s.heap.sortByLevel (s.heap.all (s.root i)), s.heap.Reaches (s.root i) n :=
    fun n hn => Heap.mem_all.mp ((List.perm_insertionSort _ _).mem_iff.mp hn)
  have start : Pass.Fits i {} s ∧ ∀ n ∈ s.heap.sortByLevel (s.heap.all (s.root i)),
      s.heap.Reaches (s.root i) n := ⟨.empty, hnodes⟩
  refine FaultlessAt.of_traced (G := Act.Inside True) (Q := fun _ _ => True) (Traced.get ?_)
  refine Traced.bind (Traced.foldEach (I := fun acc ns t =>
    Pass.Fits i acc t ∧ ∀ n ∈ ns, s.heap.Reaches (s.root i) n) (fun acc n ns t ht ⟨hacc, hns⟩ => ?_) start)
    fun acc t ht ⟨hacc, _⟩ => ?_
  · have hf := Fixed.path ht
    have hn : s.heap.Reaches (s.root i) n := hns n List.mem_cons_self
    have hlt : n < s.heap.size := hn.lt_size hs.root.1
    have hnode : FaultlessAt (passNode i acc n) t := by
      refine faultlessAt_passNode ?_ fun hask => ?_
      · rw [hf.status]
        exact fun hsat => hsh.rooted n hlt hsat (hs.root_of hn ▸ hu)
      · rw [hf.partitioning] at hask
        rw [hf.forest]
        exact (hsh.asked n hlt hask).2
    have hnt : t.heap.Reaches (t.root i) n := by
      rw [hf.root, hf.forest]
      exact hn
    refine (hnode.traced (runs_passNode (hs.path ht) hnt hacc)).mono fun _ _ _ hr => ?_
    exact ⟨hr, fun m hm => hns m (List.mem_cons_of_mem _ hm)⟩
  · have hf := Fixed.path ht
    have hrelocate : FaultlessAt (relocate fuel i acc.solved) t := by
      refine faultlessAt_relocate fun hne => ?_
      obtain ⟨m, hm, _, hunsat⟩ := hacc.cause hne
      refine Forest.Reaches.children_ne_nil hm ?_
      rintro rfl
      rw [hf.root, hf.status, hu] at hunsat
      cases hunsat
    refine Traced.seq (hrelocate.traced (runs_relocate (hs.path ht) hacc.connected
      (.inl trivial))) fun _ _ _ => Traced.pure trivial

end Pass

section Distribution

/-- The node whose partitions have arrived has children. -/
def PNode.Split (p : PNode) (s : State) : Prop := ∀ n, p = .node n → s.heap.children n ≠ []

theorem faultlessAt_spread (hs : Solving i s) {fuel : Nat} {p : PNode} (hp : p.Here i s)
    (hsplit : p.Split s) : FaultlessAt (spread fuel p) s := by
  have hround (l : List SockId) (t : State) (ht : Fixed s t) : FaultlessAt (spreadRound p l) t := by
    rw [spreadRound, FaultlessAt, wp_bind, wp_get, wp_bind]
    cases p with
    | text => simp [PNode.childeren]
    | node n =>
      have hne : t.heap.children n ≠ [] := by
        rw [ht.forest]
        exact hsplit n rfl
      obtain ⟨childs, hchilds⟩ := Heap.childeren_ok hne
      rw [PNode.childeren, hchilds, wp_ofExcept_ok]
      refine Raises.foldEach (fun movable n => ?_) l childs t
      cases movable with
      | nil => exact .pure _
      | cons x rest => exact .bind (by simp) fun _ => .pure _
  have hmovable : FaultlessAt (movableSolvers p) s := faultless_movableSolvers p s
  refine FaultlessAt.of_traced (G := Act.Inside True) (Q := fun _ _ => True) ?_
  refine Traced.bind (hmovable.traced runs_movableSolvers) fun movable t ht hmov => ?_
  refine Traced.mono (Traced.whileNonempty (I := fun l _ => ∀ x ∈ l, s.Connected x)
    (fun l u _ hu hl => ?_) hmov.1 (.inl (by simp))) fun _ _ _ _ => trivial
  have hf : Fixed s u := Fixed.path (ht.trans hu)
  refine ((hround l u hf).traced (runs_spreadRound (hs.path (ht.trans hu)) (hp.fixed hf)
    fun x hx => (hf.connected x).mpr (hl x hx))).mono fun r _ _ hr x hx => hl x (hr.1 x hx)

/-- Idle solvers are counted in `total_solvers`. -/
theorem State.Counted.idle_le {l : List SockId} (h : s.Counted l) (hr : s.Rested) :
    (s.idleSolvers.length : Int) ≤ s.totalSolvers := by
  have hle : s.idleSolvers.length ≤ l.length := (hr.once.subperm h.1.idle).length_le
  exact Int.le_trans (Int.ofNat_le.mpr hle) h.2

theorem faultlessAt_reassign (hs : Solving i s) {l : List SockId} (hcount : s.Counted l)
    (hrest : s.Rested) {nodes : List NodeId} {pass : Pass}
    (hnodes : ∀ n ∈ nodes, s.heap.Reaches (s.root i) n) : FaultlessAt (reassign nodes pass) s := by
  have all : wp (forEach reassignTo nodes) (fun _ t => t.Counted l ∧ t.Rested)
      (fun e _ => e.Benign) s := by
    have keep : Keeps l (forEach reassignTo nodes) := .forEach keeps_reassignTo nodes
    have runs : Runs (Act.Inside True) True (forEach reassignTo nodes) (fun _ _ => True) s :=
      runs_reassignAll hs hnodes
    have calm : Faultless (forEach reassignTo nodes) := by simp
    refine wp_mono (wp_and (wp_and (keep.wp hcount) runs) (calm s)) (fun _ t ht => ?_)
      fun _ _ he => he.2
    exact ⟨ht.1.1, hrest.path (fun _ _ ha => ha.1) ht.1.2.1⟩
  rw [reassign, FaultlessAt, wp_bind, wp_get, wp_when]
  refine ⟨fun _ => ?_, fun _ => trivial⟩
  rw [wp_bind]
  refine wp_mono all (fun _ t ⟨hc, hr⟩ => ?_) fun _ _ he => he
  rw [wp_bind, wp_get, wp_bind, wp_when]
  refine ⟨fun hlt => absurd (hc.idle_le hr) (Int.not_le.mpr hlt), fun _ => ?_⟩
  cases pass.toPartition with
  | none => trivial
  | some target => exact Raises.when (faultless_sendIdle target) t

theorem faultlessAt_distribute (hs : Solving i s) {l : List SockId} (hcount : s.Counted l)
    (hrest : s.Rested) {fuel : Nat} {p : Option PNode} {nodes : List NodeId} {pass : Pass}
    (hp : ∀ q, p = some q → q.Here i s ∧ q.Split s)
    (hnodes : ∀ n ∈ nodes, s.heap.Reaches (s.root i) n) :
    FaultlessAt (distribute fuel i p nodes pass) s := by
  have rest (t : State) (hs : Solving i t) (hcount : t.Counted l) (hrest : t.Rested)
      (hnodes : ∀ n ∈ nodes, t.heap.Reaches (t.root i) n) :
      FaultlessAt (redistribute i nodes pass) t := by
    have ask : Faultless (request i pass) := by
      refine .bind .get fun s => .ite ?_ (.pure _)
      cases pass.toPartition with
      | none => exact .pure _
      | some n => exact .when (.bind (by simp) fun _ => .pure _)
    rw [redistribute, FaultlessAt, wp_bind]
    exact wp_mono (faultlessAt_reassign hs hcount hrest hnodes) (fun _ u _ => ask u)
      fun _ _ he => he
  cases p with
  | none => exact rest s hs hcount hrest hnodes
  | some q =>
    obtain ⟨hhere, hsplit⟩ := hp q rfl
    have runs : Runs (Act.Inside True) True (spread fuel q) (fun _ _ => True) s :=
      runs_spread hs hhere (.inl trivial)
    have keep : Keeps l (spread fuel q) := keeps (by simp)
    rw [distribute, FaultlessAt, wp_bind]
    refine wp_mono (wp_and (wp_and (keep.wp hcount) runs) (faultlessAt_spread hs hhere hsplit))
      (fun _ t ht => ?_) fun _ _ he => he.2
    have hpath := ht.1.2.1
    have hf := Fixed.path hpath
    refine rest t (hs.path hpath) ht.1.1 (hrest.path (fun _ _ ha => ha.1) hpath) fun n hn => ?_
    rw [hf.root, hf.forest]
    exact hnodes n hn

end Distribution

section Attention

theorem faultlessAt_stuck
    (h : (s.heap.attrs (s.root i)).partitioning = true → s.heap.children (s.root i) ≠ []) :
    FaultlessAt (stuck i) s := by
  rw [stuck, FaultlessAt, wp_bind, wp_get]
  dsimp only
  split
  · next hask =>
    obtain ⟨childs, hchilds⟩ := Heap.childeren_ok (h hask)
    rw [hchilds, wp_bind, wp_ofExcept_ok]
    have report : Faultless (if childs = [] ∧ s.terminate = false then do
        print (.stuck (s.heap.label (s.root i)).name)
        forEach Solver.terminate (← solvers .all)
        modify fun s => { s with terminate := true }
        return true
      else return false) := by
      refine .ite (.bind (by simp) fun _ => .bind (by simp) fun l => ?_) (.pure _)
      exact .bind (by simp) fun _ => .bind (by simp) fun _ => .pure _
    exact report s
  · trivial

theorem faultlessAt_conclude
    (h : (s.heap.attrs (s.root i)).partitioning = true → s.heap.children (s.root i) ≠ []) :
    FaultlessAt (conclude i) s := by
  have finish (returned : Bool) : Faultless (if returned then return true else do
      printResult i
      release i
      return false : M Bool) :=
    .ite (.pure _) (.bind (by simp) fun _ => .bind (by simp) fun _ => .pure _)
  rw [conclude, FaultlessAt, wp_bind, wp_get]
  split
  · rw [wp_bind]
    refine wp_mono (faultlessAt_stuck h) (fun b t _ => ?_) fun _ _ he => he
    split
    · exact finish true t
    · exact Raises.bind (.when (by simp)) (fun _ => .bind (.pure _) finish) t
  · exact finish false s

theorem faultlessAt_attend (hs : Consistent s) (hsh : s.heap.Shaped) : FaultlessAt attend s := by
  have proceeds (solving : Option InstId) (returned : Bool) :
      Faultless (proceed solving returned) := by
    refine .ite (.pure _) (.bind (.gets _) fun current => ?_)
    cases current with
    | none => exact .bind (by simp) fun started => .ite (.pure _) (.bind (by simp) fun _ => .pure _)
    | some i => exact .bind (by simp) fun _ => .bind .get fun _ => .pure _
  rw [attend, FaultlessAt, wp_bind, wp_gets, wp_bind]
  refine wp_mono (?_ : FaultlessAt (settle s.current) s) (fun r t _ => proceeds s.current r t)
    fun _ _ he => he
  cases hc : s.current with
  | none => trivial
  | some i =>
    have ending : Runs (Act.Entrusted True s.idleSolvers) True (isOver i) (fun _ t => Quiet s t) s :=
      runs_isOver.mono fun _ _ _ h => h.1
    have hroot : s.root i < s.heap.size := (hs.opened i (hs.current i hc)).1.1
    rw [settle, FaultlessAt, wp_bind]
    refine wp_mono (wp_and ending (faultless_isOver i s)) (fun ended t ht => ?_) fun _ _ he => he.2
    have hq : Quiet s t := ht.1.2
    split
    · refine faultlessAt_conclude fun hask => ?_
      rw [hq.root, hq.heap.partitioning] at hask
      rw [hq.root, hq.heap.forest]
      exact (hsh.asked _ hroot hask).2
    · trivial

theorem Act.Entrusted.definite {hindered : Prop} {idle : List SockId} {a : Act} {s : State}
    (h : a.Entrusted hindered idle s) : a.Definite := by
  cases a with
  | report => exact h.2.elim
  | _ => trivial

/-- No state that `entrust` is called in makes it fail. -/
theorem faultlessAt_entrust (hs : Consistent s) (hsh : s.heap.Shaped) (hr : s.Rested)
    (hstaff : s.Staffed) {fuel : Nat} {p : Option PNode}
    (hp : ∀ q, p = some q → (∀ i, s.current = some i → q.Here i s) ∧ q.Split s) :
    FaultlessAt (entrust fuel p) s := by
  have attended : Runs (Act.Entrusted True s.idleSolvers) True attend (Attended s) s :=
    runs_attend hs rfl (.inl trivial)
  rw [entrust, FaultlessAt, wp_bind]
  have calm : FaultlessAt attend s := faultlessAt_attend hs hsh
  refine wp_of_run (fun r t hrun => ?_) fun e t hrun => wp_error (E := fun e _ => e.Benign) calm hrun
  obtain ⟨ht, hr'⟩ := wp_ok attended hrun
  cases r with
  | none => trivial
  | some i =>
    obtain ⟨hst, hf, hu⟩ := hr' i rfl
    have hrest : t.Rested := hr.path (fun _ _ ha => ha.1) ht
    have hsht : t.heap.Shaped := hsh.path hs (fun a u ha => ⟨ha.1, ha.definite⟩) ht
    obtain ⟨l, hl⟩ : t.Staffed := by simpa [hrun] using staffed_attend hs hr hstaff
    have survey : Runs (Act.Inside True) True (survey fuel i) (fun r u =>
        (∀ n ∈ r.1, u.heap.Reaches (u.root i) n) ∧ r.2.Fits i u) t := runs_survey hst (.inl trivial)
    rw [wp_bind]
    refine wp_mono (wp_and (wp_and survey ((keeps_survey fuel i).wp hl))
      (faultlessAt_survey hst hsht hu)) (fun r u h => ?_) fun _ _ he => he.2
    obtain ⟨⟨⟨hpath, hnodes, _⟩, hl⟩, _⟩ := h
    have hfu := hf.trans (Fixed.path hpath)
    refine faultlessAt_distribute (hst.path hpath) hl (hrest.path (fun _ _ ha => ha.1) hpath)
      (fun q hq => ?_) hnodes
    obtain ⟨hhere, hsplit⟩ := hp q hq
    refine ⟨(hhere i (hf.current.symm.trans hst.current)).fixed hfu, fun n hn => ?_⟩
    rw [hfu.forest]
    exact hsplit n hn

end Attention

section Turns

variable {ev : Event}

/-- A report of a solver is about sat, unsat, partitions or an error, not of an unknown status. -/
def Event.Definite : Event → Prop
  | .message _ header _ => header.lookup Constant.report ≠ some SolveStatus.unknown.name
  | _ => True

instance : (ev : Event) → Decidable ev.Definite
  | .message .. => inferInstanceAs (Decidable (_ ≠ _))
  | .timeout | .accept _ | .closed _ => isTrue trivial

theorem Act.Caused.definite {a : Act} {u : State} (h : a.Caused True ev s u) (hev : ev.Definite) :
    a.Definite := by
  cases a with
  | report x n status =>
    obtain ⟨_, header, payload, rfl, _, hreport⟩ := h.2
    rintro rfl
    exact hev hreport
  | _ => trivial

/-- Everything that keeps the scheduler from failing. -/
structure State.Orderly (s : State) : Prop where
  consistent : Consistent s
  shaped : s.heap.Shaped
  rested : s.Rested
  staffed : s.Staffed

theorem Heap.Shaped.empty : Heap.empty.Shaped where
  single n hn := absurd hn (Nat.not_lt_zero n)
  asked n hn := absurd hn (Nat.not_lt_zero n)
  rooted n hn := absurd hn (Nat.not_lt_zero n)

namespace State.Orderly

theorem init (env : Env) (config : Config) : (State.init env config).Orderly where
  consistent := .init env config
  shaped := .empty
  rested := ⟨List.nodup_nil, fun _ => rfl⟩
  staffed := ⟨[], ⟨fun _ hx => absurd hx List.not_mem_nil,
    fun _ _ hb => absurd hb Bool.false_ne_true⟩, Int.le_refl 0⟩

theorem caused (hs : s.Orderly) (hev : ev.Definite) (hstaff : t.Staffed)
    (h : Path (Act.Caused True ev s) s t) : t.Orderly where
  consistent := hs.consistent.path (fun _ _ ha => ha.1) h
  shaped := hs.shaped.path hs.consistent (fun _ _ ha => ⟨ha.1, ha.definite hev⟩) h
  rested := hs.rested.path (fun _ _ ha => ha.1) h
  staffed := hstaff

/-- The state in which `entrust` is called, and what comes with the call. -/
theorem received (hs : s.Orderly) (hev : ev.Definite) (ready : ev.ready s) {p : Option PNode}
    (h : receive ev s = (.ok (some p), t)) : t.Orderly ∧
      ∀ q, p = some q → (∀ i, t.current = some i → q.Here i t) ∧ q.Split t := by
  have runs : Runs (Act.Received True ev s) True (receive ev) (ev.Brings s) s :=
    runs_receive hs.consistent
  obtain ⟨hpath, hbrings⟩ := wp_ok runs h
  have hcaused : Path (Act.Caused True ev s) s t := Path.mono hpath fun _ _ ha => ha.caused
  have hreceive : (receive ev s).2.Staffed := staffed_receive hs.consistent hs.staffed
  have hstaff : t.Staffed := by rwa [h] at hreceive
  have ht : t.Orderly := hs.caused hev hstaff hcaused
  refine ⟨ht, fun q hq => ⟨fun i hi => hbrings.here ready ht.consistent (by rw [hq]) hi, fun n hn => ?_⟩⟩
  subst hq hn
  obtain ⟨x, o, header, text, _, _, hm, _, ho, hquiet⟩ := hbrings n rfl
  obtain ⟨hlt, hor, he, m, hnode, hmem⟩ := hs.consistent.seated.getLast_lt ho
  rw [hm.node, Option.some.injEq] at hnode
  subst hnode
  have hmem' : o ∈ (s.heap.reply o (some (Solver.pieces text))).children n :=
    ((Heap.reply_grows hlt hor he _).children n).subset hmem
  rw [hquiet.heap.forest]
  exact List.ne_nil_of_mem hmem'

theorem step (hs : s.Orderly) (hev : ev.Definite) (h : Step s ev t) : t.Orderly := by
  refine hs.caused hev ?_ (h.path hs.consistent (.inl trivial))
  cases h with
  | mk running ready run ends =>
    rename_i fuel r u
    obtain ⟨l, hl⟩ : u.Staffed := by
      rw [handle, bind_run] at run
      have hreceive : (receive ev s).2.Staffed := staffed_receive hs.consistent hs.staffed
      split at run
      · next p v hrun =>
        rw [hrun] at hreceive
        cases p with
        | none =>
          cases run
          exact hreceive
        | some p =>
          have hv := (hs.received hev ready hrun).1
          have hfinal := staffed_entrust hv.consistent hv.rested hv.staffed fuel p
          rwa [show entrust fuel p v = (r, u) from run] at hfinal
      · next e v hrun =>
        cases run
        rwa [hrun] at hreceive
    exact ⟨l, hl.crew rfl⟩

theorem turns {env : Env} {config : Config}
    (h : Turns (fun _ ev => ev.Definite) (State.init env config) s) : s.Orderly :=
  h.invariant (fun _ _ _ hs hev hstep => hs.step hev hstep) (.init env config)

end State.Orderly

/-- The shape of the trees, and where solvers are in them. -/
structure State.TreeShape (s : State) : Prop where
  alternate : ∀ p c, c ∈ s.heap.children p → s.heap.isOr c = s.heap.isAnd p
  single : ∀ n, n < s.heap.size → s.heap.isAnd n = true → s.heap.len n ≤ 1
  partitioning : ∀ n, n < s.heap.size → (s.heap.attrs n).partitioning = true →
    s.heap.isAnd n = true ∧ ∃ o, s.heap.children n = [o]
  assigned : ∀ x n, s.Connected x ∨ x ∈ s.idleSolvers → (s.solver x).node = some n →
    s.heap.isAnd n = true ∧ ∃ i, s.current = some i ∧ s.heap.Reaches (s.root i) n
  waiting : ∀ x o, o ∈ (s.solver x).orWaiting →
    ∃ n, (s.solver x).node = some n ∧ o ∈ s.heap.children n

theorem State.Orderly.treeShape (hs : s.Orderly) : s.TreeShape where
  alternate p c hc := Heap.isOr_of_parent (s.heap.parent_of_mem hc)
  single := hs.shaped.single
  partitioning n hn hask := by
    obtain ⟨hand, hne⟩ := hs.shaped.asked n hn hask
    have hone : (s.heap.children n).length = 1 :=
      Nat.le_antisymm (hs.shaped.single n hn hand) (List.length_pos_iff.mpr hne)
    exact ⟨hand, List.length_eq_one_iff.mp hone⟩
  assigned x n hx hn := by
    obtain ⟨_, hand, hatt⟩ := hs.consistent.seated.placed x n hn
    obtain ⟨i, hi, hr⟩ := hs.consistent.here x n hx hn
    exact ⟨hand, i, hi, hr ▸ hatt⟩
  waiting x o ho := by
    obtain ⟨n, hn, hmem, _⟩ := hs.consistent.seated.waiting x o ho
    exact ⟨n, hn, hmem⟩

/-- As long as solvers report nothing but results and partitions, the trees keep their shape, and
no call of `entrust` accesses a child that is not there or violates an assertion. -/
theorem scheduling_assertions {env : Env} {config : Config}
    (h : Turns (fun _ ev => ev.Definite) (State.init env config) s) :
    s.TreeShape ∧ ∀ ev p t fuel, ev.Definite → ev.ready s → receive ev s = (.ok (some p), t) →
      (entrust fuel p t).1 ≠ .error .indexError ∧ (entrust fuel p t).1 ≠ .error .assertionError := by
  have hs : s.Orderly := .turns h
  refine ⟨hs.treeShape, fun ev p t fuel hev ready hreceive => ?_⟩
  obtain ⟨ht, hp⟩ := hs.received hev ready hreceive
  have calm : FaultlessAt (entrust fuel p) t :=
    faultlessAt_entrust ht.consistent ht.shaped ht.rested ht.staffed hp
  have benign (e : Exn) (he : (entrust fuel p t).1 = .error e) : e.Benign :=
    wp_error (E := fun e _ => e.Benign) calm (Prod.ext he rfl)
  exact ⟨fun he => (benign _ he).1 rfl, fun he => (benign _ he).2 rfl⟩

/-- Two solvers work on the two partitions of an instance, and are idle as their time is up. -/
def bothIdle : List Event :=
  [.accept "a", .message 1 [(Constant.solver, "OpenSMT2")] (some ""),
    .accept "b", .message 3 [(Constant.solver, "OpenSMT2")] (some ""), .accept "c",
    .message 5 [(Constant.command, Constant.solve), (Constant.name, "a.smt2")]
      (some "(assert true)"), .timeout,
    .message 2 [(Constant.report, "partitions"), (Constant.name, "a.smt2"), (Constant.node, "[]")]
      (some "x\x00y"), .timeout]

theorem scheduling_assertions_idle :
    ∃ s, bothIdle.foldlM (guarded (State.turn 3) fun _ ev => ev.Definite) (State.init Env.steady
        { partitionTimeout := some second, nodeTimeout := some (4 * second) }) = some s ∧
      s.idleSolvers = [2, 4] ∧ (s.heap.attrs 2).partitioning = true ∧ s.TreeShape ∧
      (entrust 3 none s).1 ≠ .error .indexError ∧ (entrust 3 none s).1 ≠ .error .assertionError := by
  obtain ⟨s, h, hidle, hask⟩ := exists_of_any (o := bothIdle.foldlM
    (guarded (State.turn 3) fun _ ev => ev.Definite) (State.init Env.steady
      { partitionTimeout := some second, nodeTimeout := some (4 * second) }))
    (P := fun s => s.idleSolvers = [2, 4] ∧ (s.heap.attrs 2).partitioning = true) (by decide +kernel)
  obtain ⟨hshape, hcalm⟩ := scheduling_assertions (.of_run (.of_script h))
  exact ⟨s, h, hidle, hask, hshape, hcalm .timeout none s 3 trivial trivial rfl⟩

end Turns

end Smts.Server
