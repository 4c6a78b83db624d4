import Smts.Server.Determinism
import Smts.Server.LoopTwins
import Smts.Server.Receiving
import Smts.Server.Settings
import Smts.Server.Verdicts

namespace Smts.Server

open Smts.Lib Smts.Lib.Prog

section Carried

variable {s t u w : State} {i : InstId} {n : NodeId} {α : Type}

/-- What the server keeps when it turns to another instance, and no instance should change. -/
def State.carried (s : State) : Option Time × Bool := (s.config.nodeTimeout, s.terminate)

instance : View State.carried :=
  ⟨fun h => congrArg (fun o : Outline => (o.nodeTimeout, o.terminate)) h⟩

instance : HidesWiring State.carried :=
  ⟨fun h => (congrArg (fun o : Outline => (o.nodeTimeout, o.terminate)) h :)⟩

instance : HidesBusy State.carried := ⟨fun _ _ => rfl⟩
instance : HidesIdle State.carried := ⟨fun _ _ => rfl⟩
instance : HidesTotal State.carried := ⟨fun _ _ => rfl⟩
instance : HidesCount State.carried := ⟨fun _ _ => rfl⟩
instance : HidesSeed State.carried := ⟨fun _ _ => rfl⟩

/-- The pass finds no node timeout, and one solver on this leaf. -/
def State.Unlimited (s : State) (n : NodeId) : Prop :=
  truthy s.config.nodeTimeout = none ∧ s.heap.isAnd n = true ∧
    (s.heap.attrs n).processed = false ∧ s.heap.status n = .unknown ∧ s.heap.len n = 0 ∧
      (s.solvers (.at (some n))).length = 1

/-- The pass over the nodes has come from the first state to the second one. -/
structure Surveyed (s t : State) : Prop where
  carried : t.carried = s.carried
  forest : t.heap.toForest = s.heap.toForest
  label : t.heap.label = s.heap.label
  status : ∀ n, t.heap.status n = s.heap.status n
  rlist : t.rlist = s.rlist
  kind : t.kind = s.kind
  node : ∀ x, (t.solver x).node = (s.solver x).node
  processed : ∀ n, (s.heap.attrs n).processed = true → (t.heap.attrs n).processed = true

namespace Surveyed

theorem refl (s : State) : Surveyed s s :=
  ⟨rfl, rfl, rfl, fun _ => rfl, rfl, rfl, fun _ => rfl, fun _ h => h⟩

theorem limit (h : Surveyed s t) : t.config.nodeTimeout = s.config.nodeTimeout :=
  congrArg Prod.fst h.carried

theorem active (h : Surveyed s t) (hn : (t.heap.attrs n).processed = false) :
    (s.heap.attrs n).processed = false :=
  Bool.eq_false_iff.mpr fun hp => by simp [h.processed n hp] at hn

theorem solvers_eq (h : Surveyed s t) (n : Option NodeId) :
    t.solvers (.at n) = s.solvers (.at n) := by
  simp only [State.solvers, Which.holds, h.rlist, h.kind, h.node]

abbrev Keeps (w : State) (m : M α) : Prop := Preserves (Surveyed w) m

theorem keeps_inOrder (xs : List SockId) : Keeps w (inOrder xs) := fun _ h => { h with }

theorem keeps_now : Keeps w now := fun _ h => { h with }

theorem keeps_solvers (which : Which) : Keeps w (solvers which) :=
  .bind .get fun _ => keeps_inOrder _

theorem keeps_idle (l : State → List SockId) :
    Keeps w (modify fun s => { s with idleSolvers := l s }) := .modify fun _ h => { h with }

theorem keeps_count (k : Config → Int) :
    Keeps w (modifyConfig fun c => { c with partitionCount := k c }) := .modify fun _ h => { h with }

theorem keeps_flag (n : NodeId) {f : Attrs → Attrs} (hstatus : ∀ a, (f a).status = a.status)
    (hprocessed : ∀ a, a.processed = true → (f a).processed = true) :
    Keeps w (modifyNode n f) := by
  refine .modify fun s h => { h with status := fun m => ?_, processed := fun m hm => ?_ }
  · rw [Heap.status, Heap.modify_attrs, ← h.status]
    split
    · next he => rw [hstatus, he, Heap.status]
    · rfl
  · rw [Heap.modify_attrs]
    split
    · next he => exact hprocessed _ (he ▸ h.processed m hm)
    · exact h.processed m hm

theorem keeps_collectSolver (acc : List SockId) (x : SockId) : Keeps w (collectSolver acc x) :=
  .bind .get fun _ => .ite (.bind (keeps_idle _) fun _ => .pure _)
    (.bind (keeps_count _) fun _ => .pure _)

theorem keeps_collectAt (n : NodeId) (solved : List SockId) : Keeps w (collectAt n solved) :=
  .bind (keeps_flag n (fun _ => rfl) fun _ _ => rfl) fun _ =>
    .bind (keeps_solvers _) fun l => .foldEach keeps_collectSolver _ l

theorem keeps_passUnsat (n : NodeId) (solved : List SockId) : Keeps w (passUnsat n solved) := by
  refine .bind .get fun s => ?_
  dsimp only
  split
  · exact .bind (.pure _) (keeps_collectAt n)
  · refine .ite (.bind (keeps_solvers _) fun l => ?_) (.bind (.pure _) (keeps_collectAt n))
    exact .bind (.foldEach keeps_collectSolver _ l) fun _ =>
      .bind (keeps_flag _ (fun _ => rfl) fun _ _ => rfl) fun _ => .bind (.pure _) (keeps_collectAt n)

theorem keeps_addIdle (counted : Bool) (x : SockId) : Keeps w (addIdle counted x) :=
  .bind .get fun _ => .when (.bind (keeps_idle _) fun _ => .when (keeps_count _))

theorem keeps_passTimeout (n : NodeId) : Keeps w (passTimeout n) := by
  have rest (s : State) (split : Bool) : Keeps w (
      if split = true then retire n (!(s.heap.attrs n).assumedTimout)
      else when ((s.heap.attrs n).assumedTimout = false) (suspend n)) := by
    refine .ite (.bind (keeps_solvers _) fun l => ?_) (.when (.bind (keeps_solvers _) fun l => ?_))
    · exact .bind (.forEach (keeps_addIdle _) l) fun _ =>
        .bind (keeps_flag n (fun _ => rfl) fun _ _ => rfl) fun _ =>
          keeps_flag n (fun _ => rfl) fun _ h => h
    · exact .bind (.forEach (keeps_addIdle _) l) fun _ => keeps_flag n (fun _ => rfl) fun _ h => h
  refine .bind .get fun s => .ite ?_ (.bind (.pure _) (rest s))
  split
  · exact .bind (.raise _) (rest s)
  · exact .bind (.pure _) (rest s)

theorem keeps_timedOut (n : NodeId) : Keeps w (timedOut n) := by
  refine .bind .get fun s => ?_
  split
  · exact .bind keeps_now fun _ => .pure _
  · exact .pure _

theorem keeps_aim (acc : Pass) (n : NodeId) (solved : List SockId) : Keeps w (aim acc n solved) :=
  .bind .get fun _ => .ite (.pure _) (.pure _)

theorem keeps_get {f : State → M α} (hf : ∀ s, Surveyed w s → Keeps w (f s)) :
    Keeps w (get >>= f) :=
  fun s hs => hf s hs s hs

theorem keeps_passNode (acc : Pass) (h : ¬ w.Unlimited n) : Keeps w (passNode i acc n) := by
  refine keeps_get fun s hs => ?_
  split
  · next hand =>
    refine .bind_of (Q := fun _ => s.heap.status n ≠ .sat) (fun t ht => ?_) fun _ hsat => ?_
    · rw [wp_when]
      exact ⟨fun _ => ht, fun hne => ⟨ht, hne⟩⟩
    · split
      · exact .bind (keeps_passUnsat n _) (keeps_aim acc n)
      · next hunsat =>
        refine .bind (keeps_timedOut n) fun late => .ite ?_ (keeps_get fun t ht => ?_)
        · exact .bind (keeps_passTimeout n) fun _ => .bind (.pure _) (keeps_aim acc n)
        · rw [when, if_neg]
          · exact .bind (.pure _) fun _ => .bind (.pure _) (keeps_aim acc n)
          · rintro ⟨hlimit, hlen, hone⟩
            have hst : s.heap.status n = .unknown := by
              cases hst : s.heap.status n with
              | unknown => rfl
              | sat => exact absurd hst hsat
              | unsat => exact absurd hst hunsat
            refine h ⟨ht.limit ▸ hlimit, ?_, hs.active hand.2, hs.status n ▸ hst, ?_, ?_⟩
            · rw [← Heap.isAnd_congr hs.label]
              exact hand.1
            · rwa [Heap.len, ht.forest] at hlen
            · rwa [ht.solvers_eq] at hone
  · exact .pure _

end Surveyed

/-- The node timeout is chosen in the pass over the nodes of the instance. -/
def State.Limits (s : State) (i : InstId) : Prop := ∃ n ∈ s.heap.all (s.root i), s.Unlimited n

theorem carried_survey (fuel : Nat) (h : ¬ s.Limits i) :
    wp (survey fuel i) (fun _ t => t.carried = s.carried) (fun _ t => t.carried = s.carried) s := by
  have nodes : ∀ n ∈ s.heap.sortByLevel (s.heap.all (s.root i)), ¬ s.Unlimited n := fun n hn hu =>
    h ⟨n, (List.mem_insertionSort _).mp hn, hu⟩
  rw [survey, wp_bind, wp_get, wp_bind]
  refine wp_mono (wp_foldEach (I := fun _ ns t => Surveyed s t ∧ ∀ n ∈ ns, ¬ s.Unlimited n)
    (E := fun _ t => Surveyed s t) (fun acc n ns t ht => ?_) ⟨.refl s, nodes⟩)
    (fun acc t ht => ?_) fun _ _ ht => ht.carried
  · exact wp_mono ((Surveyed.keeps_passNode acc (ht.2 n List.mem_cons_self)).wp ht.1)
      (fun _ _ hu => ⟨hu, fun m hm => ht.2 m (List.mem_cons_of_mem n hm)⟩) fun _ _ hu => hu
  · exact Leaves.wp (I := fun c => c = s.carried) (.bind (untouched_relocate fuel i _) fun _ => .pure _)
      ht.1.carried

theorem stuck_of_not (hst : s.heap.status (s.root i) = .unknown) (h : ¬ s.Stuck i) :
    wp (stuck i) (fun b t => b = false ∧ t = s) (fun _ t => t = s) s := by
  rw [stuck, wp_bind, wp_get]
  dsimp only
  split
  · next hp =>
    rw [wp_bind]
    cases hc : s.heap.childeren (s.root i) with
    | error e => exact rfl
    | ok childs =>
      rw [wp_ofExcept_ok, if_neg]
      · exact ⟨rfl, rfl⟩
      · rintro ⟨rfl, hterm⟩
        exact h ⟨hst, hp, hc, hterm⟩
  · exact ⟨rfl, rfl⟩

theorem carried_conclude (h : ¬ s.Stuck i) :
    wp (conclude i) (fun _ t => t.carried = s.carried) (fun _ t => t.carried = s.carried) s := by
  have rest (returned : Bool) : Leaves State.carried (if returned then return true else do
      printResult i
      release i
      return false : M Bool) :=
    .ite (by simp) (.bind (by simp) fun _ => .bind (by simp) fun _ => by simp)
  rw [conclude, wp_bind, wp_get]
  split
  · next hst =>
    rw [wp_bind]
    refine wp_mono (stuck_of_not hst h) (fun b t ht => ?_) fun _ t ht => ht ▸ rfl
    obtain ⟨-, rfl⟩ := ht
    exact Leaves.wp (I := fun c => c = t.carried)
      (.ite (rest true) (.bind (.when (.raise _)) fun _ => rest false)) rfl
  · exact Leaves.wp (I := fun c => c = s.carried) (rest false) rfl

/-- In the state in which `entrust` is called: it does not report the current instance as stuck,
and chooses no node timeout. -/
def State.Contained (s : State) : Prop :=
  (∀ i t, s.current = some i → isOver i s = (.ok true, t) → ¬ t.Stuck i) ∧
    ∀ i t, attend s = (.ok (some i), t) → ¬ t.Limits i

theorem carried_settle (h : s.Contained) :
    wp (settle s.current) (fun _ t => t.carried = s.carried) (fun _ t => t.carried = s.carried) s := by
  cases hc : s.current with
  | none => exact rfl
  | some i =>
    rw [settle, wp_bind]
    have kept : Leaves State.carried (isOver i) := untouched_isOver i
    refine wp_of_run (fun ended t ht => ?_) fun e t ht => ?_
    · have hsame : t.carried = s.carried := by rw [← kept s, ht]
      cases ended with
      | false => exact hsame
      | true =>
        rw [if_pos rfl]
        exact wp_mono (carried_conclude (h.1 i t hc ht)) (fun _ _ hu => hu.trans hsame)
          fun _ _ hu => hu.trans hsame
    · rw [← kept s, ht]

theorem carried_attend (h : s.Contained) :
    wp attend (fun _ t => t.carried = s.carried) (fun _ t => t.carried = s.carried) s := by
  rw [attend, wp_bind, wp_gets, wp_bind]
  exact wp_mono (carried_settle h) (fun returned t ht =>
    Leaves.wp (I := fun c => c = s.carried) (untouched_proceed s.current returned) ht) fun _ _ ht => ht

theorem carried_entrust (h : s.Contained) (fuel : Nat) (q : Option PNode) :
    wp (entrust fuel q) (fun _ t => t.carried = s.carried) (fun _ t => t.carried = s.carried) s := by
  have kept := carried_attend h
  rw [entrust, wp_bind]
  refine wp_of_run (fun r t ht => ?_) fun e t ht => (wp_error kept ht :)
  have hsame := wp_ok kept ht
  cases r with
  | none => exact hsame
  | some i =>
    rw [wp_bind]
    refine wp_mono (carried_survey fuel (h.2 i t ht)) (fun r u hu => ?_)
      fun _ u hu => hu.trans hsame
    exact Leaves.wp (I := fun c => c = s.carried) (untouched_distribute fuel i q r.1 r.2)
      (hu.trans hsame)

/-- The event leads to no such report or choice. -/
def Event.Contained (s : State) (ev : Event) : Prop :=
  ∀ q u, receive ev s = (.ok (some q), u) → u.Contained

variable {ev : Event}

theorem carried_handle (h : ev.Contained s) (fuel : Nat) :
    wp (handle fuel ev) (fun _ t => t.carried = s.carried) (fun _ t => t.carried = s.carried) s := by
  have receives : Leaves State.carried (receive ev) := untouched_receive ev
  rw [handle, wp_bind]
  refine wp_of_run (fun r t ht => ?_) fun e t ht => by rw [← receives s, ht]
  have hsame : t.carried = s.carried := by rw [← receives s, ht]
  cases r with
  | none => exact hsame
  | some q =>
    exact wp_mono (carried_entrust (h q t ht) fuel q) (fun _ _ hu => hu.trans hsame)
      fun _ _ hu => hu.trans hsame

theorem Step.carried (h : Step s ev t) (hev : ev.Contained s) : t.carried = s.carried := by
  cases h with
  | @mk fuel r u running ready run ends =>
    cases r with
    | ok _ => exact (wp_ok (carried_handle hev fuel) run :)
    | error _ => exact (wp_error (carried_handle hev fuel) run :)

theorem Turns.carried (h : Turns (fun s ev => ev.Contained s) s t) : t.carried = s.carried :=
  h.invariant (I := fun u => u.carried = s.carried)
    (fun _ _ _ hu hev hstep => (hstep.carried hev).trans hu) rfl

end Carried

section Latched

variable {s t : State} {ev : Event} {G : State → Event → Prop} {k : Time} {α : Type}

instance : View fun s : State => s.config.nodeTimeout := ⟨fun h => congrArg Outline.nodeTimeout h⟩
instance : HidesWiring fun s : State => s.config.nodeTimeout :=
  ⟨fun h => (congrArg Outline.nodeTimeout h :)⟩
instance : HidesBusy fun s : State => s.config.nodeTimeout := ⟨fun _ _ => rfl⟩
instance : HidesIdle fun s : State => s.config.nodeTimeout := ⟨fun _ _ => rfl⟩
instance : HidesTotal fun s : State => s.config.nodeTimeout := ⟨fun _ _ => rfl⟩
instance : HidesCount fun s : State => s.config.nodeTimeout := ⟨fun _ _ => rfl⟩
instance : HidesTerminate fun s : State => s.config.nodeTimeout := ⟨fun _ _ => rfl⟩
instance : HidesSeed fun s : State => s.config.nodeTimeout := ⟨fun _ _ => rfl⟩

instance : View State.terminate := ⟨fun h => congrArg Outline.terminate h⟩
instance : HidesWiring State.terminate := ⟨fun h => (congrArg Outline.terminate h :)⟩
instance : HidesBusy State.terminate := ⟨fun _ _ => rfl⟩
instance : HidesIdle State.terminate := ⟨fun _ _ => rfl⟩
instance : HidesTotal State.terminate := ⟨fun _ _ => rfl⟩
instance : HidesCount State.terminate := ⟨fun _ _ => rfl⟩
instance : HidesLimit State.terminate := ⟨fun _ _ => rfl⟩
instance : HidesSeed State.terminate := ⟨fun _ _ => rfl⟩

/-- The server has a node timeout. -/
def State.Limited (s : State) (k : Time) : Prop := s.config.nodeTimeout = some k ∧ k ≠ 0

theorem limited_of_leaves {m : M α} (h : Leaves (fun s : State => s.config.nodeTimeout) m) :
    Preserves (State.Limited · k) m :=
  fun s hs => ⟨(h s).trans hs.1, hs.2⟩

theorem terminate_of_leaves {m : M α} (h : Leaves State.terminate m) :
    Preserves (State.terminate · = true) m :=
  fun s hs => (h s).trans hs

theorem limited_survey (fuel : Nat) (i : InstId) :
    Preserves (State.Limited · k) (survey fuel i) := by
  intro s hs
  have limits : ¬ s.Limits i := by
    rintro ⟨n, _, hlimit, _⟩
    rw [hs.1] at hlimit
    simp [truthy, hs.2] at hlimit
  have kept {t : State} (ht : t.carried = s.carried) : t.Limited k :=
    ⟨(congrArg Prod.fst ht).trans hs.1, hs.2⟩
  exact wp_final (wp_mono (carried_survey fuel limits) (fun _ _ ht => kept ht) fun _ _ ht => kept ht)

theorem terminate_stuck (i : InstId) : Preserves (State.terminate · = true) (stuck i) := by
  refine .bind .get fun s => .ite (.bind (.ofExcept _) fun childs => .ite ?_ (.pure _)) (.pure _)
  refine .bind (terminate_of_leaves (by simp)) fun _ =>
    .bind (terminate_of_leaves (by simp)) fun l => .bind (terminate_of_leaves (by simp)) fun _ =>
      .bind (.modify fun _ _ => rfl) fun _ => .pure _

theorem terminate_conclude (i : InstId) : Preserves (State.terminate · = true) (conclude i) := by
  have rest (returned : Bool) : Preserves (State.terminate · = true) (if returned then return true
      else do
        printResult i
        release i
        return false : M Bool) :=
    .ite (.pure _) (.bind (terminate_of_leaves (by simp)) fun _ =>
      .bind (terminate_of_leaves (by simp)) fun _ => .pure _)
  refine .bind .get fun s => ?_
  dsimp only
  split
  · refine .bind (terminate_stuck i) fun returned => ?_
    split
    · exact .bind (.pure _) rest
    · exact .bind (.when (.raise _)) fun _ => .bind (.pure _) rest
  · exact .bind (.pure _) rest

theorem limited_entrust (fuel : Nat) (q : Option PNode) :
    Preserves (State.Limited · k) (entrust fuel q) := by
  have attends : Preserves (State.Limited · k) attend := by
    rw [attend]
    exact .bind (.gets _) fun solving => .bind (limited_of_leaves (untouched_settle solving))
      fun returned => limited_of_leaves (untouched_proceed solving returned)
  refine .bind attends fun r => ?_
  cases r with
  | none => exact .pure _
  | some i =>
    exact .bind (limited_survey fuel i) fun r => limited_of_leaves (untouched_distribute fuel i q r.1 r.2)

theorem terminate_entrust (fuel : Nat) (q : Option PNode) :
    Preserves (State.terminate · = true) (entrust fuel q) := by
  have settles (solving : Option InstId) :
      Preserves (State.terminate · = true) (settle solving) := by
    cases solving with
    | none => exact .pure _
    | some i =>
      exact .bind (terminate_of_leaves (by simp)) fun _ => .ite (terminate_conclude i) (.pure _)
  have attends : Preserves (State.terminate · = true) attend := by
    rw [attend]
    exact .bind (.gets _) fun solving => .bind (settles solving)
      fun returned => terminate_of_leaves (untouched_proceed solving returned)
  refine .bind attends fun r => ?_
  cases r with
  | none => exact .pure _
  | some i =>
    exact .bind (terminate_of_leaves (by simp)) fun r => terminate_of_leaves (by simp)

theorem Step.preserves {I : State → Prop} (h : Step s ev t) (hs : I s)
    (running : ∀ u b, I u → I { u with running := b }) (received : Preserves I (receive ev))
    (entrusted : ∀ fuel q, Preserves I (entrust fuel q)) : I t := by
  cases h with
  | @mk fuel r u _ _ run ends =>
    have handles : Preserves I (handle fuel ev) := by
      refine .bind received fun q => ?_
      cases q with
      | none => exact .pure _
      | some q => exact entrusted fuel q
    have hu : I (handle fuel ev s).2 := handles s hs
    rw [run] at hu
    exact running u _ hu

/-- A node timeout that has been chosen for an instance, and the mark that one was stuck, last for
all instances to come. -/
theorem Turns.latched (h : Turns G s t) :
    (∀ k, s.Limited k → t.Limited k) ∧ (s.terminate = true → t.terminate = true) := by
  refine ⟨fun k hk => h.invariant (I := (State.Limited · k)) (fun u ev w hu _ hstep => ?_) hk,
    fun hterm => h.invariant (I := (State.terminate · = true)) (fun u ev w hu _ hstep => ?_) hterm⟩
  · exact hstep.preserves hu (fun _ _ h => h) (limited_of_leaves (untouched_receive ev)) limited_entrust
  · exact hstep.preserves hu (fun _ _ h => h) (terminate_of_leaves (untouched_receive ev))
      terminate_entrust

/-- The solver works on an instance for a while. -/
def working : List Event := oneInstance ++ [.timeout]

/-- It solves the instance and gets the next one. -/
def goesOn : List Event :=
  [.message 2 [(Constant.report, "sat"), (Constant.name, "a.smt2"), (Constant.node, "[]")] (some ""),
    .message 3 [(Constant.command, Constant.solve), (Constant.name, "b.smt2")] (some "(assert false)")]

theorem Turns.latched_chosen :
    ∃ s t, Turns (fun _ _ => True) (State.init Env.steady { partitionTimeout := some second }) s ∧
      Turns (fun _ _ => True) s t ∧ (s.current = some 0 ∧ t.current = some 1) ∧
      s.Limited (60 * second) ∧ t.Limited (60 * second) := by
  obtain ⟨s, hs, t, ht, hcurrent, hlimit⟩ := exists_of_any
    (o := working.foldlM (guarded (State.turn 3) fun _ _ => True)
      (State.init Env.steady { partitionTimeout := some second }))
    (P := fun s => ∃ t ∈ goesOn.foldlM (guarded (State.turn 3) fun _ _ => True) s,
      (s.current = some 0 ∧ t.current = some 1) ∧ s.config.nodeTimeout = some (60 * second))
    (by decide +kernel)
  have hrest : Turns (fun _ _ => True) s t := .of_run (.of_script ht)
  have hlimited : s.Limited (60 * second) := ⟨hlimit, by decide⟩
  exact ⟨s, t, .of_run (.of_script hs), hrest, hcurrent, hlimited,
    (Turns.latched hrest).1 _ hlimited⟩

end Latched

end Smts.Server
