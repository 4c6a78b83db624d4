import Smts.Lib.Bytes
import Smts.Server.Carrying
import Smts.Server.Headcount
import Smts.Server.Verdicts

namespace Smts.Server

open Smts.Lib Smts.Lib.Prog

section Self

/-- The names that a server has for its own things. -/
def Link.self : Link where
  node := id
  inst := id
  live _ := False
  floor := 75674531
  sent := []
  sent' := []
  total := True
  count := True

/-- A server is a twin of itself. -/
def State.Regular (s : State) : Prop := Akin Link.self s s

variable {L : Link} {s t s' t' : State} {ev : Event}

theorem akin_among {live : SockId → Prop} : Akin (L.among live) s t ↔ Akin L s t := Iff.rfl

theorem Akin.running (h : Akin L s t) (b c : Bool) :
    Akin L { s with running := b } { t with running := c } := by
  obtain ⟨live, p, h⟩ := h
  exact ⟨live, p, { h with }⟩

theorem State.Regular.init (env : Env) (config : Config) : (State.init env config).Regular := by
  refine ⟨fun _ => False, ⟨75674531, 75674531, 0, 0⟩, ?_⟩
  exact {
    world := ⟨fun _ => rfl, fun _ => rfl, fun _ => rfl, fun _ => rfl, rfl⟩
    config := rfl
    count := fun _ => rfl
    heap := .refl _
    nodes := Nat.le_refl _
    insts := Nat.le_refl _
    kind := rfl
    sock := rfl
    listening := rfl
    isOpen := rfl
    remote := rfl
    nextSock := rfl
    nextConn := rfl
    rlist := rfl
    solver := fun _ h => h.elim
    parked := fun _ h => h.elim
    placed := fun _ _ h => h.elim
    waiting := fun _ _ h => h.elim
    joined := fun x h => by cases h.2
    resting := fun x h => by cases h
    unborn := fun x hx => ⟨rfl, if_neg (Nat.ne_of_gt hx), rfl⟩
    unopened := fun d hd => ⟨decide_eq_false (Nat.ne_of_gt hd), rfl⟩
    instMono := strictMono_id
    instNext := fun _ _ => rfl
    nextInst := rfl
    inst := fun i hi => absurd hi (Nat.not_lt_zero i)
    rooted := fun i hi => absurd hi (Nat.not_lt_zero i)
    trees := rfl
    entries := fun e he => by cases he
    current := rfl
    here := fun i hi => by cases hi
    idleSolvers := rfl
    total := fun _ => rfl
    terminate := rfl
    counter := rfl
    counter' := rfl
    floor := Nat.le_refl _
    ahead := Nat.le_refl _
    sent := ⟨[], [], rfl, rfl, .nil⟩ }

theorem Twin.even_self {p : Marks} (h : Twin L p s s) (n : Nat) : p.Even n := by
  intro j _
  rw [← h.counter, ← h.counter']

/-- The seeds go up. -/
theorem State.Regular.seed_le (h : s.Regular) : 75674531 ≤ s.counter := by
  obtain ⟨_, _, h⟩ := h
  exact h.counter ▸ h.floor

theorem State.Regular.step (h : s.Regular) (hstep : Step s ev t) : t.Regular := by
  obtain ⟨live, p, h⟩ := h
  cases hstep with
  | @mk fuel r u running ready run ends =>
    have hsame :=
      Coupled.same (h.coupled_handle trivial trivial ready fuel fun q v hv => h.even_self _)
    rw [wp, run] at hsame
    cases r with
    | ok a => exact Akin.running (akin_among.mp hsame) _ _
    | error e => exact Akin.running (akin_among.mp hsame) _ _

theorem Turns.regular {G : State → Event → Prop} {env : Env} {config : Config}
    (h : Turns G (State.init env config) s) : s.Regular :=
  h.invariant (I := State.Regular) (fun _ _ _ hs _ hstep => hs.step hstep) (.init env config)

end Self

section Steps

variable {L : Link} {p : Marks} {s t s' t' : State} {ev : Event} {evs : List Event}

/-- The seeds that the connected solvers could get next have eight digits. -/
def State.Ample (s : State) : Prop := s.counter + s.rlist.length < 10 ^ 8

def Event.Ample (s : State) (ev : Event) : Prop :=
  ∀ q u, receive ev s = (.ok (some q), u) → u.Ample

/-- The server handles the events one after the other. -/
inductive Follows (G : State → Event → Prop) : State → List Event → State → Prop
  | nil {s : State} : Follows G s [] s
  | cons {s t u : State} {ev : Event} {evs : List Event} (ok : G s ev) (step : Step s ev t)
      (rest : Follows G t evs u) : Follows G s (ev :: evs) u

theorem Follows.determined {G : State → Event → Prop} (h : Follows G s evs t)
    (h' : Follows (fun _ _ => True) s evs t') : t' = t := by
  induction h with
  | nil => cases h'; rfl
  | cons _ hstep _ ih =>
    cases h' with
    | cons _ hstep' hrest' => exact ih (hstep.determined hstep' ▸ hrest')

theorem Twin.even (h : Twin L p s t) (hfloor : L.floor = 10 ^ 7) (ample : t.Ample) :
    p.Even t.rlist.length := by
  intro j hj
  have hlow : 10 ^ 7 ≤ p.seed := hfloor ▸ h.floor
  have hhigh := h.ahead
  have hlt : p.seed' + t.rlist.length < 10 ^ 8 := h.counter' ▸ ample
  have size {n : Nat} (low : 10 ^ 7 ≤ n) (high : n < 10 ^ 8) : (toString n).utf8ByteSize = 8 :=
    utf8ByteSize_repr low high
  rw [size (by omega) (by omega), size (by omega) (by omega)]

theorem Twin.even_receive (h : Twin L p s t) (hfloor : L.floor = 10 ^ 7) (ready : ev.ready s)
    (ample : ev.Ample t) (q : Option PNode) (u : State) (hu : receive ev s = (.ok (some q), u)) :
    p.Even u.rlist.length := by
  rcases (h.coupled_receive ev ready).cases with ⟨a, u', b, v, hs, ht, hab, _, htwin⟩ | ⟨e, _, _, hs, _⟩
  · rw [hu] at hs
    cases hs
    obtain ⟨live, htwin⟩ := htwin (Option.some_ne_none q)
    rw [← htwin.rlist]
    exact htwin.even hfloor (ample _ v (hab ▸ ht))
  · rw [hu] at hs
    cases hs

theorem Event.ready_congr (rlist : t.rlist = s.rlist) (sock : t.sock = s.sock)
    (isOpen : t.isOpen = s.isOpen) : ev.ready t ↔ ev.ready s := by
  cases ev with
  | timeout => exact Iff.rfl
  | accept _ => exact Iff.rfl
  | message x _ _ => rw [Event.ready, Event.ready, rlist, sock, isOpen]
  | closed x => rw [Event.ready, Event.ready, rlist, sock, isOpen]

/-- Twins handle an event alike. -/
theorem Akin.step (h : Akin L s t) (hfloor : L.floor = 10 ^ 7) (htotal : L.total) (hcount : L.count)
    (hrun : s.running = t.running) (ample : ev.Ample t) (hstep : Step t ev t') :
    ∃ s', Step s ev s' ∧ Akin L s' t' ∧ s'.running = t'.running := by
  obtain ⟨live, p, h⟩ := h
  cases hstep with
  | @mk fuel r v running ready run ends =>
    have hready : ev.ready s := (Event.ready_congr h.rlist h.sock h.isOpen).mp ready
    have hboth := h.coupled_handle htotal hcount hready fuel
      (h.even_receive hfloor hready ample)
    have finish {u : State} (hu : handle fuel ev s = (r, u)) (hakin : Akin L u v) :
        ∃ s', Step s ev s' ∧ Akin L s' { v with running := r ≠ .error .systemExit ∧ v.rlist ≠ [] } ∧
          s'.running = decide (r ≠ .error .systemExit ∧ v.rlist ≠ []) := by
      refine ⟨_, .mk (hrun.trans running) hready hu ends, hakin.running _ _, ?_⟩
      obtain ⟨_, _, hakin⟩ := hakin
      rw [hakin.rlist]
    rcases hboth.cases with ⟨a, u, b, v', hu, hv, hakin⟩ | ⟨e, u, v', hu, hv, hakin⟩
    · rw [run] at hv
      cases hv
      exact finish hu (akin_among.mp hakin)
    · rw [run] at hv
      cases hv
      exact finish hu (akin_among.mp hakin)

/-- Twins go on alike. -/
theorem Akin.follows (h : Akin L s t) (hfloor : L.floor = 10 ^ 7) (htotal : L.total)
    (hcount : L.count) (hrun : s.running = t.running)
    (hfollows : Follows Event.Ample t evs t') :
    ∃ s', Follows (fun _ _ => True) s evs s' ∧ Akin L s' t' := by
  induction hfollows generalizing s with
  | nil => exact ⟨s, .nil, h⟩
  | cons ample hstep _ ih =>
    obtain ⟨u, hu, hakin, hrun⟩ := h.step hfloor htotal hcount hrun ample hstep
    obtain ⟨s', hs', hakin⟩ := ih hakin hrun
    exact ⟨s', .cons trivial hu hs', hakin⟩

end Steps

section Picking

variable {s t u v w : State} {ev : Event} {i : InstId}

/-- In the turn of the event the server takes the instance as the next one, and comes to the state
in which it starts it. -/
inductive Picks (s : State) (ev : Event) (i : InstId) (w : State) : Prop
  | mk {q : Option PNode} {u v : State} {is : List InstId} (running : s.running = true)
      (ready : ev.ready s) (received : receive ev s = (.ok (some q), u))
      (settled : settle u.current u = (.ok false, v)) (free : v.current = none)
      (picked : schedulables v = (.ok (i :: is), w))

theorem starting_bind {α : Type} (k : Bool → M α) :
    starting i >>= k = starting i >>= fun _ => k true := by
  rw [starting]
  simp only [bind_bind]
  rfl

theorem starting_true {b : Bool} (h : starting i w = (.ok b, t)) : b = true := by
  have hk := congrFun (starting_bind (i := i) pure) w
  rw [bind_ok h, bind_ok h] at hk
  cases hk
  rfl

theorem proceed_none (free : v.current = none) (solving : Option InstId) :
    proceed solving false v = (startNext >>= fun started => do
      if started then pure () else allDone solving
      return none) v := by
  rw [proceed, if_neg Bool.false_ne_true]
  refine (bind_ok (gets_run State.current v)).trans ?_
  rw [free]

/-- From there on the turn only starts the instance. -/
theorem Picks.handle (h : Picks s ev i w) (fuel : Nat) :
    handle fuel ev s = (starting i >>= fun _ => pure ()) w := by
  obtain ⟨running, ready, received, settled, free, picked⟩ := h
  rename_i q u v is
  have hstart : startNext v = starting i w := bind_ok picked
  have hattend : attend u = proceed u.current false v := by
    rw [attend]
    exact bind_ok settled
  have hentrust : Server.handle fuel ev s = entrust fuel q u := bind_ok received
  rw [hentrust, entrust, bind_run, hattend, proceed_none free, bind_run, bind_run, hstart]
  rcases hrun : starting i w with ⟨e | started, t⟩
  · rfl
  · rw [starting_true hrun]
    rfl

theorem Picks.path (hs : Consistent s) (h : Picks s ev i w) :
    Path (fun a u => a.Allowed True u) s w ∧ w.current = none ∧ i ∈ w.trees.map Prod.snd := by
  obtain ⟨running, ready, received, settled, free, picked⟩ := h
  rename_i q u v is
  have receives : Runs (Act.Received True ev s) True (receive ev) (ev.Brings s) s := runs_receive hs
  have hsu := (wp_ok receives received).1
  have hu : Consistent u := hs.path (fun _ _ ha => ha.1) hsu
  have settles : Runs (Act.Entrusted True u.idleSolvers) True (settle u.current) (fun _ _ => True) u :=
    (runs_settle hu rfl (.inl trivial)).mono fun _ _ _ _ => trivial
  have huv := (wp_ok settles settled).1
  obtain ⟨hquiet, hmem⟩ := wp_ok wp_schedulables picked
  refine ⟨?_, hquiet.current.trans free, ?_⟩
  · have hsu : Path (fun a u => a.Allowed True u) s u := Path.mono hsu fun _ _ ha => ha.1
    have huv : Path (fun a u => a.Allowed True u) u v := Path.mono huv fun _ _ ha => ha.1
    exact (hsu.trans huv).trans (Path.quiet ⟨trivial, trivial⟩ hquiet)
  · rw [hquiet.trees]
    exact (hmem i List.mem_cons_self).1

/-- What the next instance finds: nobody works, is idle, or waits for partitions. -/
structure State.Fresh (s : State) : Prop where
  current : s.current = none
  idleSolvers : s.idleSolvers = []
  node : ∀ x, s.Connected x → (s.solver x).node = none
  started : ∀ x, s.Connected x → (s.solver x).started = none
  orWaiting : ∀ x, s.Connected x → (s.solver x).orWaiting = []

theorem Picks.regular (h : Picks s ev i w) (hs : s.Regular) : w.Regular := by
  obtain ⟨running, ready, received, settled, free, picked⟩ := h
  rename_i q u v is
  obtain ⟨live, p, hs⟩ := hs
  have receives := Coupled.same (hs.coupled_receive ev ready)
  obtain ⟨-, -, htwin⟩ := wp_ok receives received
  obtain ⟨live, hu⟩ := htwin (Option.some_ne_none q)
  have settles : Match (Link.self.among live) (p.at u) (settle u.current)
      (settle (u.current.map id)) u u := hu.at_twin.match_settle hu.here
  rw [Option.map_id, id] at settles
  have hv := (wp_ok (Coupled.same settles) settled).2
  have hw := (wp_ok (Coupled.same hv.schedulables_twin) picked).2
  exact ⟨live, _, hw⟩

theorem Picks.fresh (hs : Consistent s) (hr : s.Rested) (hreg : s.Regular) (h : Picks s ev i w) :
    w.Fresh := by
  obtain ⟨hpath, hnone, -⟩ := h.path hs
  have hw : Consistent w := hs.path (fun _ _ ha => ha) hpath
  obtain ⟨live, p, htwin⟩ := h.regular hreg
  have node (x : SockId) (hx : w.Connected x) : (w.solver x).node = none := by
    cases hn : (w.solver x).node with
    | none => rfl
    | some n =>
      obtain ⟨j, hj, -⟩ := hw.here x n (.inl hx) hn
      rw [hnone] at hj
      cases hj
  exact {
    current := hnone
    idleSolvers := (hr.path (fun _ _ ha => ha) hpath).free hnone
    node := node
    started := fun x hx => htwin.parked x (htwin.joined x hx) (node x hx)
    orWaiting := fun x hx => hw.seated.orWaiting_of_none (node x hx) }

/-- Until then a view of the server stays as it is, if giving up an instance leaves it so. -/
theorem Picks.leaves {γ : Type} {v : State → γ} [View v] [HidesWiring v] [HidesBusy v]
    [HidesCount v] (h : Picks s ev i w)
    (hsettle : ∀ q t, receive ev s = (.ok (some q), t) →
      wp (settle t.current) (fun _ u => v u = v t) (fun _ _ => True) t) : v w = v s := by
  obtain ⟨running, ready, received, settled, free, picked⟩ := h
  have receives : v (receive ev s).2 = v s := untouched_receive ev s
  rw [received] at receives
  rename_i q t u is
  have schedules : v (schedulables u).2 = v u := untouched_schedulables u
  rw [picked] at schedules
  exact schedules.trans ((wp_ok (hsettle q t received) settled).trans receives)

theorem Picks.carried (h : Picks s ev i w) (hev : ev.Contained s) : w.carried = s.carried :=
  h.leaves fun q t ht => wp_mono (carried_settle (hev q t ht)) (fun _ _ h => h) fun _ _ _ => trivial

theorem Picks.settings (h : Picks s ev i w) : w.settings = s.settings :=
  h.leaves fun _ t _ => wp_mono ((untouched_settle t.current).wp (I := fun c => c = t.settings) rfl)
    (fun _ _ h => h) fun _ _ _ => trivial

end Picking

section Vacant

variable {G : State → Event → Prop} {s t : State} {ev : Event} {γ : Type} {v : State → γ}

/-- The server takes no instance in the turn of the event. -/
def Event.Vacant (s : State) (ev : Event) : Prop := ∀ i w, ¬ Picks s ev i w

theorem current_receive (hs : Consistent s) (h : (receive ev s).2 = t) : t.current = s.current := by
  have receives : Runs (Act.Received True ev s) True (receive ev) (ev.Brings s) s := runs_receive hs
  have hpath : Path (Act.Received True ev s) s t :=
    h ▸ wp_final (wp_mono receives (fun _ _ h => h.1) fun _ _ h => h.1)
  refine hpath.invariant (I := fun u => u.current = s.current) (fun _ _ hq hu => hq.current.trans hu)
    (fun a u ha hu => ?_) rfl
  have hr := ha.2
  cases a with
  | start | conclude => exact hr.elim
  | _ => exact hu

/-- While nothing is taken, the server only looks at the instances. -/
theorem entrust_vacant (hs : s.current = none)
    (none_picked : ∀ i is w, schedulables s ≠ (.ok (i :: is), w)) (fuel : Nat) (q : Option PNode) :
    (entrust fuel q s).2 = (schedulables s).2 := by
  have hattend : attend s = (schedulables >>= fun _ => pure none) s := by
    have hsettle : attend s = proceed s.current false s := by
      rw [attend]
      refine (bind_ok (gets_run State.current s)).trans ?_
      rw [hs]
      exact bind_ok (pure_run false s)
    rw [hsettle, proceed_none hs, hs, bind_run, bind_run, startNext, bind_run]
    rcases hrun : schedulables s with ⟨e | _ | ⟨i, is⟩, w⟩
    · rfl
    · rfl
    · exact absurd hrun (none_picked i is w)
  rw [entrust, bind_run, hattend, bind_run]
  rcases schedulables s with ⟨e | is, w⟩
  · rfl
  · rfl

theorem current_schedulables : (schedulables s).2.current = s.current :=
  wp_final (wp_mono wp_schedulables (fun _ _ h => h.1.current) fun _ _ h => h.1.current)

theorem view_running [View v] (b : Bool) : v { s with running := b } = v s := View.congr rfl

/-- Such a turn changes nothing that an instance could find. -/
theorem Step.vacant [View v] [HidesWiring v] [HidesBusy v] [HidesCount v] (hs : Consistent s)
    (hnone : s.current = none) (hev : ev.Vacant s) (h : Step s ev t) :
    t.current = none ∧ v t = v s := by
  cases h with
  | @mk fuel r u running ready run ends =>
    have hreceive : v (receive ev s).2 = v s := untouched_receive ev s
    have hcurrent : (receive ev s).2.current = none := (current_receive hs rfl).trans hnone
    have ended : u.current = none ∧ v u = v s → ({ u with
        running := r ≠ .error .systemExit ∧ u.rlist ≠ [] } : State).current = none ∧ v { u with
        running := r ≠ .error .systemExit ∧ u.rlist ≠ [] } = v s :=
      fun hu => ⟨hu.1, (view_running _).trans hu.2⟩
    refine ended ?_
    rw [handle, bind_run] at run
    rcases hrun : receive ev s with ⟨e | q, w⟩
    · rw [hrun] at run hreceive hcurrent
      cases run
      exact ⟨hcurrent, hreceive⟩
    · rw [hrun] at run hreceive hcurrent
      cases q with
      | none =>
        cases run
        exact ⟨hcurrent, hreceive⟩
      | some q =>
        have hsettle : settle w.current w = (.ok false, w) := by
          rw [show w.current = none from hcurrent]
          rfl
        have hentrust := entrust_vacant hcurrent (fun i is w' hpick =>
          hev i w' ⟨running, ready, hrun, hsettle, hcurrent, hpick⟩) fuel q
        obtain rfl : (schedulables w).2 = u := by
          rw [← hentrust, show entrust fuel q w = (r, u) from run]
        have hview : v (schedulables w).2 = v w := untouched_schedulables w
        exact ⟨current_schedulables.trans hcurrent, hview.trans hreceive⟩

theorem Turns.vacant [View v] [HidesWiring v] [HidesBusy v] [HidesCount v] (hs : Consistent s)
    (hnone : s.current = none) (h : Turns (fun s ev => ev.Vacant s) s t) :
    t.current = none ∧ v t = v s := by
  have key : Consistent t ∧ t.current = none ∧ v t = v s :=
    h.invariant (I := fun u => Consistent u ∧ u.current = none ∧ v u = v s)
      (fun _ _ _ hu hev hstep => by
        have hnext := hstep.vacant (v := v) hu.1 hu.2.1 hev
        exact ⟨hu.1.step hstep, hnext.1, hnext.2.trans hu.2.2⟩) ⟨hs, hnone, rfl⟩
  exact key.2

end Vacant

section Same

variable {f : NodeId → NodeId} {g : InstId → InstId} {L : Link} {p : Marks} {s t u v : State}
  {i : InstId}

instance : View State.counter := ⟨fun h => congrArg Outline.counter h⟩
instance : HidesWiring State.counter := ⟨fun h => (congrArg Outline.counter h :)⟩
instance : HidesBusy State.counter := ⟨fun _ _ => rfl⟩
instance : HidesCount State.counter := ⟨fun _ _ => rfl⟩

/-- The second server has the same sockets and the same instances to solve as the first one, the
latter under other names, and the same readings are to come. -/
structure Same (f : NodeId → NodeId) (g : InstId → InstId) (s t : State) : Prop where
  world : s.world.SameFuture t.world
  nextSock : t.nextSock = s.nextSock
  nextConn : t.nextConn = s.nextConn
  rlist : t.rlist = s.rlist
  kind : ∀ x < s.nextSock, t.kind x = s.kind x
  sock : ∀ x < s.nextSock, t.sock x = s.sock x
  listening : ∀ x < s.nextSock, t.listening x = s.listening x
  isOpen : ∀ d < s.nextConn, t.isOpen d = s.isOpen d
  remote : ∀ d < s.nextConn, t.remote d = s.remote d
  name : ∀ x, s.Connected x → (t.solver x).name = (s.solver x).name
  heap : s.heap.Embeds f t.heap
  instMono : StrictMono g
  instNext : ∀ i, s.nextInst ≤ i → g (i + 1) = g i + 1
  nextInst : t.nextInst = g s.nextInst
  inst : ∀ i, i < s.nextInst → t.inst (g i) = { s.inst i with root := f (s.root i) }
  trees : t.trees = s.trees.map fun e => (e.1, g e.2)

theorem config_of_settings {c d : Config}
    (h : ({ d with nodeTimeout := none, partitionCount := 0 } : Config) =
      { c with nodeTimeout := none, partitionCount := 0 }) (hlimit : d.nodeTimeout = c.nodeTimeout) :
    d = { c with partitionCount := d.partitionCount } := by
  cases c
  cases d
  simp only [Config.mk.injEq] at h hlimit ⊢
  tauto

/-- The names that two servers have for the same things, from now on. -/
def Link.between (f : NodeId → NodeId) (g : InstId → InstId) (s t : State) (count : Prop) :
    Link where
  node := f
  inst := g
  live := s.Connected
  floor := 10 ^ 7
  sent := s.sent
  sent' := t.sent
  total := False
  count := count

theorem Same.eq_of_lt {α : Type} {a b : Nat → α} {n : Nat} {c : α} (hlt : ∀ x < n, b x = a x)
    (ha : ∀ x, n ≤ x → a x = c) (hb : ∀ x, n ≤ x → b x = c) : b = a := by
  funext x
  rcases Nat.lt_or_ge x n with h | h
  · exact hlt x h
  · rw [ha x h, hb x h]

/-- Two servers that know the same and start afresh are twins. -/
theorem Same.twin {count : Prop} (h : Same f g s t) (hs : Consistent s) (fs : s.Fresh)
    (ft : t.Fresh) (rs : s.Regular) (rt : t.Regular) (settings : t.settings = s.settings)
    (carried : t.carried = s.carried) (ahead : s.counter ≤ t.counter)
    (hcount : count → t.config.partitionCount = s.config.partitionCount) :
    Twin (Link.between f g s t count) ⟨s.counter, t.counter, 0, s.nextInst⟩ s t := by
  have seed_le := rs.seed_le
  obtain ⟨_, _, rs⟩ := rs
  obtain ⟨_, _, rt⟩ := rt
  have unborn (x : SockId) (hx : s.nextSock ≤ x) := rt.unborn x (h.nextSock ▸ hx)
  have unopened (d : ConnId) (hd : s.nextConn ≤ d) := rt.unopened d (h.nextConn ▸ hd)
  have kind : t.kind = s.kind :=
    eq_of_lt h.kind (fun x hx => (rs.unborn x hx).1) fun x hx => (unborn x hx).1
  have connected (x : SockId) (hx : s.Connected x) : t.Connected x := by
    rwa [State.Connected, h.rlist, kind]
  exact {
    world := h.world
    config := config_of_settings settings (congrArg Prod.fst carried)
    count := hcount
    heap := h.heap
    nodes := Nat.zero_le _
    insts := Nat.le_refl _
    kind := kind
    sock := eq_of_lt h.sock (fun x hx => (rs.unborn x hx).2.1) fun x hx => (unborn x hx).2.1
    listening := eq_of_lt h.listening (fun x hx => (rs.unborn x hx).2.2) fun x hx => (unborn x hx).2.2
    isOpen := eq_of_lt h.isOpen (fun d hd => (rs.unopened d hd).1) fun d hd => (unopened d hd).1
    remote := eq_of_lt h.remote (fun d hd => (rs.unopened d hd).2) fun d hd => (unopened d hd).2
    nextSock := h.nextSock
    nextConn := h.nextConn
    rlist := h.rlist
    solver := fun x hx => by
      have hx' := connected x hx
      refine ⟨h.name x hx, ?_, ?_, ?_⟩
      · rw [fs.node x hx, ft.node x hx', Option.map_none]
      · rw [fs.started x hx, ft.started x hx']
      · rw [fs.orWaiting x hx, ft.orWaiting x hx', List.map_nil]
    parked := fun x hx _ => fs.started x hx
    placed := fun x n hx hn => by cases (fs.node x hx).symm.trans hn
    waiting := fun x o hx ho => absurd (fs.orWaiting x hx ▸ ho) List.not_mem_nil
    joined := fun _ hx => hx
    resting := fun x hx => absurd (fs.idleSolvers ▸ hx) List.not_mem_nil
    unborn := rs.unborn
    unopened := rs.unopened
    instMono := h.instMono
    instNext := h.instNext
    nextInst := h.nextInst
    inst := h.inst
    rooted := fun i hi => (hs.opened i hi).1.1
    trees := h.trees
    entries := fun e he => (hs.entries e he).1
    current := by rw [ft.current, fs.current, Option.map_none]
    here := fun i hi => by cases fs.current.symm.trans hi
    idleSolvers := ft.idleSolvers.trans fs.idleSolvers.symm
    total := False.elim
    terminate := congrArg Prod.snd carried
    counter := rfl
    counter' := rfl
    floor := Nat.le_trans (show 10 ^ 7 ≤ 75674531 by decide) seed_le
    ahead := ahead
    sent := ⟨[], [], (List.append_nil _).symm, (List.append_nil _).symm, .nil⟩ }

/-- The first free solver gets the instance. -/
def State.Hands (s : State) (i : InstId) : Prop :=
  ∃ x xs t u, Server.solvers (.at none)
      { s with current := some i, totalSolvers := (s.solvers .all).length } = (.ok (x :: xs), t) ∧
    startSolver i x t = (.ok (), u)

/-- The same link for servers that agree on the counts. -/
def Link.whole (L : Link) : Link := { L with total := True, count := True }

theorem Twin.whole (h : Twin L p s t) (htotal : t.totalSolvers = s.totalSolvers)
    (hcount : t.config.partitionCount = s.config.partitionCount) : Twin L.whole p s t :=
  { h with total := fun _ => htotal, count := fun _ => hcount }

theorem Twin.recounted (h : Twin L.counted p s t) : Match L.whole p
    (modifyConfig fun c => { c with partitionCount := 0 })
    (modifyConfig fun c => { c with partitionCount := 0 }) s t := by
  refine Coupled.modify ⟨rfl, { h with config := ?_, count := fun _ => rfl }⟩
  dsimp only
  rw [h.config]

/-- With the first solver that gets the instance the servers come to agree on the counts. -/
theorem Twin.coupled_hands (h : Twin L p s t) (hi : i < p.insts) (even : p.Even s.rlist.length)
    (hands : s.Hands i) :
    Coupled (starting i) (starting (L.inst i)) (fun a b u v => b = a ∧ Like L.whole u v)
      (Like L.whole) s t := by
  have hi' := Nat.lt_of_lt_of_le hi h.insts
  have hs : Twin L.counted p
      { s with current := some i, totalSolvers := (s.solvers .all).length }
      { t with current := some (L.inst i), totalSolvers := (t.solvers .all).length } := by
    have here (j : InstId) (hj : some i = some j) : j < s.nextInst := by
      cases hj
      exact hi'
    exact { h with
      current := rfl
      here := here
      total := fun _ => congrArg (fun l : List SockId => (l.length : Int)) (h.solvers_eq .all) }
  obtain ⟨x, xs, w, w', hfirst, hstart⟩ := hands
  refine Coupled.bind (Q := fun _ _ u v =>
    u = { s with current := some i } ∧ v = { t with current := some (L.inst i) })
    (Coupled.modify ⟨rfl, rfl⟩) fun _ _ u v huv => ?_
  obtain ⟨rfl, rfl⟩ := huv
  refine Coupled.bind (Q := fun _ _ u v =>
    u = { s with current := some i, totalSolvers := (s.solvers .all).length } ∧
    v = { t with current := some (L.inst i), totalSolvers := (t.solvers .all).length })
    (Coupled.modify ⟨rfl, rfl⟩) fun _ _ u v huv => ?_
  obtain ⟨rfl, rfl⟩ := huv
  refine Coupled.bind ((hs.solvers (.at none)).known.returned hfirst) fun ys zs u v hu => ?_
  obtain ⟨⟨hp, hsame, hu⟩, hrun⟩ := hu
  obtain ⟨rfl, rfl⟩ : ys = x :: xs ∧ u = w := by
    rw [hfirst] at hrun
    cases hrun
    exact ⟨rfl, rfl⟩
  rw [hsame]
  have hlen : (x :: xs).length ≤ s.rlist.length := hp.length_eq ▸ length_solvers _ _
  have hlive (y : SockId) (hy : y ∈ x :: xs) : L.live y := hs.live_of_solvers (hp.mem_iff.mp hy)
  have hlater : (p.later 1).Even xs.length := by
    intro j hj
    have := even (j + 1) (Nat.le_trans (Nat.succ_le_succ hj) hlen)
    simpa only [Marks.later, Nat.add_assoc, Nat.add_comm 1] using this
  have one : p.Even 1 := fun j hj =>
    even j (Nat.le_trans hj (Nat.le_trans (Nat.succ_le_succ (Nat.zero_le _)) hlen))
  have first : Match L.whole (p.later 1) (startSolver i x >>= fun _ =>
      modifyConfig fun c => { c with partitionCount := 0 }) (startSolver (L.inst i) x >>= fun _ =>
      modifyConfig fun c => { c with partitionCount := 0 }) u v :=
    Coupled.bind ((hu.match_startSolver (hlive x List.mem_cons_self) hi one).returned hstart)
      fun _ _ u v hu => hu.2.recounted
  have rest {u v : State} (hu : Twin L.whole (p.later 1) u v) :
      Match L.whole ((p.later 1).later xs.length) (forEach (fun x => do
        startSolver i x
        modifyConfig fun c => { c with partitionCount := 0 }) xs) (forEach (fun x => do
        startSolver (L.inst i) x
        modifyConfig fun c => { c with partitionCount := 0 }) xs) u v := by
    refine hu.match_starts (fun y hy => hlive y (List.mem_cons_of_mem x hy)) hlater
      fun q y u v hy hq hev hu => ?_
    exact Match.bind (hu.match_startSolver hy (hq ▸ hi) hev) fun _ u v hu =>
      hu.match_recount _ (fun _ => 0) fun _ => rfl
  refine Coupled.bind (Coupled.bind first fun _ _ u v hu => rest hu.2) fun _ _ u v hu => ?_
  exact Coupled.pure ⟨rfl, hu.2.like⟩

end Same

section Isolation

variable {f : NodeId → NodeId} {g : InstId → InstId} {s t u v t₁ t₂ : State} {ev ev' : Event}
  {evs : List Event} {i : InstId} {env env' : Env} {config : Config} {p : Marks}

theorem Turns.rested {G : State → Event → Prop} (h : Turns G (State.init env config) s) :
    s.Rested := by
  have key : Consistent s ∧ s.Rested := h.invariant (I := fun s => Consistent s ∧ s.Rested)
    (fun s ev t hs _ hstep => by
      have hpath : Path (Act.Caused True ev s) s t := hstep.path hs.1 (.inl trivial)
      exact ⟨hs.1.step hstep, hs.2.path (fun _ _ ha => ha.1) hpath⟩)
    ⟨.init env config, List.nodup_nil, fun _ => rfl⟩
  exact key.2

/-- What is brought back when the server takes an instance: whatever it has done before, no
connected solver works, and as long as it has neither chosen a node timeout nor reported a stuck
instance these are as configured. -/
theorem Picks.restored (h : Turns (fun s ev => ev.Contained s) (State.init env config) s)
    (hev : ev.Contained s) (hpick : Picks s ev i u) :
    u.Fresh ∧ u.config = { config with partitionCount := u.config.partitionCount } ∧
      u.terminate = false := by
  have hs : Consistent s := .turns h
  obtain ⟨hlimit, hterm⟩ : u.config.nodeTimeout = config.nodeTimeout ∧ u.terminate = false :=
    Prod.mk.inj ((hpick.carried hev).trans h.carried)
  exact ⟨hpick.fresh hs h.rested h.regular,
    config_of_settings (hpick.settings.trans h.settings) hlimit, hterm⟩

/-- A server that has taken no instance takes its first one with the seeds of its start. -/
theorem Picks.first (h : Turns (fun s ev => ev.Vacant s) (State.init env config) s)
    (hpick : Picks s ev i u) :
    u.carried = (State.init env config).carried ∧ u.counter = (State.init env config).counter := by
  have hs : Consistent s := .turns h
  have hinit : Consistent (State.init env config) := .init env config
  have hcarried := h.vacant (v := State.carried) hinit rfl
  have hcounter := h.vacant (v := State.counter) hinit rfl
  have idle (q : Option PNode) (t : State) (ht : receive ev s = (.ok (some q), t)) : t.current = none :=
    (current_receive hs (congrArg Prod.snd ht)).trans hcarried.1
  refine ⟨(hpick.leaves fun q t ht => ?_).trans hcarried.2,
    (hpick.leaves fun q t ht => ?_).trans hcounter.2⟩
  · rw [idle q t ht]
    rfl
  · rw [idle q t ht]
    rfl

/-- The two servers start the same instance alike. -/
theorem Twin.coupled_taking (h : Twin (Link.between f g u v False) p u v) (hi : i < p.insts)
    (even : p.Even u.rlist.length)
    (hcount : v.config.partitionCount = u.config.partitionCount ∨ u.Hands i) :
    Coupled (starting i) (starting (g i))
      (fun a b s t => b = a ∧ Like (Link.between f g u v False).whole s t)
      (Like (Link.between f g u v False).whole) u v := by
  rcases hcount with hcount | hands
  · have hsame : Twin (Link.between f g u v True) p u v := { h with count := fun _ => hcount }
    exact hsame.coupled_starting hi even
  · exact h.coupled_hands hi even hands

/-- Instances do not influence each other: a server that has worked on any other instances gives
the same commands for the next one as a server that has had none before does in its only run. -/
theorem Picks.isolated (hs : Turns (fun s ev => ev.Vacant s) (State.init env config) s)
    (ht : Turns (fun s ev => ev.Contained s) (State.init env' config) t) (hev : ev'.Contained t)
    (hpick : Picks s ev i u) (hpick' : Picks t ev' (g i) v) (same : Same f g u v)
    (hcount : v.config.partitionCount = u.config.partitionCount ∨ u.Hands i) (ample : v.Ample)
    (hstep : Step t ev' t₁) (later : Follows Event.Ample t₁ evs t₂) :
    ∃ s₂, Follows (fun _ _ => True) s (ev :: evs) s₂ ∧
      (∀ s₃, Follows (fun _ _ => True) s (ev :: evs) s₃ → s₃ = s₂) ∧
      ∃ l l', s₂.sent = u.sent ++ l ∧ t₂.sent = v.sent ++ l' ∧ List.Forall₂ Sent.Alike l l' := by
  have hcs : Consistent s := .turns hs
  have hct : Consistent t := .turns ht
  have hru : u.Regular := hpick.regular hs.regular
  have hrv : v.Regular := hpick'.regular ht.regular
  obtain ⟨hpath, -, hmem⟩ := hpick.path hcs
  have hcu : Consistent u := hcs.path (fun _ _ ha => ha) hpath
  obtain ⟨hcarried, hcounter⟩ := hpick.first hs
  have htwin : Twin (Link.between f g u v False) ⟨u.counter, v.counter, 0, u.nextInst⟩ u v := by
    refine same.twin hcu (hpick.fresh hcs hs.rested hs.regular)
      (hpick'.fresh hct ht.rested ht.regular) hru hrv ?_ ?_ ?_ False.elim
    · exact ((hpick'.settings.trans ht.settings).trans (hpick.settings.trans hs.settings).symm :)
    · exact ((hpick'.carried hev).trans ht.carried).trans hcarried.symm
    · exact hcounter ▸ hrv.seed_le
  have hi : i < u.nextInst := by
    obtain ⟨e, he, rfl⟩ := List.mem_map.mp hmem
    exact (hcu.entries e he).1
  have even : (Marks.mk u.counter v.counter 0 u.nextInst).Even u.rlist.length :=
    same.rlist ▸ htwin.even rfl ample
  have hboth := htwin.coupled_taking hi even hcount
  have hturn : Coupled (starting i >>= fun _ => pure ()) (starting (g i) >>= fun _ => pure ())
      (fun _ _ => Like (Link.between f g u v False).whole) (Like (Link.between f g u v False).whole)
      u v := Coupled.bind hboth fun _ _ _ _ h => Coupled.pure h.2
  cases hstep with
  | @mk fuel r w _ _ run ends =>
    rw [hpick'.handle fuel] at run
    have finish {w' : State} (hw : (starting i >>= fun _ => pure ()) u = (r, w'))
        (hlike : Like (Link.between f g u v False).whole w' w) :
        ∃ s₂, Follows (fun _ _ => True) s (ev :: evs) s₂ ∧
          (∀ s₃, Follows (fun _ _ => True) s (ev :: evs) s₃ → s₃ = s₂) ∧
          ∃ l l', s₂.sent = u.sent ++ l ∧ t₂.sent = v.sent ++ l' ∧ List.Forall₂ Sent.Alike l l' := by
      have hhandle := (hpick.handle fuel).trans hw
      obtain ⟨running, ready, _, _, _, _⟩ := hpick
      have hakin : Akin (Link.between f g u v False).whole w' w := ⟨_, hlike⟩
      have hsame : w.rlist = w'.rlist := by
        obtain ⟨_, hlike⟩ := hlike
        exact hlike.rlist
      obtain ⟨s₂, hs₂, _, _, hend⟩ := (hakin.running _ _).follows rfl trivial trivial
        (congrArg (fun l => decide (r ≠ .error .systemExit ∧ l ≠ [])) hsame.symm) later
      have hrun : Follows (fun _ _ => True) s (ev :: evs) s₂ :=
        .cons trivial (.mk running ready hhandle ends) hs₂
      exact ⟨s₂, hrun, fun _ hs₃ => hrun.determined hs₃, hend.sent⟩
    rcases hturn.cases with ⟨a, w', b, w'', hw, hw', hlike⟩ | ⟨e, w', w'', hw, hw', hlike⟩
    · rw [run] at hw'
      cases hw'
      exact finish hw hlike
    · rw [run] at hw'
      cases hw'
      exact finish hw hlike

section Witness

deriving instance DecidableEq for Label
deriving instance DecidableEq for Attrs
deriving instance DecidableEq for Instance

/-- The readings that are left after some. -/
def Env.skip (env : Env) (clock write random order : Nat) : Env where
  clock k := env.clock (clock + k)
  writeOk k := env.writeOk (write + k)
  random k := env.random (random + k)
  order k := env.order (order + k)
  order_perm k := env.order_perm (order + k)
  horn := env.horn

/-- The second world is so much further than the first one. -/
def World.Ahead (clock write random order : Nat) (w v : World) : Prop :=
  v.clockTick = clock + w.clockTick ∧ v.writeTick = write + w.writeTick ∧
    v.randomTick = random + w.randomTick ∧ v.orderTick = order + w.orderTick

instance (clock write random order : Nat) (w v : World) :
    Decidable (World.Ahead clock write random order w v) :=
  inferInstanceAs (Decidable (_ ∧ _ ∧ _ ∧ _))

theorem World.SameFuture.skip {w v : World} {c k r o : Nat} (hw : w.env = env.skip c k r o)
    (hv : v.env = env) (h : World.Ahead c k r o w v) : w.SameFuture v := by
  obtain ⟨clock, write, random, order⟩ := h
  constructor
  all_goals simp only [hw, hv, Env.skip, clock, write, random, order, Nat.add_assoc, implies_true]

theorem Act.world_apply (a : Act) (s : State) : (a.apply s).world = s.world := by
  cases a <;> rfl

theorem Path.world_env {G : Act → State → Prop} (h : Path G s t) : t.world.env = s.world.env :=
  h.invariant (I := fun u => u.world.env = s.world.env) (fun _ _ hq hu => hq.env.trans hu)
    (fun a u _ hu => (congrArg World.env (a.world_apply u)).trans hu) rfl

theorem Turns.world_env {G : State → Event → Prop} (h : Turns G (State.init env config) s) :
    s.world.env = env := by
  have key : Consistent s ∧ s.world.env = env :=
    h.invariant (I := fun s => Consistent s ∧ s.world.env = env)
      (fun s ev t hs _ hstep => by
        have hpath : Path (Act.Caused True ev s) s t := hstep.path hs.1 (.inl trivial)
        exact ⟨hs.1.step hstep, hpath.world_env.trans hs.2⟩) ⟨.init env config, rfl⟩
  exact key.2

theorem Picks.world_env (h : Turns G (State.init env config) s) (hpick : Picks s ev i u) :
    u.world.env = env :=
  (hpick.path (.turns h)).1.world_env.trans h.world_env

section Decidable

/-- The instance that the server takes in the turn of the event, and the state in which it does so. -/
def Event.pick (s : State) (ev : Event) : Option (InstId × State) :=
  match receive ev s with
  | (.ok (some _), u) =>
    match settle u.current u with
    | (.ok false, v) =>
      if v.current = none then
        match schedulables v with
        | (.ok (i :: _), w) => some (i, w)
        | _ => none
      else none
    | _ => none
  | _ => none

theorem picks_iff : Picks s ev i u ↔ s.running = true ∧ ev.ready s ∧ ev.pick s = some (i, u) := by
  constructor
  · rintro ⟨running, ready, received, settled, free, picked⟩
    refine ⟨running, ready, ?_⟩
    simp only [Event.pick, received, settled, picked, if_pos free]
  · rintro ⟨running, ready, h⟩
    unfold Event.pick at h
    split at h
    · next q u received =>
      split at h
      · next v settled =>
        split at h
        · next free =>
          split at h
          · next picked =>
            cases h
            exact ⟨running, ready, received, settled, free, picked⟩
          · cases h
        · cases h
      · cases h
    · cases h

instance (s : State) (ev : Event) : Decidable (ev.Vacant s) :=
  decidable_of_iff (¬ (s.running = true ∧ ev.ready s ∧ (ev.pick s).isSome = true)) <| by
    constructor
    · intro h i w hpick
      obtain ⟨running, ready, hpick⟩ := picks_iff.mp hpick
      exact h ⟨running, ready, hpick ▸ rfl⟩
    · rintro h ⟨running, ready, hsome⟩
      obtain ⟨⟨i, w⟩, hpick⟩ := Option.isSome_iff_exists.mp hsome
      exact h i w (picks_iff.mpr ⟨running, ready, hpick⟩)

instance (s : State) (n : NodeId) : Decidable (s.Unlimited n) :=
  inferInstanceAs (Decidable (_ ∧ _ ∧ _ ∧ _ ∧ _ ∧ _))

instance (s : State) (i : InstId) : Decidable (s.Limits i) :=
  inferInstanceAs (Decidable (∃ n ∈ _, _))

/-- The instance whose tree the server passes over in this call of `entrust`. -/
def State.surveyed (s : State) : Option (InstId × State) :=
  match attend s with
  | (.ok (some i), t) => some (i, t)
  | _ => none

theorem surveyed_iff : s.surveyed = some (i, t) ↔ attend s = (.ok (some i), t) := by
  unfold State.surveyed
  split
  · next j u h => simp [h]
  · next h => exact ⟨fun he => (by cases he), fun he => absurd he (h i t)⟩

instance (s : State) : Decidable s.Contained :=
  decidable_of_iff ((∀ i ∈ s.current, ∀ t ∈ reached id (isOver i s), ¬ t.Stuck i) ∧
      ∀ r ∈ s.surveyed, ¬ r.2.Limits r.1) <| by
    refine and_congr ⟨fun h i t hi hover => h i hi t (mem_reached.mpr ⟨true, rfl, hover⟩),
      fun h i hi t ht => ?_⟩ ⟨fun h i t ht => h (i, t) (surveyed_iff.mpr ht),
      fun h r hr => h r.1 r.2 (surveyed_iff.mp hr)⟩
    obtain ⟨b, rfl, hover⟩ := mem_reached.mp ht
    exact h i t hi hover

theorem forall_received {P : State → Prop} : (∀ t ∈ reached Option.isSome (receive ev s), P t) ↔
    ∀ q t, receive ev s = (.ok (some q), t) → P t := by
  refine ⟨fun h q t ht => h t (mem_reached.mpr ⟨some q, rfl, ht⟩), fun h t ht => ?_⟩
  obtain ⟨r, hr, hrun⟩ := mem_reached.mp ht
  obtain ⟨q, rfl⟩ := Option.isSome_iff_exists.mp hr
  exact h q t hrun

instance (s : State) (ev : Event) : Decidable (ev.Contained s) :=
  decidable_of_iff (∀ t ∈ reached Option.isSome (receive ev s), t.Contained) forall_received

instance (s : State) : Decidable s.Ample := inferInstanceAs (Decidable (_ < _))

instance (s : State) (ev : Event) : Decidable (ev.Ample s) :=
  decidable_of_iff (∀ t ∈ reached Option.isSome (receive ev s), t.Ample) forall_received

instance (s : State) (i : InstId) : Decidable (s.Hands i) :=
  match h : Server.solvers (.at none)
      { s with current := some i, totalSolvers := (s.solvers .all).length } with
  | (.ok (x :: xs), t) =>
    decidable_of_iff ((reached (fun _ => true) (startSolver i x t)).isSome = true) <| by
      rw [Option.isSome_iff_exists]
      constructor
      · rintro ⟨u, hu⟩
        obtain ⟨_, _, hrun⟩ := mem_reached.mp hu
        exact ⟨x, xs, t, u, h, hrun⟩
      · rintro ⟨y, ys, v, u, hv, hu⟩
        cases h.symm.trans hv
        exact ⟨u, mem_reached.mpr ⟨(), rfl, hu⟩⟩
  | (.ok [], _) => isFalse fun hands => by
    obtain ⟨_, _, _, _, hv, _⟩ := hands
    cases h.symm.trans hv
  | (.error _, _) => isFalse fun hands => by
    obtain ⟨_, _, _, _, hv, _⟩ := hands
    cases h.symm.trans hv

theorem Follows.of_script {G : State → Event → Prop} [∀ s ev, Decidable (G s ev)] {fuel : Nat}
    (h : evs.foldlM (guarded (State.turn fuel) G) s = some t) : Follows G s evs t := by
  induction evs generalizing s with
  | nil =>
    cases h
    exact .nil
  | cons ev evs ih =>
    obtain ⟨u, hu, ht⟩ := Option.bind_eq_some_iff.mp h
    unfold guarded at hu
    split at hu
    · next ok => exact .cons ok (State.turn_step hu) (ih ht)
    · cases hu

end Decidable

/-- The parts of `Same` that can be checked, where the other names lie beyond some others. -/
def State.Shifted (d e : Nat) (s t : State) : Prop :=
  (t.nextSock = s.nextSock ∧ t.nextConn = s.nextConn ∧ t.rlist = s.rlist) ∧
  (∀ x < s.nextSock, t.kind x = s.kind x ∧ t.sock x = s.sock x ∧ t.listening x = s.listening x ∧
    (t.solver x).name = (s.solver x).name) ∧
  (∀ c < s.nextConn, t.isOpen c = s.isOpen c ∧ t.remote c = s.remote c) ∧
  (t.heap.size = s.heap.size + d ∧ ∀ n < s.heap.size,
    t.heap.parent (n + d) = (s.heap.parent n).map (· + d) ∧
    t.heap.children (n + d) = (s.heap.children n).map (· + d) ∧
    t.heap.label (n + d) = s.heap.label n ∧ t.heap.attrs (n + d) = s.heap.attrs n) ∧
  (t.nextInst = s.nextInst + e ∧ ∀ i < s.nextInst,
    t.inst (i + e) = { s.inst i with root := s.root i + d }) ∧
  t.trees = s.trees.map fun r => (r.1, r.2 + e)

instance (d e : Nat) (s t : State) : Decidable (s.Shifted d e t) :=
  inferInstanceAs (Decidable (_ ∧ _ ∧ _ ∧ _ ∧ _ ∧ _))

theorem Same.of_shifted {d e : Nat} (hs : Consistent s) (world : s.world.SameFuture t.world)
    (h : s.Shifted d e t) : Same (· + d) (· + e) s t := by
  obtain ⟨⟨nextSock, nextConn, rlist⟩, socks, conns, ⟨size, nodes⟩, ⟨nextInst, insts⟩, trees⟩ := h
  have add (k : Nat) : StrictMono (· + k) := fun a b hab => Nat.add_lt_add_right hab k
  have next (k n : Nat) : n + 1 + k = n + k + 1 := Nat.add_right_comm n 1 k
  exact {
    world := world
    nextSock := nextSock
    nextConn := nextConn
    rlist := rlist
    kind := fun x hx => (socks x hx).1
    sock := fun x hx => (socks x hx).2.1
    listening := fun x hx => (socks x hx).2.2.1
    isOpen := fun c hc => (conns c hc).1
    remote := fun c hc => (conns c hc).2
    name := fun x hx => (socks x (hs.sockets x hx.1)).2.2.2
    heap := {
      toEmbeds := .of_lt (add d) size (fun n _ => next d n) (fun n hn => (nodes n hn).1)
        fun n hn => (nodes n hn).2.1
      label := fun n hn => (nodes n hn).2.2.1
      attrs := fun n hn => (nodes n hn).2.2.2 }
    instMono := add e
    instNext := fun i _ => next e i
    nextInst := nextInst
    inst := insts
    trees := trees }

/-- A server with a node timeout, which splits after a second. -/
def patient : Config := { partitionTimeout := some second, nodeTimeout := some (1000 * second) }

/-- An instance is split and solved. -/
def solvedInParts : List Event :=
  oneInstance ++ [.timeout, .timeout, .message 2 [(Constant.report, "sat"),
    (Constant.name, "a.smt2"), (Constant.node, "[]")] (some "")]

/-- The same solver and the same client, and no instance. -/
def noInstance : List Event :=
  [.accept "a", .message 1 [(Constant.solver, "OpenSMT2")] (some ""), .accept "b"]

def another : Event :=
  .message 3 [(Constant.command, Constant.solve), (Constant.name, "b.smt2")] (some "(assert false)")

theorem Picks.restored_second :
    ∃ t v, Turns (fun s ev => ev.Contained s) (State.init Env.steady patient) t ∧ t.verdicts = [0] ∧
      Picks t another 1 v ∧ v.config.partitionCount = 2 ∧ v.Fresh ∧
      v.config = { patient with partitionCount := v.config.partitionCount } ∧ v.terminate = false := by
  obtain ⟨t, ht, contained, verdicts, running, ready, ⟨j, v⟩, hpick, rfl, hcount⟩ := exists_of_any
    (o := solvedInParts.foldlM (guarded (State.turn 3) fun s ev => ev.Contained s)
      (State.init Env.steady patient))
    (P := fun t => another.Contained t ∧ t.verdicts = [0] ∧ t.running = true ∧ another.ready t ∧
      ∃ r ∈ another.pick t, r.1 = 1 ∧ r.2.config.partitionCount = 2) (by decide +kernel)
  have ht : Turns (fun s ev => ev.Contained s) (State.init Env.steady patient) t :=
    .of_run (.of_script ht)
  have hpick : Picks t another 1 v := picks_iff.mpr ⟨running, ready, hpick⟩
  exact ⟨t, v, ht, verdicts, hpick, hcount, Picks.restored ht contained hpick⟩

/-- The other instance is split and solved as well. -/
def anotherSolved : List Event :=
  [.timeout, .timeout, .message 2 [(Constant.report, "unsat"), (Constant.name, "b.smt2"),
    (Constant.node, "[]")] (some ""), .timeout]

/-- A server without an instance, which reads what the other one has left. -/
def untried : Option State :=
  noInstance.foldlM (guarded (State.turn 3) fun s ev => ev.Vacant s)
    (State.init (Env.steady.skip 9 3 1 7) patient)

/-- A server that has solved an instance. -/
def seasoned : Option State :=
  solvedInParts.foldlM (guarded (State.turn 3) fun s ev => ev.Contained s)
    (State.init Env.steady patient)

/-- The server is there to take the other instance. -/
def Waits (s : State) : Prop := s.running = true ∧ another.ready s

/-- The two servers take it in states that differ in the names only, and in the counts. -/
def Agree (r r' : InstId × State) : Prop :=
  (r.1 = 0 ∧ r'.1 = 1 ∧ r.2.config.partitionCount = 0 ∧ r'.2.config.partitionCount = 2) ∧
    r.2.Hands r.1 ∧ r.2.Shifted 2 1 r'.2 ∧ World.Ahead 9 3 1 7 r.2.world r'.2.world ∧ r'.2.Ample

instance (s : State) : Decidable (Waits s) := inferInstanceAs (Decidable (_ ∧ _))
instance (r r' : InstId × State) : Decidable (Agree r r') :=
  inferInstanceAs (Decidable ((_ ∧ _ ∧ _ ∧ _) ∧ _ ∧ _ ∧ _ ∧ _))

theorem Picks.isolated_second :
    ∃ s t u v t₂, Turns (fun s ev => ev.Vacant s) (State.init (Env.steady.skip 9 3 1 7) patient) s ∧
      Turns (fun s ev => ev.Contained s) (State.init Env.steady patient) t ∧ t.verdicts = [0] ∧
      (u.config.partitionCount = 0 ∧ v.config.partitionCount = 2) ∧
      (Picks s another 0 u ∧ Picks t another 1 v) ∧
      Follows Event.Ample t (another :: anotherSolved) t₂ ∧ ∃ s₂,
        Follows (fun _ _ => True) s (another :: anotherSolved) s₂ ∧
        (∀ s₃, Follows (fun _ _ => True) s (another :: anotherSolved) s₃ → s₃ = s₂) ∧
        ∃ l l', s₂.sent = u.sent ++ l ∧ t₂.sent = v.sent ++ l' ∧ List.Forall₂ Sent.Alike l l' := by
  obtain ⟨s, hs, ⟨running, ready⟩, t, ht, ⟨contained, verdicts, running', ready'⟩,
      ⟨⟨i, u⟩, hr, ⟨j, v⟩, hr', hnames, hands, shifted, ahead, ample⟩, t₂, hlater, -⟩ :=
    exists_of_any (o := untried)
      (P := fun s => Waits s ∧ ∃ t ∈ seasoned,
        (another.Contained t ∧ t.verdicts = [0] ∧ Waits t) ∧
        (∃ r ∈ another.pick s, ∃ r' ∈ another.pick t, Agree r r') ∧
        ∃ t₂ ∈ (another :: anotherSolved).foldlM
          (guarded (State.turn 3) fun s ev => ev.Ample s) t, True)
      (by decide +kernel)
  obtain ⟨rfl, rfl, hcount⟩ : i = 0 ∧ j = 1 ∧ _ := hnames
  have hs : Turns (fun s ev => ev.Vacant s) (State.init (Env.steady.skip 9 3 1 7) patient) s :=
    .of_run (.of_script hs)
  have ht : Turns (fun s ev => ev.Contained s) (State.init Env.steady patient) t :=
    .of_run (.of_script ht)
  have hpick : Picks s another 0 u := picks_iff.mpr ⟨running, ready, hr⟩
  have hpick' : Picks t another 1 v := picks_iff.mpr ⟨running', ready', hr'⟩
  have hu : Consistent u := (Consistent.turns hs).path (fun _ _ ha => ha) (hpick.path (.turns hs)).1
  have same : Same (· + 2) (· + 1) u v :=
    .of_shifted hu (.skip (hpick.world_env hs) (hpick'.world_env ht) ahead) shifted
  have hfollows : Follows Event.Ample t (another :: anotherSolved) t₂ := .of_script hlater
  refine ⟨s, t, u, v, t₂, hs, ht, verdicts, hcount, ⟨hpick, hpick'⟩, hfollows, ?_⟩
  cases hfollows with
  | cons _ hstep hrest =>
    exact Picks.isolated hs ht contained hpick hpick' same (.inr hands) ample hstep hrest

end Witness

end Isolation

end Smts.Server
