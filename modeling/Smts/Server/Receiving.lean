import Smts.Server.Attending
import Smts.Server.Turns

namespace Smts.Server

open Smts.Lib Smts.Lib.Prog

variable {hindered out : Prop} {ev : Event} {s t : State}

/-- The command `solve` of a client, with an instance that can be parsed. -/
def Event.Submits (ev : Event) (s : State) (name : String) : Prop :=
  ∃ x header text, ev = .message x header (some text) ∧ s.kind x ≠ .solver ∧
    header.lookup Constant.command = some Constant.solve ∧
    header.lookup Constant.name = some name ∧ (parse s.world.env s.heap name text).isSome = true

/-- The command `terminate` of a client. -/
def Event.Terminates (ev : Event) (s : State) : Prop :=
  ∃ x header payload, ev = .message x header payload ∧ s.kind x ≠ .solver ∧
    header.lookup Constant.command = some Constant.terminate

/-- How the actions of a turn that starts in state `s` depend on its event. -/
def Event.Causes (hindered : Prop) (ev : Event) (s : State) : Act → State → Prop
  | .report x n status, u => u = s ∧ ∃ header payload, ev = .message x header payload ∧
      Solver.Matches s x n header ∧ header.lookup Constant.report = some status.name
  | .reply x _ partitions, u => u = s ∧ ∃ n header payload, ev = .message x header payload ∧
      Solver.Matches s x n header ∧ header.lookup Constant.report = some Constant.partitions ∧
      partitions = payload.map Solver.pieces
  | .submit name _, u => u = s ∧ ev.Submits s name
  | .leave x, u => u.idleSolvers = s.idleSolvers ∧ (ev = .closed x ∧ u = s ∨ hindered)
  | .shut x, u => u.idleSolvers = [] ∨
      u.idleSolvers = s.idleSolvers ∧ (ev = .closed x ∨ ev.Terminates s)
  | _, _ => True

/-- The actions of the turn of an event that starts in state `s`. -/
def Act.Caused (hindered : Prop) (ev : Event) (s : State) (a : Act) (u : State) : Prop :=
  a.Allowed hindered u ∧ ev.Causes hindered s a u

/-- The actions before the call of `entrust`. -/
def Event.Receives (hindered : Prop) (ev : Event) (s : State) : Act → State → Prop
  | .solve .., _ | .move .., _ | .ask .., _ | .process _, _ | .idleAdd _, _ | .idleDrop _, _
  | .idleSort _, _ | .start _, _ | .conclude .., _ | .verdict _, _ | .drop _, _ => False
  | a, u => ev.Causes hindered s a u

def Act.Received (hindered : Prop) (ev : Event) (s : State) (a : Act) (u : State) : Prop :=
  a.Allowed hindered u ∧ ev.Receives hindered s a u

theorem Act.Received.caused {a : Act} {u : State} (h : a.Received hindered ev s u) :
    a.Caused hindered ev s u := by
  refine ⟨h.1, ?_⟩
  have hr := h.2
  cases a with
  | solve | move | ask | process | idleAdd | idleDrop | idleSort | start | conclude | verdict
  | drop => exact hr.elim
  | _ => exact hr

theorem Path.received_idle {u : State} (h : Path (Act.Received hindered ev s) u t) :
    t.idleSolvers = u.idleSolvers := by
  refine h.invariant (I := fun v => v.idleSolvers = u.idleSolvers)
    (fun _ _ hq hv => hq.idleSolvers.trans hv) (fun a v ha hv => ?_) rfl
  have hr := ha.2
  cases a with
  | idleAdd | idleDrop | idleSort | conclude => exact hr.elim
  | _ => exact hv

theorem received_quiet {u : State} : Act.Received hindered ev s .quiet u :=
  ⟨⟨trivial, trivial⟩, trivial⟩

theorem Act.Entrusted.caused {a : Act} {u : State}
    (h : a.Entrusted hindered s.idleSolvers u) : a.Caused hindered ev s u := by
  refine ⟨h.1, ?_⟩
  have hi := h.2
  cases a with
  | leave x => exact ⟨hi.2, .inr hi.1⟩
  | shut x => exact .inl hi
  | report | reply | submit => exact hi.elim
  | _ => trivial

theorem Runs.stilly {α : Type} {m : M α} {u : State} (h : Still m) :
    Runs (Act.Received hindered ev s) out m (fun _ t => Quiet u t) u :=
  Runs.still received_quiet h

theorem Runs.raise_bind {α β : Type} {G : Act → State → Prop} {e : Exn} {f : α → M β}
    {Q : β → State → Prop} (he : e ≠ .noFuel) : Runs G out (Prog.raise e >>= f) Q s :=
  ⟨.refl, fun h => absurd h he⟩

/-- What the parser makes of an instance is a new root. -/
theorem parse_eq {env : Env} {h g : Heap} {name smt : String} {r : NodeId}
    (hp : parse env h name smt = some (r, g)) :
    ∃ l : Label, l.name = name ∧ l.cls ≠ .orNode ∧ (r, g) = h.addRoot l := by
  unfold parse at hp
  split at hp
  · exact ⟨_, rfl, by simp, (Option.some.inj hp).symm⟩
  · split at hp
    · obtain ⟨p, _, hp⟩ := Option.map_eq_some_iff.mp hp
      exact ⟨_, rfl, by simp, hp.symm⟩
    · exact ⟨_, rfl, by simp, (Option.some.inj hp).symm⟩

theorem runs_submit {name : String} {payload : Payload} (hsub : ∀ text, payload = some text →
    (parse s.world.env s.heap name text).isSome = true → ev.Submits s name) :
    Runs (Act.Received hindered ev s) out (submit name payload) (fun _ _ => True) s := by
  refine Traced.get ?_
  cases hp : payload.bind fun text => (parse s.world.env s.heap name text).map (text, ·) with
  | none => exact Runs.quietly received_quiet (Still.print rfl)
  | some r =>
    obtain ⟨text, root, g⟩ := r
    obtain ⟨text', hpay, hmap⟩ := Option.bind_eq_some_iff.mp hp
    obtain ⟨⟨r, g'⟩, hparse, heq⟩ := Option.map_eq_some_iff.mp hmap
    cases heq
    have hsub : ev.Submits s name := hsub text hpay (by rw [hparse]; rfl)
    obtain ⟨l, hname, hcls, hadd⟩ := parse_eq hparse
    cases hadd
    have guard : Act.Received hindered ev s (.submit name l) s := ⟨⟨hcls, hname⟩, rfl, hsub⟩
    refine Traced.bind (Q := fun _ t => t.heap = (s.heap.addRoot l).2)
      (Runs.act (.submit name l) guard ?_ rfl) fun _ t _ ht => ?_
    · refine { Quiet.refl _ with
        heap := .refl _
        root := fun j => ?_ }
      simp only [State.root, Act.apply, State.submit, Function.update_apply]
      split <;> rfl
    · refine Traced.when (fun _ => ?_) fun _ => trivial
      cases s.world.env.horn text with
      | none => exact Traced.pure trivial
      | some p =>
        have henabled : (Act.split s.heap.size p).Enabled t := by
          rw [Act.Enabled, ht]
          refine ⟨Nat.lt_succ_self _, ?_, s.heap.parent_size,
            Forest.children_of_size_le (F := s.heap.toForest) (Nat.le_refl _)⟩
          simp [Heap.isAnd, Heap.isOr, Heap.addRoot, hcls]
        refine Traced.seq (Runs.act (.split s.heap.size p) ⟨⟨henabled, trivial⟩, trivial⟩ ?_ trivial)
          fun _ u _ => ?_
        · rw [Act.apply, ht]
          exact Quiet.refl _
        · exact Runs.quietly received_quiet (Still.when (Still.print rfl))

theorem still_lemmaServer : Still lemmaServer :=
  Still.get.bind fun _ => (Still.inOrder _).bind fun _ => Still.pure _

theorem still_greet (y : SockId) : Still (do
    match ← lemmaServer with
    | some l => Solver.setLemmaServer y (some l)
    | none => pure ()) := by
  refine still_lemmaServer.bind fun l => ?_
  cases l with
  | some l => exact Solver.still_setLemmaServer _ _
  | none => exact Still.pure ()

/-- A new socket object takes the place of the one it was made from. -/
theorem Path.relisted {u : State} {x y : SockId} (hx : u.kind x ≠ .solver) (hlt : y < u.nextSock)
    (hy : y ∉ u.rlist) (hfree : (u.solver y).node = none) :
    Path (Act.Received hindered ev s) u { u with rlist := u.rlist.filter (· ≠ x) ++ [y] } := by
  have delist : Act.Received hindered ev s (.delist x) u :=
    ⟨⟨trivial, fun hk => absurd hk hx⟩, trivial⟩
  have enlist : Act.Received hindered ev s (.enlist y) ((Act.delist x).apply u) :=
    ⟨⟨trivial, hlt, fun hmem => hy (List.mem_of_mem_filter hmem), fun _ => hfree⟩, trivial⟩
  exact (Path.act _ delist (.refl _)).trans (Path.act _ enlist (.refl _))

theorem runs_join {x : SockId} {name : String} (hs : Consistent s) (hx : s.kind x ≠ .solver) :
    Runs (Act.Received hindered ev s) out (join x name) (fun _ _ => True) s := by
  refine Traced.get ?_
  have guard : Act.Received hindered ev s (.create .solver name) s := ⟨⟨trivial, trivial⟩, trivial⟩
  refine Traced.bind (Q := fun _ t => Quiet ((Act.create .solver name).apply s) t)
    (Runs.act (.create .solver name) guard ?_ ?_) fun _ t _ ht => ?_
  · exact { Quiet.refl _ with env := rfl }
  · exact { Quiet.refl _ with env := rfl }
  refine Traced.bind (Runs.stilly (Still.when (Still.write ?_))) fun _ u _ hu => ?_
  · simp [Sent.places, Constant.command, Constant.logMode]
  have hq := ht.trans hu
  refine Traced.ite (fun hmem => ?_) fun _ => Traced.seq (Runs.raise (by decide))
    fun _ _ _ => Runs.quietly received_quiet (still_greet s.nextSock)
  have hlt : x < s.nextSock := hs.sockets x hmem
  refine Traced.bind (Q := fun _ _ => True) ⟨Path.relisted ?_ ?_ ?_ ?_, trivial⟩ fun _ v _ _ =>
    Runs.quietly received_quiet (still_greet s.nextSock)
  · rw [hq.kind]
    simpa [Act.apply, State.create, Nat.ne_of_lt hlt] using hx
  · rw [hq.nextSock]
    exact Nat.lt_succ_self _
  · rw [hq.rlist]
    exact fun h => Nat.lt_irrefl _ (hs.sockets _ h)
  · rw [hq.node]
    simp [Act.apply, State.create]

/-- The new lemma server, after the old one has been closed. -/
theorem runs_introduce {x : SockId} (address : String) (hs : Consistent s) (hx : s.kind x ≠ .solver)
    {u : State} (hu : Quiet s u) : Runs (Act.Received hindered ev s) out (do
      if x ∈ s.rlist then modify fun s => { s with rlist := s.rlist.filter (· ≠ x) }
      else raise .keyError
      let s ← get
      let y := s.nextSock
      modify fun s => { s with
        nextSock := y + 1
        kind := Function.update s.kind y .lemmaServer
        sock := Function.update s.sock y (s.sock x)
        listening := Function.update s.listening y address }
      write y ((if s.config.enableLog then [(Constant.logMode, "1")] else []) ++
        [(Constant.maxMemory, toString s.config.maxMemory)]) "" none
      modify fun s => { s with rlist := s.rlist ++ [y] }
      forEach (fun z => Solver.setLemmaServer z (some y)) (← solvers .all) : M Unit)
      (fun _ _ => True) u := by
  refine Traced.ite (fun _ => ?_) fun _ => Runs.raise_bind (by decide)
  have delist : Act.Received hindered ev s (.delist x) u :=
    ⟨⟨trivial, fun hk => absurd ((congrFun hu.kind x).symm.trans hk) hx⟩, trivial⟩
  refine Traced.bind (Q := fun _ t => t = (Act.delist x).apply u)
    (Runs.act (.delist x) delist (.refl _) rfl) ?_
  rintro _ t - rfl
  refine Traced.get ?_
  have create : Act.Received hindered ev s (.create .lemmaServer "") ((Act.delist x).apply u) :=
    ⟨⟨trivial, trivial⟩, trivial⟩
  refine Traced.bind
    (Q := fun _ v => Quiet ((Act.create .lemmaServer "").apply ((Act.delist x).apply u)) v)
    (Runs.act (.create .lemmaServer "") create ?_ ?_) fun _ v _ hv => ?_
  · exact { Quiet.refl _ with env := rfl }
  · exact { Quiet.refl _ with env := rfl }
  refine Traced.bind (Runs.stilly (Still.write ?_)) fun _ w _ hw => ?_
  · split <;>
      simp [Sent.places, Header.lookup_cons_if, Constant.command, Constant.logMode, Constant.maxMemory]
  have hq := hv.trans hw
  refine Traced.seq (Runs.act (.enlist u.nextSock) ⟨⟨trivial, ?_, ?_, fun hk => ?_⟩, trivial⟩
    (.refl _) trivial) fun _ w' _ => Runs.quietly received_quiet ?_
  · rw [hq.nextSock]
    exact Nat.lt_succ_self _
  · rw [hq.rlist]
    exact fun h => Nat.lt_irrefl _ ((hs.quiet hu).sockets _ (List.mem_of_mem_filter h))
  · rw [hq.kind] at hk
    simp [Act.apply, State.create] at hk
  · exact (Still.get.bind fun _ => Still.inOrder _).bind fun xs =>
      Still.forEach (fun z => Solver.still_setLemmaServer _ _) xs

theorem runs_replaceLemmaServer {x : SockId} (address : String) (hs : Consistent s)
    (hx : s.kind x ≠ .solver) : Runs (Act.Received hindered ev s) out (do
      match ← lemmaServer with
      | some l => closeSocket l
      | none => pure ()
      if x ∈ s.rlist then modify fun s => { s with rlist := s.rlist.filter (· ≠ x) }
      else raise .keyError
      let s ← get
      let y := s.nextSock
      modify fun s => { s with
        nextSock := y + 1
        kind := Function.update s.kind y .lemmaServer
        sock := Function.update s.sock y (s.sock x)
        listening := Function.update s.listening y address }
      write y ((if s.config.enableLog then [(Constant.logMode, "1")] else []) ++
        [(Constant.maxMemory, toString s.config.maxMemory)]) "" none
      modify fun s => { s with rlist := s.rlist ++ [y] }
      forEach (fun z => Solver.setLemmaServer z (some y)) (← solvers .all) : M Unit)
      (fun _ _ => True) s := by
  refine Traced.bind (Runs.stilly still_lemmaServer) fun l t _ ht => ?_
  cases l with
  | none => exact runs_introduce address hs hx ht
  | some l => exact Traced.bind (Runs.stilly (still_closeSocket l)) fun _ u _ hu =>
      runs_introduce address hs hx (ht.trans hu)

theorem runs_listening {x : SockId} {listening : String} {k : String → M Unit}
    (hk : ∀ address, Runs (Act.Received hindered ev s) out (k address) (fun _ _ => True) s) :
    Runs (Act.Received hindered ev s) out (
      match listening.toList with
      | [] => Prog.raise .indexError >>= k
      | ':' :: _ =>
        match s.sock x with
        | some c => pure (s.remote c ++ listening) >>= k
        | none => Prog.raise .typeError >>= k
      | _ => pure listening >>= k) (fun _ _ => True) s := by
  split
  · exact Runs.raise_bind (by decide)
  · cases s.sock x with
    | some c => exact hk _
    | none => exact Runs.raise_bind (by decide)
  · exact hk _

theorem runs_joinLemmaServer {x : SockId} {listening : String} (hs : Consistent s)
    (hx : s.kind x ≠ .solver) :
    Runs (Act.Received hindered ev s) out (joinLemmaServer x listening) (fun _ _ => True) s :=
  Traced.get (runs_listening fun address => runs_replaceLemmaServer address hs hx)

theorem still_solverError (report : String) : Still (solverError report) := by
  refine Still.get.bind fun s => ?_
  split
  · refine Still.bind ?_ fun _ => ?_
    · exact Still.modifyInst _ fun _ => rfl
    · exact Still.print rfl
  · exact Still.pure ()

/-- Only `Solver.read` names a node to `entrust`. -/
theorem wp_handleSolver {r : Solver.Received} {Q : Option (Option PNode) → State → Prop}
    {E : Exn → State → Prop}
    (handled : ∀ q t, Quiet s t → (∀ n, q = some (some (.node n)) → r.partitionRecieved = some n) →
      Q q t)
    (failed : ∀ e t, Quiet s t → e ≠ .noFuel → E e t) : wp (handleSolver r) Q E s := by
  rw [handleSolver]
  split
  · exact handled _ _ (.refl s) fun n h => by cases h
  · cases r.header.lookup Constant.report
    case' none => refine handled _ s (.refl s) fun n hn => ?_
    case' some report =>
      simp only
      rw [wp_bind]
      refine (still_solverError report).wp (fun _ t ht => handled _ t ht fun n hn => ?_) failed
    all_goals
      cases hr : r.partitionRecieved with
      | some m =>
        rw [hr] at hn
        cases hn
        rfl
      | none =>
        simp only [hr, Option.some.injEq] at hn
        split at hn
        · cases hn
        · cases hn

/-- A node that comes with the call of `entrust` has got the partitions of a reply. -/
def Event.Brings (ev : Event) (s : State) (r : Option (Option PNode)) (t : State) : Prop :=
  ∀ n, r = some (some (.node n)) → ∃ x o header text, ev = .message x header (some text) ∧
    s.kind x = .solver ∧ Solver.Matches s x n header ∧
    header.lookup Constant.report = some Constant.partitions ∧
    (s.solver x).orWaiting.getLast? = some o ∧
    Quiet ((Act.reply x o (some (Solver.pieces text))).apply s) t

theorem Event.brings_of_ne {r : Option (Option PNode)}
    (h : ∀ n, r ≠ some (some (.node n))) : ev.Brings s r t :=
  fun n hn => absurd hn (h n)

theorem runs_closing {x : SockId} :
    Runs (Act.Received hindered (.closed x) s) out (receive (.closed x))
      (fun r _ => ∀ n, r ≠ some (some (.node n))) s := by
  have leave : Act.Received hindered (.closed x) s (.leave x) s :=
    ⟨⟨trivial, trivial⟩, rfl, .inl ⟨rfl, rfl⟩⟩
  refine Traced.bind (Q := fun _ t => t.idleSolvers = s.idleSolvers) ?_ fun _ t _ ht => ?_
  · refine Traced.get ?_
    cases s.kind x with
    | solver =>
      rw [Traced, wp_attempt]
      refine Solver.wp_stop (fun _ => ⟨.refl, rfl⟩) (fun _ t _ ht => ?_) fun e _ t _ ht _ => ?_
      · exact ⟨Path.act _ leave ht, ht.idleSolvers⟩
      · exact ⟨Path.act _ leave ht, ht.idleSolvers⟩
    | lemmaServer =>
      exact (Runs.stilly ((Still.get.bind fun _ => Still.inOrder _).bind fun xs =>
        Still.forEach (fun z => Solver.still_setLemmaServer _ _) xs)).mono
          fun _ _ _ ht => ht.idleSolvers
    | raw => exact Traced.pure rfl
  · refine Traced.bind (Runs.stilly (still_closeSocket x)) fun _ u _ hu => ?_
    refine Traced.seq (Runs.act (.shut x) ⟨⟨trivial, trivial⟩, .inr ⟨?_, .inl rfl⟩⟩ (.refl _)
      trivial) fun _ _ _ => Traced.pure fun n h => by cases h
    exact hu.idleSolvers.trans ht

theorem runs_accept {remote : String} (hs : Consistent s) :
    Runs (Act.Received hindered ev s) out (accept remote) (fun _ _ => True) s := by
  have create : Act.Received hindered ev s (.create .raw "") s := ⟨⟨trivial, trivial⟩, trivial⟩
  have enlist : Act.Received hindered ev s (.enlist s.nextSock) ((Act.create .raw "").apply s) := by
    refine ⟨⟨trivial, Nat.lt_succ_self _, fun h => Nat.lt_irrefl _ (hs.sockets _ h), fun hk => ?_⟩,
      trivial⟩
    simp [Act.apply, State.create] at hk
  refine ⟨(Path.act _ create (.refl _)).trans (Path.act _ enlist ?_), trivial⟩
  exact { Quiet.refl _ with env := rfl }

section Messages

variable {x : SockId} {header : Header} {payload : Payload}

theorem runs_handleCommand {command : String} (hkind : s.kind x ≠ .solver)
    (hcommand : header.lookup Constant.command = some command) :
    Runs (Act.Received hindered (.message x header payload) s) out
      (handleCommand command header payload)
      (fun r _ => ∀ n, r ≠ some (some (.node n))) s := by
  rw [handleCommand]
  refine Traced.ite (fun hterm => ?_) fun _ => Traced.ite (fun hsolve => ?_) fun _ => ?_
  · refine Traced.seq (runs_closeServer (fun _ => received_quiet) fun y u hu => ?_)
      fun _ _ _ => Traced.pure fun n h => nomatch h
    exact ⟨⟨trivial, trivial⟩, .inr ⟨hu, .inr ⟨x, header, payload, rfl, hkind, hterm ▸ hcommand⟩⟩⟩
  · cases hname : header.lookup Constant.name with
    | none => exact Traced.pure fun n h => nomatch h
    | some name =>
      have hsub : ∀ text, payload = some text → (parse s.world.env s.heap name text).isSome = true →
          (Event.message x header payload).Submits s name := by
        rintro text rfl hparse
        exact ⟨x, header, text, rfl, hkind, hsolve ▸ hcommand, hname, hparse⟩
      exact Traced.seq (runs_submit hsub) fun _ _ _ => Traced.pure fun n h => nomatch h
  · exact Traced.pure fun n h => nomatch h

/-- What `handle_message` does for a client once its report was looked at. -/
theorem runs_serve (hs : Consistent s) (hkind : s.kind x ≠ .solver) :
    Runs (Act.Received hindered (.message x header payload) s) out (
      match header.lookup Constant.command with
      | some command => handleCommand command header payload
      | none =>
        match header.lookup Constant.solver with
        | some name => do
          join x name
          return some none
        | none => do
          match header.lookup Constant.lemmas with
          | some listening => joinLemmaServer x listening
          | none => when (header.has Constant.eval = true) (write x [] "" none)
          return none : M (Option (Option PNode)))
      (fun r _ => ∀ n, r ≠ some (some (.node n))) s := by
  cases hcommand : header.lookup Constant.command with
  | some command => exact runs_handleCommand hkind hcommand
  | none =>
    cases header.lookup Constant.solver with
    | some name =>
      exact Traced.seq (runs_join hs hkind) fun _ _ _ => Traced.pure fun n h => nomatch h
    | none =>
      cases header.lookup Constant.lemmas with
      | some listening =>
        exact Traced.seq (runs_joinLemmaServer hs hkind)
          fun _ _ _ => Traced.pure fun n h => nomatch h
      | none =>
        exact Traced.seq (Runs.quietly received_quiet (Still.when (Still.write rfl)))
          fun _ _ _ => Traced.pure fun n h => nomatch h

theorem runs_lemmaReport {G : Act → State → Prop} {report : String} :
    Runs G out (lemmaReport report) (fun _ t => t = s) s :=
  wp_lemmaReport ⟨.refl, rfl⟩ fun _ he => ⟨.refl, fun h => absurd h he⟩

theorem runs_reported {k : M (Option (Option PNode))}
    (hk : Runs (Act.Received hindered ev s) out k (fun r _ => ∀ n, r ≠ some (some (.node n))) s) :
    Runs (Act.Received hindered ev s) out (
      if s.kind x = .lemmaServer ∧ header = [] then return none
      else
        match header.lookup Constant.report with
        | some report => do
          when (s.kind x = .lemmaServer) (lemmaReport report)
          k
        | none => k) (fun r _ => ∀ n, r ≠ some (some (.node n))) s := by
  refine Traced.ite (fun _ => Traced.pure fun n h => nomatch h) fun _ => ?_
  cases header.lookup Constant.report with
  | none => exact hk
  | some report =>
    refine Traced.bind (Q := fun _ t => t = s) ?_ fun _ t _ ht => ht ▸ hk
    exact Traced.when (fun _ => runs_lemmaReport) fun _ => rfl

theorem runs_handleOther (hs : Consistent s) (hkind : s.kind x ≠ .solver) :
    Runs (Act.Received hindered (.message x header payload) s) out (handleOther x header payload)
      (fun r _ => ∀ n, r ≠ some (some (.node n))) s :=
  Traced.get (runs_reported (runs_serve hs hkind))

theorem runs_handleSolver {u : State} {r : Solver.Received} (hu : Path
    (Act.Received hindered (.message x header payload) s) s u)
    (hr : ∀ t n, Quiet u t → r.partitionRecieved = some n →
      (Event.message x header payload).Brings s (some (some (.node n))) t) :
    wp (do
      when (s.config.enableLog = true ∧ payload = none) (Prog.raise .unicodeError)
      handleSolver r)
      (fun r t => Path (Act.Received hindered (.message x header payload) s) s t ∧
        (Event.message x header payload).Brings s r t)
      (fun e t => Path (Act.Received hindered (.message x header payload) s) s t ∧
        (e = .noFuel → out)) u := by
  rw [wp_bind, wp_when]
  refine ⟨fun _ => ⟨hu, fun h => nomatch h⟩, fun _ => wp_handleSolver (fun q t ht hq => ?_)
    fun e t ht he => ⟨hu.trans (Path.quiet received_quiet ht), fun h => absurd h he⟩⟩
  refine ⟨hu.trans (Path.quiet received_quiet ht), fun n hn => ?_⟩
  exact hr t n ht (hq n hn) n rfl

theorem runs_handleMessage (hs : Consistent s) :
    Runs (Act.Received hindered (.message x header payload) s) out (handleMessage x header payload)
      ((Event.message x header payload).Brings s) s := by
  refine Traced.get (Traced.ite (fun hkind => ?_) fun hkind => ?_)
  · rw [Traced, wp_bind]
    have replied : ∀ n o t, Solver.Matches s x n header →
        header.lookup Constant.report = some Constant.partitions →
        (s.solver x).orWaiting.getLast? = some o →
        Quiet ((Act.reply x o (payload.map Solver.pieces)).apply s) t →
        Path (Act.Received hindered (.message x header payload) s) s t := fun n o t hm hr ho ht =>
      Path.act (.reply x o _) ⟨⟨ho, trivial⟩, rfl, n, header, payload, rfl, hm, hr, rfl⟩ ht
    refine Solver.wp_read (fun r t ht hr => ?_) (fun n status r t hm hrep ht hr => ?_)
      (fun n o r t hm hrep ho ht hr => ?_) fun n o e t hm hrep ho ht he =>
        ⟨replied n o t hm hrep ho ht, fun h => absurd h he⟩
    · refine runs_handleSolver (Path.quiet received_quiet ht) fun u n _ hn => ?_
      rw [hr] at hn
      cases hn
    · have report : Path (Act.Received hindered (.message x header payload) s) s t :=
        Path.act (.report x n status)
          ⟨⟨hm.node, trivial⟩, rfl, header, payload, rfl, hm, hrep⟩ ht
      refine runs_handleSolver report fun u m _ hm' => ?_
      rw [hr] at hm'
      cases hm'
    · refine runs_handleSolver (replied n o t hm hrep ho ht) fun u m hu hm' k hk => ?_
      obtain rfl : m = k := by
        cases hk
        rfl
      obtain ⟨hpay, hpar⟩ := hr m hm'
      obtain ⟨text, rfl⟩ := Option.ne_none_iff_exists'.mp hpay
      obtain ⟨n', hn', hchild, _⟩ := hs.seated.waiting x o (List.mem_of_getLast? ho)
      rw [hm.node, Option.some.injEq] at hn'
      rw [s.heap.parent_of_mem hchild, ← hn', Option.some.injEq] at hpar
      subst hpar
      exact ⟨x, o, header, text, rfl, hkind, hm, hrep, ho, ht.trans hu⟩
  · refine Traced.bind (Q := fun _ t => t = s)
      (Traced.when (fun _ => Runs.raise (by decide)) fun _ => rfl) fun _ t _ ht => ?_
    subst ht
    exact (runs_handleOther hs hkind).mono fun r u _ hr => Event.brings_of_ne hr

end Messages

theorem runs_receive (hs : Consistent s) :
    Runs (Act.Received hindered ev s) out (receive ev) (ev.Brings s) s := by
  cases ev with
  | timeout => exact Traced.pure (Event.brings_of_ne fun n h => nomatch h)
  | accept remote =>
    exact Traced.seq (runs_accept hs) fun _ _ _ =>
      Traced.pure (Event.brings_of_ne fun n h => nomatch h)
  | message x header payload => exact runs_handleMessage hs
  | closed x => exact runs_closing.mono fun _ _ _ hr => Event.brings_of_ne hr

/-- Where partitions have arrived the solver still works, in the current tree. -/
theorem Event.Brings.here {r : Option (Option PNode)} (h : ev.Brings s r t)
    (ready : ev.ready s) (ht : Consistent t) {q : PNode} (hq : r = some (some q)) {i : InstId}
    (hi : t.current = some i) : q.Here i t := by
  intro n hn
  subst hn
  obtain ⟨x, o, header, text, rfl, hkind, hm, _, _, hquiet⟩ := h n hq
  have hx : t.Connected x := by
    rw [State.Connected, hquiet.rlist, hquiet.kind]
    exact ⟨ready.1, hkind⟩
  have hnode : (t.solver x).node = some n := by
    rw [hquiet.node]
    simpa [Act.apply, State.modifySolver] using hm.node
  obtain ⟨_, hand, hatt⟩ := ht.seated.placed x n hnode
  exact ⟨Solving.here ⟨ht, hi⟩ (.inl hx) hnode ▸ hatt, hand⟩

/-- Where `entrust` is called, an instance that is over can be concluded. -/
def Event.Clear (s : State) (ev : Event) : Prop :=
  ∀ p t, receive ev s = (.ok (some p), t) → t.Concludable

section Decidable

instance (s : State) (x : SockId) (n : NodeId) (header : Header) :
    Decidable (Solver.Matches s x n header) :=
  decidable_of_iff ((s.solver x).node = some n ∧
      header.lookup Constant.name = some (s.heap.label (s.heap.root n)).name ∧
      header.lookup Constant.node = some (render (s.heap.path n)))
    ⟨fun h => ⟨h.1, h.2.1, h.2.2⟩, fun h => ⟨h.node, h.name, h.path⟩⟩

instance (s : State) (x : SockId) (header : Header) : Decidable (s.Takes x header) :=
  inferInstanceAs (Decidable (_ ∧ _))

instance (s : State) (i : InstId) : Decidable (s.Stuck i) :=
  inferInstanceAs (Decidable (_ ∧ _ ∧ _ ∧ _))

instance (s : State) (xs : List SockId) : Decidable (Answering s xs) :=
  decidable_of_iff ((∀ x ∈ xs, ∃ n ∈ (s.solver x).node, s.Takes x (Solver.header s Constant.stop n)) ∧
      ∀ k, k < xs.length → s.world.env.writeOk (s.world.writeTick + k) = true)
    ⟨fun h => ⟨h.1, h.2⟩, fun h => ⟨h.takes, h.writeOk⟩⟩

instance (s : State) (i : InstId) : Decidable (Unhindered s i) :=
  decidable_of_iff (Answering s (s.solvers .all) ∧
      ∀ l ∈ s.concludingLemmaServer, s.Takes l (s.resetHeader (s.root i)) ∧
        s.world.env.writeOk (s.world.writeTick + (s.solvers .all).length) = true)
    ⟨fun h => ⟨h.1, h.2⟩, fun h => ⟨h.answering, h.lemmas⟩⟩

/-- The state a program has reached, if its result is as wanted. -/
def reached {α : Type} (p : α → Bool) : Except Exn α × State → Option State
  | (.ok a, t) => if p a then some t else none
  | (.error _, _) => none

theorem mem_reached {α : Type} {p : α → Bool} {r : Except Exn α × State} :
    t ∈ reached p r ↔ ∃ a, p a = true ∧ r = (.ok a, t) := by
  rcases r with ⟨e | a, u⟩
  · refine ⟨fun h => (nomatch h), ?_⟩
    rintro ⟨b, _, h⟩
    cases h
  · rw [reached]
    constructor
    · intro h
      split at h
      · next ha =>
        cases h
        exact ⟨a, ha, rfl⟩
      · cases h
    · rintro ⟨b, hb, h⟩
      cases h
      rw [if_pos hb]
      rfl

instance (s : State) : Decidable s.Concludable :=
  decidable_of_iff (∀ i ∈ s.current, ∀ t ∈ reached id (isOver i s), t.Stuck i ∨ Unhindered t i) <| by
    refine ⟨fun h i t hi hover => h i hi t (mem_reached.mpr ⟨true, rfl, hover⟩),
      fun h i hi t ht => ?_⟩
    obtain ⟨b, rfl, hover⟩ := mem_reached.mp ht
    exact h i t hi hover

instance (s : State) (ev : Event) : Decidable (ev.Clear s) :=
  decidable_of_iff (∀ t ∈ reached Option.isSome (receive ev s), t.Concludable) <| by
    refine ⟨fun h p t ht => h t (mem_reached.mpr ⟨some p, rfl, ht⟩), fun h t ht => ?_⟩
    obtain ⟨r, hr, hrun⟩ := mem_reached.mp ht
    obtain ⟨p, rfl⟩ := Option.isSome_iff_exists.mp hr
    exact h p t hrun

end Decidable

theorem runs_handle (hs : Consistent s) (ready : ev.ready s) {fuel : Nat}
    (clear : hindered ∨ ev.Clear s)
    (live : out ∨ ∀ p t, receive ev s = (.ok (some p), t) → Lively hindered fuel p t) :
    Runs (Act.Caused hindered ev s) out (handle fuel ev) (fun _ _ => True) s := by
  have received : Runs (Act.Received hindered ev s) False (receive ev) (ev.Brings s) s :=
    runs_receive hs
  rw [Runs, Traced, handle, wp_bind]
  refine wp_of_run (fun r t hrun => ?_) fun e t hrun => ?_
  · obtain ⟨ht, hbrings⟩ := wp_ok received hrun
    change Path _ s t at ht
    have hst : Consistent t := hs.path (fun _ _ ha => ha.1) ht
    have path : Path (Act.Caused hindered ev s) s t := ht.mono fun _ _ ha => ha.caused
    cases r with
    | none => exact ⟨path, trivial⟩
    | some p =>
      have entrusted : Runs (Act.Entrusted hindered t.idleSolvers) out (entrust fuel p)
          (fun _ _ => True) t :=
        runs_entrust hst (fun q hq i hi => hbrings.here ready hst (by rw [hq]) hi)
          (clear.imp_right fun h => h p t hrun) (live.imp_right fun h => h p t hrun)
      rw [ht.received_idle] at entrusted
      exact Traced.after path (entrusted.imp fun _ _ ha => ha.caused)
  · obtain ⟨ht, hout⟩ := wp_error received hrun
    change Path _ s t at ht
    exact ⟨ht.mono fun _ _ ha => ha.caused, fun h => (hout h).elim⟩

/-- A turn is a run of the actions that its event causes. -/
theorem Step.path (hs : Consistent s) (clear : hindered ∨ ev.Clear s) (h : Step s ev t) :
    Path (Act.Caused hindered ev s) s t := by
  cases h with
  | mk running ready run ends =>
    rename_i fuel r u
    have path : Path (Act.Caused hindered ev s) s u := by
      have hwp : Runs (Act.Caused hindered ev s) True (handle fuel ev) (fun _ _ => True) s :=
        runs_handle hs ready clear (.inl trivial)
      have hfinal := wp_final (wp_mono hwp (fun _ _ h => h.1) fun _ _ h => h.1)
      rwa [run] at hfinal
    exact path.trans (Path.quiet received_quiet.caused { Quiet.refl u with env := rfl })

theorem Consistent.step (hs : Consistent s) (h : Step s ev t) : Consistent t := by
  have hpath : Path (Act.Caused True ev s) s t := h.path hs (.inl trivial)
  exact hs.path (fun _ _ ha => ha.1) hpath

theorem Consistent.init (env : Env) (config : Config) : Consistent (State.init env config) where
  seated := by
    refine ⟨fun x n h => (nomatch h), fun x o h => ?_, fun x => List.nodup_nil, fun x y o h => ?_⟩
    · exact absurd h List.not_mem_nil
    · exact absurd h List.not_mem_nil
  sockets x hx := by
    obtain rfl := List.mem_singleton.mp hx
    exact Nat.one_pos
  distinct := List.nodup_singleton 0
  opened i hi := absurd hi (Nat.not_lt_zero i)
  roots i _ hi := absurd hi (Nat.not_lt_zero i)
  current i hi := nomatch hi
  entries e he := absurd he List.not_mem_nil
  keys := List.nodup_nil
  here x n _ hn := nomatch hn

/-- Every state that the server reaches is in order. -/
theorem Consistent.turns {G : State → Event → Prop} {env : Env} {config : Config}
    (h : Turns G (State.init env config) s) : Consistent s :=
  h.invariant (fun _ _ _ hs _ hstep => hs.step hstep) (.init env config)

end Smts.Server
