import Smts.Server.Loop
import Smts.Server.PassTwins

namespace Smts.Server

open Smts.Lib Smts.Lib.Prog

/-- What becomes of a text depends on how Horn scripts are read only, and it is a new root. -/
theorem parse_addRoot (env : Env) (name smt : String) :
    ∃ l : Option Label, ∀ (env' : Env) (h : Heap), env'.horn = env.horn →
      parse env' h name smt = l.map h.addRoot := by
  by_cases hm : ".mcmt".toList.isSuffixOf name.toList = true
  · refine ⟨some { cls := .mcmt, smt := smt, name := name }, fun env' h _ => ?_⟩
    rw [parse, if_pos hm]
    rfl
  by_cases hq : occursLater "(query ".toList smt.toList = true
  · refine ⟨(env.horn smt).map fun p =>
      { cls := .fixedpoint, smt := p.smt, name := name, query := p.query }, fun env' h hhorn => ?_⟩
    rw [parse, if_neg hm, if_pos hq, hhorn, Option.map_map]
    rfl
  · refine ⟨some { cls := .smt, smt := smt, name := name }, fun env' h _ => ?_⟩
    rw [parse, if_neg hm, if_neg hq]
    rfl

theorem Heap.Embeds.fixedpointPartition {f : Nat → Nat} {h g : Heap} (e : h.Embeds f g)
    (p : HornScript) (n : NodeId) :
    (fixedpointPartition p (f n) g).1 = (fixedpointPartition p n h).1 ∧
      h.size ≤ (fixedpointPartition p n h).2.size ∧
      (fixedpointPartition p n h).2.Embeds f (fixedpointPartition p (f n) g).2 := by
  have hmade := e.newOr n p.rewritten
  rw [Server.fixedpointPartition, Server.fixedpointPartition]
  rcases hn : h.newOr n p.rewritten with x | ⟨o, h'⟩
  · rcases hm : g.newOr (f n) p.rewritten with y | ⟨m, g'⟩
    · rw [hn, hm] at hmade
      exact ⟨congrArg some hmade, Nat.le_refl _, e⟩
    · rw [hn, hm] at hmade
      exact hmade.elim
  · rcases hm : g.newOr (f n) p.rewritten with y | ⟨m, g'⟩
    · rw [hn, hm] at hmade
      exact hmade.elim
    · rw [hn, hm] at hmade
      obtain ⟨rfl, _, hsize, e'⟩ := hmade
      obtain ⟨hfail, hgrown, e''⟩ := e'.addAnds o (p.queries.map fun q => "(query " ++ q ++ ")")
      exact ⟨hfail, Nat.le_trans (hsize ▸ Nat.le_succ _) hgrown, e''⟩

/-- The argument of the call of `entrust` that a message of a solver leads to. -/
def argument (r : Solver.Received) : Option (Option PNode) :=
  some <| match r.partitionRecieved with
    | some n => some (.node n)
    | none => if r.header.has "partition_recieved" then some .text else none

theorem argument_rename {f : NodeId → NodeId} (r : Solver.Received) :
    argument { r with partitionRecieved := r.partitionRecieved.map f } =
      (argument r).map (Option.map (PNode.rename f)) := by
  cases hr : r.partitionRecieved with
  | some n => simp [argument, hr, PNode.rename]
  | none =>
    by_cases hp : r.header.has "partition_recieved" = true
    · simp [argument, hr, hp, PNode.rename]
    · simp [argument, hr, hp]

/-- The same servers, with other solvers in use. -/
def Link.among (L : Link) (live : SockId → Prop) : Link := { L with live := live }

/-- Some twins, whatever solvers are in use. -/
def Akin (L : Link) (s t : State) : Prop := ∃ live, Like (L.among live) s t

/-- What is left of `joinLemmaServer` when the old lemma server is gone. -/
def enlist (x : SockId) (address : String) : M Unit := do
  let s ← get
  let y := s.nextSock
  modify fun s => { s with
    nextSock := y + 1
    kind := Function.update s.kind y .lemmaServer
    sock := Function.update s.sock y (s.sock x)
    listening := Function.update s.listening y address }
  write y ((if s.config.enableLog then [(Constant.logMode, "1")] else []) ++
    [(Constant.maxMemory, toString s.config.maxMemory)]) "" none
  modify fun s => { s with rlist := s.rlist ++ [y] }
  forEach (fun z => Solver.setLemmaServer z (some y)) (← solvers .all)

namespace Twin

variable {L : Link} {p : Marks} {s t : State} {x : SockId} {n : NodeId} {i : InstId}
  {α β : Type}

section Submitting

/-- The dictionary with an instance entered under its name. -/
def entered (trees : List (String × InstId)) (name : String) (i : InstId) :
    List (String × InstId) :=
  if (trees.lookup name).isSome then trees.map fun e => if e.1 = name then (name, i) else e
  else trees ++ [(name, i)]

theorem entered_rename (h : Twin L p s t) (name : String) (i : InstId) :
    entered t.trees name (L.inst i) = (entered s.trees name i).map fun e => (e.1, L.inst e.2) := by
  rw [entered, entered, h.lookup_trees, Option.isSome_map]
  split
  · rw [h.trees, List.map_map, List.map_map]
    refine List.map_congr_left fun e _ => ?_
    by_cases he : e.1 = name
    · simp [he]
    · simp [he]
  · rw [h.trees, List.map_append, List.map_singleton]

theorem mem_entered {trees : List (String × InstId)} {name : String} {e : String × InstId}
    (he : e ∈ entered trees name i) : e.2 = i ∨ e ∈ trees := by
  rw [entered] at he
  split at he
  · obtain ⟨d, hd, rfl⟩ := List.mem_map.mp he
    split
    · exact .inl rfl
    · exact .inr hd
  · rcases List.mem_append.mp he with he | he
    · exact .inr he
    · exact .inl (List.mem_singleton.mp he ▸ rfl)

/-- A new instance gets the next number in both servers. -/
theorem enter (h : Twin L p s t) (name : String) (l : Label) :
    Twin L { p with nodes := s.heap.size + 1 }
      { s with
        heap := (s.heap.addRoot l).2
        inst := Function.update s.inst s.nextInst
          { root := s.heap.size, timeout := s.config.solvingTimeout }
        nextInst := s.nextInst + 1
        trees := entered s.trees name s.nextInst }
      { t with
        heap := (t.heap.addRoot l).2
        inst := Function.update t.inst t.nextInst
          { root := t.heap.size, timeout := t.config.solvingTimeout }
        nextInst := t.nextInst + 1
        trees := entered t.trees name t.nextInst } := by
  have hgrown : s.heap.size ≤ s.heap.size + 1 := Nat.le_succ _
  have hsize := h.heap.size
  have hold {j : InstId} (hj : j < s.nextInst + 1) (hne : j ≠ s.nextInst) : j < s.nextInst :=
    Nat.lt_of_le_of_ne (Nat.le_of_lt_succ hj) hne
  refine { h with
    heap := h.heap.addRoot l
    nodes := Nat.le_refl _
    insts := Nat.le_trans h.insts (Nat.le_succ _)
    placed := fun x n hx hn => Nat.lt_of_lt_of_le (h.placed x n hx hn) hgrown
    waiting := fun x o hx ho => Nat.lt_of_lt_of_le (h.waiting x o hx ho) hgrown
    instNext := fun j hj => h.instNext j (Nat.le_of_succ_le hj)
    nextInst := ?_
    inst := fun j hj => ?_
    rooted := fun j hj => ?_
    trees := ?_
    entries := fun e he => ?_
    here := fun j hj => Nat.lt_succ_of_lt (h.here j hj) }
  · dsimp only
    rw [h.instNext _ (Nat.le_refl _), h.nextInst]
  · dsimp only [State.root]
    rw [h.nextInst]
    by_cases hne : j = s.nextInst
    · rw [hne, Function.update_self, Function.update_self, h.config, hsize]
    · rw [Function.update_of_ne fun he => hne (h.instMono.injective he), Function.update_of_ne hne,
        h.inst j (hold hj hne)]
      rfl
  · dsimp only [State.root]
    by_cases hne : j = s.nextInst
    · rw [hne, Function.update_self]
      exact Nat.lt_succ_self _
    · rw [Function.update_of_ne hne]
      exact Nat.lt_succ_of_lt (h.rooted j (hold hj hne))
  · dsimp only
    rw [h.nextInst]
    exact h.entered_rename name s.nextInst
  · rcases mem_entered he with he | he
    · exact he ▸ Nat.lt_succ_self _
    · exact Nat.lt_succ_of_lt (h.entries e he)

theorem match_submit (h : Twin L p s t) (name : String) (payload : Payload) :
    Match L p (submit name payload) (submit name payload) s t := by
  refine Coupled.get ?_
  cases payload with
  | none => exact h.match_print _ _
  | some text =>
    obtain ⟨l, hl⟩ := parse_addRoot s.world.env name text
    simp only [Option.bind_some, hl s.world.env s.heap rfl, hl t.world.env t.heap h.world.horn]
    cases l with
    | none => exact h.match_print _ _
    | some l =>
      have hfit := h.enter name l
      have hsize : s.heap.size < s.heap.size + 1 := Nat.lt_succ_self _
      refine Coupled.post (Q := Kept L { p with nodes := s.heap.size + 1 }) ?_ fun _ _ u v hu =>
        ⟨hu.1, hu.2.lower (Nat.le_succ_of_le h.nodes)⟩
      refine Coupled.bind (Q := fun _ _ u v => (u.heap = (s.heap.addRoot l).2 ∧
        v.heap = (t.heap.addRoot l).2) ∧ Twin L { p with nodes := s.heap.size + 1 } u v)
        (Coupled.modify ⟨⟨rfl, rfl⟩, hfit⟩) fun _ _ u v hu => ?_
      obtain ⟨⟨hheap, hheap'⟩, hu⟩ := hu
      have e : (s.heap.addRoot l).2.Embeds L.node (t.heap.addRoot l).2 := h.heap.addRoot l
      have hlabel :
          (t.heap.addRoot l).2.label t.heap.size = (s.heap.addRoot l).2.label s.heap.size := by
        rw [h.heap.size]
        exact e.label _ hsize
      refine Coupled.when ?_ (fun _ => ?_) fun _ => ⟨rfl, hu⟩
      · rw [h.config]
        exact and_congr_left fun _ => iff_of_eq (congrArg (·.cls = .fixedpoint) hlabel)
      · rw [h.world.horn]
        cases s.world.env.horn text with
        | none => exact hu.match_pure ()
        | some q =>
          obtain ⟨hfail, hgrown, e'⟩ := e.fixedpointPartition q s.heap.size
          rw [← h.heap.size] at hfail e'
          refine Match.bind (hu.match_modifyHeap e' (hheap ▸ hgrown)) fun _ u v hu =>
            Coupled.when ?_ (fun _ => hu.match_print _ _) fun _ => ⟨rfl, hu⟩
          exact not_congr (iff_of_eq (congrArg (· = none) hfail))

end Submitting

section Joining

theorem kind_update {k : Kind} {y z : SockId} {kind : SockId → Kind}
    (hne : z = y → k ≠ .solver) (h : Function.update kind y k z = .solver) : kind z = .solver := by
  rw [Function.update_apply] at h
  split at h
  · next he => exact absurd h (hne he)
  · exact h

/-- Everybody is told of the lemma server. -/
theorem match_announce (h : Twin L p s t) (l : Option SockId) :
    Match L p (do forEach (fun z => Solver.setLemmaServer z l) (← Server.solvers .all))
      (do forEach (fun z => Solver.setLemmaServer z l) (← Server.solvers .all)) s t :=
  h.bind_solvers (w := .all) fun _ _ _ hxs hu =>
    hu.match_each hxs fun _ _ _ _ hu => hu.match_setLemmaServer l

theorem match_rlist (h : Twin L p s t) (r : List SockId → List SockId)
    (hr : ∀ y ∈ r s.rlist, s.kind y = .solver → L.live y) :
    Match L p (modify fun s => { s with rlist := r s.rlist })
      (modify fun s => { s with rlist := r s.rlist }) s t :=
  Coupled.modify ⟨rfl, { h with
    rlist := congrArg r h.rlist
    joined := fun y hy => hr y hy.1 hy.2 }⟩

theorem match_delist (h : Twin L p s t) (x : SockId) :
    Match L p (modify fun s => { s with rlist := s.rlist.filter (· ≠ x) })
      (modify fun s => { s with rlist := s.rlist.filter (· ≠ x) }) s t :=
  h.match_rlist (·.filter (· ≠ x)) fun y hy hk => h.joined y ⟨List.mem_of_mem_filter hy, hk⟩

theorem match_greet (h : Twin L p s t) (y : SockId) : Match L p (do
      match ← lemmaServer with
      | some l => Solver.setLemmaServer y (some l)
      | none => pure ()) (do
      match ← lemmaServer with
      | some l => Solver.setLemmaServer y (some l)
      | none => pure ()) s t := by
  refine Match.bind h.match_lemmaServer fun l u v hu => ?_
  cases l with
  | none => exact hu.match_pure ()
  | some l => exact hu.match_setLemmaServer (some l)

/-- A new solver is in use in both servers. -/
theorem newSolver (h : Twin L p s t) (name : String) :
    Twin (L.among fun z => L.live z ∨ z = s.nextSock) p
      { s with
        nextSock := s.nextSock + 1
        kind := Function.update s.kind s.nextSock .solver
        sock := Function.update s.sock s.nextSock (s.sock x)
        solver := Function.update s.solver s.nextSock { name := name } }
      { t with
        nextSock := s.nextSock + 1
        kind := Function.update t.kind s.nextSock .solver
        sock := Function.update t.sock s.nextSock (t.sock x)
        solver := Function.update t.solver s.nextSock { name := name } } := by
  have each {P : SockId → SolverData → Prop} (hx : P s.nextSock { name := name })
      (hy : ∀ y, L.live y → P y (s.solver y)) (y : SockId) (hlive : L.live y ∨ y = s.nextSock) :
      P y (Function.update s.solver s.nextSock { name := name } y) := by
    by_cases he : y = s.nextSock
    · subst he
      rwa [Function.update_self]
    · rw [Function.update_of_ne he]
      exact hy y (hlive.resolve_right he)
  refine { h with
    kind := by simp only [h.kind]
    sock := by simp only [h.sock]
    nextSock := rfl
    solver := fun y hy => ?_
    parked := fun y hy => each (P := fun _ d => d.node = none → d.started = none)
      (fun _ => rfl) h.parked y hy
    placed := fun y n hy => each (P := fun _ d => d.node = some n → n < s.heap.size)
      (fun hn => by cases hn) (fun y hy => h.placed y n hy) y hy
    waiting := fun y o hy => each (P := fun _ d => o ∈ d.orWaiting → o < s.heap.size)
      (fun ho => by cases ho) (fun y hy => h.waiting y o hy) y hy
    joined := fun y hy => ?_
    resting := fun y hy => .inl (h.resting y hy)
    unborn := fun y hy => ?_ }
  · by_cases he : y = s.nextSock
    · subst he
      simp only [Function.update_self]
      exact ⟨rfl, rfl, rfl, rfl⟩
    · simp only [Function.update_of_ne he]
      exact h.solver y (hy.resolve_right he)
  · by_cases he : y = s.nextSock
    · exact .inr he
    · exact .inl (h.joined y ⟨hy.1, kind_update (fun h => absurd h he) hy.2⟩)
  · have hne : y ≠ s.nextSock := Nat.ne_of_gt hy
    simp only [Function.update_of_ne hne]
    exact h.unborn y (Nat.le_of_succ_le hy)

theorem coupled_join (h : Twin L p s t) (name : String) :
    Coupled (join x name) (join x name)
      (fun _ _ u v => Twin (L.among fun z => L.live z ∨ z = s.nextSock) p u v) (Akin L) s t := by
  refine Coupled.get ?_
  dsimp only
  rw [h.nextSock, h.rlist, h.config]
  refine Coupled.mono (Q := Kept (L.among fun z => L.live z ∨ z = s.nextSock) p)
    (E := Like (L.among fun z => L.live z ∨ z = s.nextSock)) ?_ (fun _ _ _ _ hu => hu.2)
    fun _ _ hu => ⟨_, hu⟩
  refine Match.bind (Coupled.modify ⟨rfl, h.newSolver name⟩) fun _ u v hu => ?_
  refine Match.bind (Coupled.when Iff.rfl (fun _ => hu.match_write _ (.refl _) "" none none)
    fun _ => ⟨rfl, hu⟩) fun _ u v hu => Coupled.ite Iff.rfl (fun _ => ?_) fun _ => ?_
  · refine Match.bind (hu.match_rlist (fun l => l.filter (· ≠ x) ++ [s.nextSock]) fun y hy hk => ?_)
      fun _ u v hu => hu.match_greet _
    rcases List.mem_append.mp hy with hy | hy
    · exact hu.joined y ⟨List.mem_of_mem_filter hy, hk⟩
    · exact .inr (List.mem_singleton.mp hy)
  · exact Coupled.bind (Q := Kept _ p) (Coupled.raise hu.like) fun _ _ u v hu => hu.2.match_greet _

theorem match_enlist (h : Twin L p s t) (address : String) :
    Match L p (enlist x address) (enlist x address) s t := by
  refine Coupled.get ?_
  dsimp only
  rw [h.nextSock, h.config]
  have hnew : Twin L p
      { s with
        nextSock := s.nextSock + 1
        kind := Function.update s.kind s.nextSock .lemmaServer
        sock := Function.update s.sock s.nextSock (s.sock x)
        listening := Function.update s.listening s.nextSock address }
      { t with
        nextSock := s.nextSock + 1
        kind := Function.update t.kind s.nextSock .lemmaServer
        sock := Function.update t.sock s.nextSock (t.sock x)
        listening := Function.update t.listening s.nextSock address } := by
    refine { h with
      kind := by simp only [h.kind]
      sock := by simp only [h.sock]
      listening := by simp only [h.listening]
      nextSock := rfl
      joined := fun y hy => ?_
      unborn := fun y hy => ?_ }
    · exact h.joined y ⟨hy.1, kind_update (fun _ => by decide) hy.2⟩
    · have hne : y ≠ s.nextSock := Nat.ne_of_gt hy
      simp only [Function.update_of_ne hne]
      exact h.unborn y (Nat.le_of_succ_le hy)
  refine Coupled.bind (Q := fun _ _ u v => u.kind s.nextSock = .lemmaServer ∧ Twin L p u v)
    (Coupled.modify ⟨Function.update_self .., hnew⟩) fun _ _ u v ⟨hk, hu⟩ => ?_
  refine Coupled.bind ((hu.match_write _ (.refl _) "" none none).leaves
    (Untouched.unwired (untouched_write _ _ _ _))) fun _ _ u v ⟨⟨_, hu⟩, hsame⟩ => ?_
  have hk : u.kind s.nextSock = .lemmaServer :=
    (congrFun (congrArg Wiring.kind hsame) s.nextSock).trans hk
  refine Match.bind (hu.match_rlist (· ++ [s.nextSock]) fun y hy hy' => ?_) fun _ u v hu =>
    hu.match_announce _
  rcases List.mem_append.mp hy with hy | hy
  · exact hu.joined y ⟨hy, hy'⟩
  · rw [List.mem_singleton.mp hy, hk] at hy'
    cases hy'

theorem match_joinLemmaServer (h : Twin L p s t) (listening : String) :
    Match L p (joinLemmaServer x listening) (joinLemmaServer x listening) s t := by
  have replace (address : String) {u v : State} (hu : Twin L p u v) (known : Prop) [Decidable known] :
      Match L p (do
        if known then modify fun s => { s with rlist := s.rlist.filter (· ≠ x) }
        else raise .keyError
        enlist x address) (do
        if known then modify fun s => { s with rlist := s.rlist.filter (· ≠ x) }
        else raise .keyError
        enlist x address) u v := by
    refine Coupled.ite Iff.rfl (fun _ => ?_) fun _ => ?_
    · exact Match.bind (hu.match_delist x) fun _ u v hu => hu.match_enlist address
    · exact Coupled.bind (Q := Kept L p) (Coupled.raise hu.like) fun _ _ u v hu =>
        hu.2.match_enlist address
  refine Coupled.get ?_
  dsimp only
  rw [h.rlist, h.sock, h.remote]
  split
  case' h_2 => split
  all_goals
    refine Match.bind (p := p) ?_ fun address u v hu =>
      Match.bind hu.match_lemmaServer fun l u v hu => ?_
    rotate_left
    · cases l with
      | none => exact replace address hu _
      | some l => exact Match.bind (hu.match_closeSocket l) fun _ u v hu => replace address hu _
  · exact h.match_pure _
  · exact Coupled.raise h.like
  · exact Coupled.raise h.like
  · exact h.match_pure _

end Joining

section Receiving

/-- The same call of `entrust`, if any, comes next. -/
def Served (L : Link) (p : Marks) (a b : Option (Option PNode)) (s t : State) : Prop :=
  b = a.map (Option.map (PNode.rename L.node)) ∧ ∃ live, Twin (L.among live) p s t

abbrev Serve (L : Link) (p : Marks) (m : M (Option (Option PNode))) (s t : State) : Prop :=
  Coupled m m (Served L p) (Akin L) s t

theorem akin (h : Like L s t) : Akin L s t := ⟨L.live, h⟩

theorem served (h : Twin L p s t) {a b : Option (Option PNode)}
    (hab : b = a.map (Option.map (PNode.rename L.node))) : Served L p a b s t :=
  ⟨hab, L.live, h⟩

theorem serve_pure (h : Twin L p s t) {a : Option (Option PNode)}
    (ha : a.map (Option.map (PNode.rename L.node)) = a) : Serve L p (pure a) s t :=
  Coupled.pure (h.served ha.symm)

theorem serve_bind {m m' : M α} {f : α → M β} {f' : α → M β}
    {R : β → β → State → State → Prop} (hm : Match L p m m' s t)
    (hf : ∀ a u v, Twin L p u v → Coupled (f a) (f' a) R (Akin L) u v) :
    Coupled (m >>= f) (m' >>= f') R (Akin L) s t := by
  refine Coupled.bind (hm.mono (fun _ _ _ _ h => h) fun _ _ => akin) fun a b u v hk => ?_
  rw [hk.1]
  exact hf a u v hk.2

theorem match_solverError (h : Twin L p s t) (report : String) :
    Match L p (solverError report) (solverError report) s t := by
  refine h.fit fun h => Coupled.get ?_
  rw [h.current]
  cases errorReport report with
  | none => exact h.match_pure ()
  | some message =>
    cases hc : s.current with
    | none => exact h.match_pure ()
    | some i =>
      exact Match.bind (h.withInst (h.here i hc) fun _ _ => rfl) fun _ u v hu => hu.match_print _ _

theorem coupled_handleSolver (h : Twin L p s t) (r : Solver.Received) :
    Coupled (handleSolver r)
      (handleSolver { r with partitionRecieved := r.partitionRecieved.map L.node }) (Served L p)
      (Akin L) s t := by
  refine Coupled.ite ?_ (fun _ => h.serve_pure rfl) fun _ => ?_
  · rw [Option.map_eq_none_iff]
  · have ends {u v : State} (hu : Twin L p u v) : Coupled (pure (argument r) :
          M (Option (Option PNode)))
        (pure (argument { r with partitionRecieved := r.partitionRecieved.map L.node }))
        (Served L p) (Akin L) u v :=
      Coupled.pure (hu.served (argument_rename r))
    dsimp only
    cases r.header.lookup Constant.report with
    | none => exact ends h
    | some report => exact serve_bind (h.match_solverError report) fun _ u v hu => ends hu

theorem serve_closeServer (h : Twin L p s t) : Serve L p (do closeServer; return none) s t :=
  serve_bind h.match_closeServer fun _ _ _ hu => hu.serve_pure rfl

theorem serve_handleCommand (h : Twin L p s t) (command : String) (header : Header)
    (payload : Payload) : Serve L p (handleCommand command header payload) s t := by
  refine Coupled.ite Iff.rfl (fun _ => h.serve_closeServer) fun _ => Coupled.ite Iff.rfl
    (fun _ => ?_) fun _ => h.serve_pure rfl
  cases header.lookup Constant.name with
  | none => exact h.serve_pure rfl
  | some name =>
    exact serve_bind (h.match_submit name payload) fun _ u v hu => hu.serve_pure rfl

theorem serve_client (h : Twin L p s t) (header : Header) (payload : Payload) : Serve L p (
    match header.lookup Constant.command with
    | some command => handleCommand command header payload
    | none =>
      match header.lookup Constant.solver with
      | some name => do
        join x name
        return some none
      | none => do
        match header.lookup Constant.lemmas with
        | some listening => joinLemmaServer x listening
        | none => when (header.has Constant.eval = true) (write x [] "" none)
        return none) s t := by
  cases header.lookup Constant.command with
  | some command => exact h.serve_handleCommand command header payload
  | none =>
    cases header.lookup Constant.solver with
    | some name =>
      exact Coupled.bind (h.coupled_join name) fun _ _ u v hu => Coupled.pure ⟨rfl, _, hu⟩
    | none =>
      cases header.lookup Constant.lemmas with
      | some listening =>
        exact serve_bind (h.match_joinLemmaServer listening) fun _ u v hu => hu.serve_pure rfl
      | none =>
        refine serve_bind (Coupled.when Iff.rfl (fun _ => h.match_write x (.refl _) "" none none)
          fun _ => ⟨rfl, h⟩) fun _ u v hu => hu.serve_pure rfl

theorem match_lemmaReport (h : Twin L p s t) (report : String) :
    Match L p (lemmaReport report) (lemmaReport report) s t := by
  refine Match.bind (Coupled.when Iff.rfl (fun _ => Coupled.raise h.like) fun _ => ⟨rfl, h⟩)
    fun _ u v hu => ?_
  refine Match.bind (Coupled.when Iff.rfl (fun _ => Coupled.raise hu.like) fun _ => ⟨rfl, hu⟩)
    fun _ u v hu => Coupled.when Iff.rfl (fun _ => Coupled.raise hu.like) fun _ => ⟨rfl, hu⟩

theorem serve_handleOther (h : Twin L p s t) (header : Header) (payload : Payload) :
    Serve L p (handleOther x header payload) s t := by
  refine Coupled.get ?_
  dsimp only
  rw [h.kind]
  refine Coupled.ite Iff.rfl (fun _ => h.serve_pure rfl) fun _ => ?_
  cases header.lookup Constant.report with
  | none => exact h.serve_client header payload
  | some report =>
    exact serve_bind (Coupled.when Iff.rfl (fun _ => h.match_lemmaReport report) fun _ => ⟨rfl, h⟩)
      fun _ u v hu => hu.serve_client header payload

theorem serve_handleMessage (h : Twin L p s t) (hx : x ∈ s.rlist) (header : Header)
    (payload : Payload) : Serve L p (handleMessage x header payload) s t := by
  refine Coupled.get ?_
  dsimp only
  rw [h.kind, h.config]
  have log {u v : State} (hu : Twin L p u v) : Match L p
      (when (s.config.enableLog = true ∧ payload = none) (raise .unicodeError))
      (when (s.config.enableLog = true ∧ payload = none) (raise .unicodeError)) u v :=
    Coupled.when Iff.rfl (fun _ => Coupled.raise hu.like) fun _ => ⟨rfl, hu⟩
  refine Coupled.ite Iff.rfl (fun hk => ?_) fun _ => ?_
  · refine Coupled.bind ((h.match_read (h.joined x ⟨hx, hk⟩) header payload).mono
      (fun _ _ _ _ h => h) fun _ _ => akin) fun r r' u v hu => ?_
    obtain ⟨⟨rfl, _⟩, hu⟩ := hu
    exact serve_bind (log hu) fun _ u v hu => hu.coupled_handleSolver r
  · exact serve_bind (log h) fun _ u v hu => hu.serve_handleOther header payload

theorem like_handleClose (h : Twin L p s t) (hx : x ∈ s.rlist) :
    Coupled (handleClose x) (handleClose x) (fun _ _ => Like L) (Like L) s t := by
  refine Coupled.get ?_
  rw [h.kind]
  cases hk : s.kind x with
  | raw => exact Coupled.pure h.like
  | solver =>
    refine Coupled.attempt ((h.match_stop (h.joined x ⟨hx, hk⟩)).post fun _ _ _ _ hu => hu.2.like)
      fun _ u v hu => Coupled.pure hu
  | lemmaServer => exact (h.match_announce none).post fun _ _ _ _ hu => hu.2.like

theorem match_accept (h : Twin L p s t) (remote : String) :
    Match L p (accept remote) (accept remote) s t := by
  refine Coupled.modify ⟨rfl, ?_⟩
  rw [h.nextSock, h.nextConn]
  refine { h with
    kind := by simp only [h.kind]
    sock := by simp only [h.sock]
    isOpen := by simp only [h.isOpen]
    remote := by simp only [h.remote]
    rlist := by simp only [h.rlist]
    nextSock := rfl
    nextConn := rfl
    joined := fun y hy => ?_
    unborn := fun y hy => ?_
    unopened := fun d hd => ?_ }
  · have hk : s.kind y = .solver := kind_update (fun _ => by decide) hy.2
    rcases List.mem_append.mp hy.1 with hmem | hmem
    · exact h.joined y ⟨hmem, hk⟩
    · rw [List.mem_singleton.mp hmem, (h.unborn _ (Nat.le_refl _)).1] at hk
      cases hk
  · have hne : y ≠ s.nextSock := Nat.ne_of_gt hy
    simp only [Function.update_of_ne hne]
    exact h.unborn y (Nat.le_of_succ_le hy)
  · have hne : d ≠ s.nextConn := Nat.ne_of_gt hd
    simp only [Function.update_of_ne hne]
    exact h.unopened d (Nat.le_of_succ_le hd)

/-- The servers go on alike, with the marks as they were if `entrust` comes next. -/
def Received (L : Link) (p : Marks) (a b : Option (Option PNode)) (s t : State) : Prop :=
  b = a.map (Option.map (PNode.rename L.node)) ∧ Akin L s t ∧
    (a ≠ none → ∃ live, Twin (L.among live) p s t)

theorem received {a b : Option (Option PNode)} (h : Served L p a b s t) : Received L p a b s t := by
  obtain ⟨hab, live, h⟩ := h
  exact ⟨hab, ⟨live, h.like⟩, fun _ => ⟨live, h⟩⟩

theorem coupled_receive (h : Twin L p s t) (ev : Event) (ready : ev.ready s) :
    Coupled (receive ev) (receive ev) (Received L p) (Akin L) s t := by
  cases ev with
  | timeout => exact Coupled.pure (received (h.served rfl))
  | accept remote =>
    exact serve_bind (h.match_accept remote) fun _ u v hu =>
      Coupled.pure (received (hu.served rfl))
  | message x header payload =>
    exact (h.serve_handleMessage ready.1 header payload).post fun _ _ _ _ => received
  | closed x =>
    refine Coupled.bind ((h.like_handleClose ready.1).mono (fun _ _ _ _ h => h) fun _ _ => akin)
      fun _ _ u v hu => ?_
    obtain ⟨q, hu⟩ := hu
    refine serve_bind (hu.match_closeSocket x) fun _ u v hu =>
      serve_bind (hu.match_delist x) fun _ u v hu => ?_
    exact Coupled.pure ⟨rfl, akin hu.like, fun hne => absurd rfl hne⟩

/-- Twins that have counted their solvers are so after another turn. -/
theorem coupled_handle (h : Twin L p s t) (htotal : L.total) (hcount : L.count) {ev : Event}
    (ready : ev.ready s) (fuel : Nat)
    (even : ∀ q u, receive ev s = (.ok (some q), u) → p.Even u.rlist.length) :
    Coupled (handle fuel ev) (handle fuel ev) (fun _ _ => Akin L) (Akin L) s t := by
  refine Coupled.bind (h.coupled_receive ev ready).known fun a b u v hu => ?_
  obtain ⟨⟨rfl, hakin, htwin⟩, hrun⟩ := hu
  cases a with
  | none => exact Coupled.pure hakin
  | some q =>
    obtain ⟨live, hu⟩ := htwin (Option.some_ne_none q)
    exact (hu.coupled_entrust htotal hcount (even q u hrun) fuel q).mono
      (fun _ _ _ _ h => ⟨live, h⟩) fun _ _ h => ⟨live, h⟩

end Receiving

end Twin

end Smts.Server
