import Smts.Server.Deeds

namespace Smts.Server

open Smts.Lib Smts.Lib.Prog

/-- Nodes keep their parents and their texts, and the root of an SMT tree gets no children. -/
structure Heap.Tended (h g : Heap) : Prop extends h.Persists g where
  smt : ∀ r, (g.label r).cls = .smt → ∀ c ∈ g.children r, c ∈ h.children r

namespace Heap.Tended

variable {h g k : Heap} {o : NodeId}

theorem of_eq (forest : g.toForest = h.toForest) (label : g.label = h.label) : h.Tended g where
  toPersists := .of_eq forest label
  smt _ _ c hc := by rwa [forest] at hc

theorem refl (h : Heap) : h.Tended h := of_eq rfl rfl

theorem trans (hg : h.Tended g) (gk : g.Tended k) : h.Tended k where
  toPersists := hg.toPersists.trans gk.toPersists
  smt r hr c hc := by
    have hcg := gk.smt r hr c hc
    have hlt : r < g.size := by
      by_contra hge
      rw [Forest.children_of_size_le (Nat.le_of_not_lt hge)] at hcg
      exact absurd hcg List.not_mem_nil
    exact hg.smt r (by rw [← gk.label r hlt]; exact hr) c hcg

theorem addRoot (h : Heap) (l : Label) : h.Tended (h.addRoot l).2 :=
  ⟨.addRoot h l, fun _ _ _ hc => hc⟩

theorem clear (h : Heap) (o : NodeId) : h.Tended (h.clear o) where
  toPersists := .clear h o
  smt r _ c hc := by
    by_cases hr : r = o
    · simp [Heap.clear, Forest.clear, hr] at hc
    · simpa [Heap.clear, Forest.clear, hr] using hc

theorem setStatus (h : Heap) (n : NodeId) (status : SolveStatus) :
    h.Tended (h.setStatus n status) :=
  of_eq (sameTree_setStatus h n status).forest (sameTree_setStatus h n status).label

/-- A node that is added below one that is not the root of an SMT tree. -/
theorem addChild {p : NodeId} {l : Label} (hp : p < h.size)
    (hl : l.cls = .orNode ↔ (h.label p).cls ≠ .orNode) (hcls : (h.label p).cls ≠ .smt)
    (hnew : h.Persists (h.addChild p l hp hl).2) : h.Tended (h.addChild p l hp hl).2 where
  toPersists := hnew
  smt r hr c hc := by
    by_cases hrp : r = p
    · subst hrp
      rw [hnew.label r hp] at hr
      exact absurd hr hcls
    · have hsame : (h.addChild p l hp hl).2.children r = h.children r := Function.update_of_ne hrp _ _
      rwa [hsame] at hc

theorem newOr {n : NodeId} {smt : String} (hcls : (h.label n).cls ≠ .smt)
    (hnew : h.newOr n smt = .ok (o, g)) : h.Tended g := by
  have hp := Persists.newOr hnew
  rw [Heap.newOr] at hnew
  split at hnew
  · next hn =>
    cases hnew
    exact addChild hn.1 (by simp [hn.2]) hcls hp
  · cases hnew

theorem newAnd {n : NodeId} {smt : String} (hnew : h.newAnd n smt = .ok (o, g)) : h.Tended g := by
  have hp := Persists.newAnd hnew
  rw [Heap.newAnd] at hnew
  split at hnew
  · next hn =>
    cases hnew
    exact addChild hn.1 (by simp [hn.2]) (by simp [hn.2]) hp
  · cases hnew

theorem addAnds (h : Heap) (o : NodeId) (texts : List String) : h.Tended (h.addAnds o texts).2 := by
  induction texts generalizing h with
  | nil => exact refl h
  | cons smt smts ih =>
    rw [Heap.addAnds]
    cases hnew : h.newAnd o smt with
    | error e => exact refl h
    | ok r => exact (newAnd hnew).trans (ih r.2)

theorem fixedpointPartition (h : Heap) (p : HornScript) {root : NodeId}
    (hcls : (h.label root).cls ≠ .smt) : h.Tended (fixedpointPartition p root h).2 := by
  rw [Server.fixedpointPartition]
  cases hnew : h.newOr root p.rewritten with
  | error e => exact refl h
  | ok r => exact (newOr hcls hnew).trans (addAnds r.2 r.1 _)

end Heap.Tended

/-- One thing that happens up to the call of `entrust`: reports change the trees and clients
add to them, a solver joins with socket `y`, and one may have gone. -/
inductive Receipt (ev : Event) (y : SockId) : State → State → Prop
  | calm {s t : State} (h : Calm s t) : Receipt ev y s t
  | tree {s t : State} (node : ∀ x, (t.solver x).node = (s.solver x).node) (kind : t.kind = s.kind)
      (heap : s.heap.Tended t.heap) (sent : t.sent = s.sent) (out : t.out = s.out)
      (root : ∀ i, i < s.nextInst → t.root i = s.root i) : Receipt ev y s t
  | gone {s t : State} {x : SockId} {l : List Sent} (h : ev = .closed x)
      (own : ∀ m ∈ l, m.sock = x ∧ m.places = false ∧ m.fits = true)
      (rest : Rest { s.put x none with sent := s.sent ++ l } t) : Receipt ev y s t
  | born {s t : State}
      (rest : Rest { s.put y none with kind := Function.update s.kind y .solver } t) :
      Receipt ev y s t

instance (ev : Event) (y : SockId) : Admits (Receipt ev y) := ⟨.calm⟩

variable {α : Type} {ev : Event} {s : State}

section Receipts

variable {y : SockId}

/-- A program whose steps are deeds and changes of the trees. -/
abbrev Receipts {α : Type} (ev : Event) (y : SockId) (m : M α) : Prop :=
  Trail (Receipt ev y) (fun _ _ _ => False) m

theorem receipts_modifyHeap {f : Heap → Heap} (h : ∀ g : Heap, g.Tended (f g)) :
    Receipts ev y (modifyHeap f) :=
  .modify fun s => .tree (fun _ => rfl) rfl (h s.heap) rfl rfl fun _ _ => rfl

theorem receipts_readStatus (x : SockId) (n : NodeId) (status : SolveStatus) :
    Receipts ev y (Solver.readStatus x n status) := by
  have set (m : NodeId) (st : SolveStatus) : Receipts ev y (modifyHeap fun h => h.setStatus m st) :=
    receipts_modifyHeap fun h => .setStatus h m st
  refine .bind (trail_modifySolver x fun _ => rfl) fun _ =>
    .bind (set n status) fun _ => .when (.bind (.gets _) fun h => ?_)
  exact .forEach (fun c => .bind (.gets _) fun _ => .when (set c .unsat)) _

theorem receipts_recount (o : NodeId) : Receipts ev y (Solver.recount o) := by
  refine .bind .get fun s => ?_
  split
  · simp
  · exact .when (by simp)

theorem receipts_readPartitions (x : SockId) (header : Header) (payload : Payload) :
    Receipts ev y (Solver.readPartitions x header payload) := by
  intro s
  rw [Solver.readPartitions, wp_bind, wp_get]
  dsimp only
  cases hw : (s.solver x).orWaiting.getLast? with
  | none => exact Relation.ReflTransGen.refl
  | some o =>
    simp only
    rw [wp_bind, wp_modifySolver]
    have popped : Relation.ReflTransGen (Receipt ev y) s
        (s.modifySolver x fun d => { d with orWaiting := (s.solver x).orWaiting.dropLast }) :=
      .single (.calm (.rest (Rest.modifySolver s x fun _ => rfl)))
    have tree {g : Heap} (hg : s.heap.Tended g) : Relation.ReflTransGen (Receipt ev y) s
        { s.modifySolver x (fun d => { d with orWaiting := (s.solver x).orWaiting.dropLast }) with
          heap := g } :=
      popped.tail (.tree (fun _ => rfl) rfl hg rfl rfl fun _ _ => rfl)
    cases payload with
    | none => exact tree (.clear _ _)
    | some text =>
      obtain ⟨r, hr⟩ : ∃ r, s.heap.addAnds o ((Solver.pieces text).map Solver.assertText) = r :=
        ⟨_, rfl⟩
      have added := Heap.Tended.addAnds s.heap o ((Solver.pieces text).map Solver.assertText)
      rcases r with ⟨_ | e, g⟩
      · rw [hr] at added
        simp only [hr]
        rw [wp_bind, wp_modifyHeap]
        cases hp : g.parent o with
        | none => exact ⟨_, tree added, .inl rfl⟩
        | some p =>
          refine Trail.after (tree added) (.bind (.when (receipts_modifyHeap fun g => .clear g o)) ?_)
          exact fun _ => .bind (receipts_recount o) fun _ => .pure _
      · rw [hr] at added
        simp only [hr]
        exact tree (added.trans (.clear _ _))

theorem receipts_read (x : SockId) (header : Header) (payload : Payload) :
    Receipts ev y (Solver.read x header payload) := by
  refine .bind .get fun s => ?_
  split
  · simp
  · split
    · refine .ite (by simp) (.ite (receipts_readPartitions _ _ _) ?_)
      split
      · simp
      · exact .bind (receipts_readStatus _ _ _) fun _ => by simp
    · simp

theorem receipts_submit (name : String) (payload : Payload) :
    Receipts ev y (submit name payload) := by
  intro s
  rw [submit, wp_bind, wp_get]
  cases hp : payload.bind fun text => (parse s.world.env s.heap name text).map (text, ·) with
  | none => exact trail_print rfl s
  | some r =>
    obtain ⟨text, root, g⟩ := r
    obtain ⟨text', _, hmap⟩ := Option.bind_eq_some_iff.mp hp
    obtain ⟨⟨r, g'⟩, hparse, heq⟩ := Option.map_eq_some_iff.mp hmap
    cases heq
    obtain ⟨l, _, _, hadd⟩ := parse_eq hparse
    cases hadd
    simp only
    rw [wp_bind, wp_modify, wp_when]
    have entered : Receipt ev y s { s with
        heap := (s.heap.addRoot l).2
        inst := Function.update s.inst s.nextInst
          { root := (s.heap.addRoot l).1, timeout := s.config.solvingTimeout }
        nextInst := s.nextInst + 1
        trees := if (s.trees.lookup name).isSome then
            s.trees.map fun e => if e.1 = name then (name, s.nextInst) else e
          else s.trees ++ [(name, s.nextInst)] } :=
      .tree (fun _ => rfl) rfl (.addRoot s.heap l) rfl rfl fun i hi => by
        simp [State.root, Function.update_of_ne (Nat.ne_of_lt hi)]
    refine ⟨fun hcls => ?_, fun _ => .single entered⟩
    cases s.world.env.horn text with
    | none => exact .single entered
    | some p =>
      simp only
      rw [wp_bind, wp_modifyHeap]
      refine Trail.after ?_ (.when (trail_print rfl))
      refine .tail (.single entered) (.tree (fun _ => rfl) rfl ?_ rfl rfl fun _ _ => rfl)
      exact .fixedpointPartition _ p fun hsmt => absurd (hcls.1.symm.trans hsmt) (by simp)

@[simp] theorem receipts_greet (z : SockId) : Receipts ev y (do
    match ← lemmaServer with
    | some l => Solver.setLemmaServer z (some l)
    | none => pure ()) := by
  refine .bind (by simp) fun l => ?_
  split
  · simp
  · simp

theorem receipts_accept (remote : String) : Receipts ev y (accept remote) :=
  trail_modify fun s => { Rest.newKind s s.nextSock (k := .raw) (by simp) with }

theorem wp_join_receipts {x : SockId} {name : String} (hy : s.nextSock = y) :
    wp (join x name) (fun _ t => Relation.ReflTransGen (Receipt ev y) s t)
      (fun _ t => ∃ u, Relation.ReflTransGen (Receipt ev y) s u ∧ (u = t ∨ False)) s := by
  rw [join, wp_bind, wp_get, wp_bind, wp_modify]
  subst hy
  refine Trail.after (.single (.born { Rest.refl _ with node := fun z => ?_ })) ?_
  · by_cases hz : z = s.nextSock
    · subst hz
      simp [State.put, State.modifySolver]
    · simp [State.put, State.modifySolver, hz]
  refine .bind (.when (trail_write ?_)) fun _ => .ite (.bind ?_ fun _ => receipts_greet _)
    (.bind (.raise _) fun _ => receipts_greet _)
  · simp [Sent.steers, Sent.places, Constant.command, Constant.logMode]
  · exact trail_modify fun s => { Rest.refl s with }

/-- The new lemma server, after the old one has been closed. -/
theorem receipts_introduce (x : SockId) (address : String) : Receipts ev y (do
    if x ∈ s.rlist then modify fun s => { s with rlist := s.rlist.filter (· ≠ x) }
    else raise .keyError
    let s ← get
    let y := s.nextSock
    modify fun s => { s with
      nextSock := y + 1
      kind := Function.update s.kind y .lemmaServer
      sock := Function.update s.sock y (s.sock x)
      listening := Function.update s.listening y address }
    write y ((if s.config.enableLog then [(Constant.logMode, "1")] else []) ++
      [(Constant.maxMemory, toString s.config.maxMemory)]) "" none
    modify fun s => { s with rlist := s.rlist ++ [y] }
    forEach (fun z => Solver.setLemmaServer z (some y)) (← solvers .all) : M Unit) := by
  have rest : Receipts ev y (do
      let s ← get
      let y := s.nextSock
      modify fun s => { s with
        nextSock := y + 1
        kind := Function.update s.kind y .lemmaServer
        sock := Function.update s.sock y (s.sock x)
        listening := Function.update s.listening y address }
      write y ((if s.config.enableLog then [(Constant.logMode, "1")] else []) ++
        [(Constant.maxMemory, toString s.config.maxMemory)]) "" none
      modify fun s => { s with rlist := s.rlist ++ [y] }
      forEach (fun z => Solver.setLemmaServer z (some y)) (← solvers .all) : M Unit) := by
    refine .bind .get fun s => .bind (trail_modify fun s =>
      { Rest.newKind s _ (k := .lemmaServer) (by simp) with }) fun _ =>
      .bind (trail_write ?_) fun _ => .bind (trail_modify fun s => { Rest.refl s with }) fun _ =>
        .bind (by simp) fun l => .forEach (fun _ => by simp) _
    split <;>
      simp [Sent.steers, Sent.places, Header.lookup_cons_if, Constant.command, Constant.logMode,
        Constant.maxMemory]
  exact .ite (.bind (trail_modify fun s => { Rest.refl s with }) fun _ => rest)
    (.bind (.raise _) fun _ => rest)

@[simp] theorem receipts_joinLemmaServer (x : SockId) (listening : String) :
    Receipts ev y (joinLemmaServer x listening) := by
  refine .bind .get fun s => ?_
  have replace (address : String) : Receipts ev y (do
      match ← lemmaServer with
      | some l => closeSocket l
      | none => pure ()
      if x ∈ s.rlist then modify fun s => { s with rlist := s.rlist.filter (· ≠ x) }
      else raise .keyError
      let s ← get
      let y := s.nextSock
      modify fun s => { s with
        nextSock := y + 1
        kind := Function.update s.kind y .lemmaServer
        sock := Function.update s.sock y (s.sock x)
        listening := Function.update s.listening y address }
      write y ((if s.config.enableLog then [(Constant.logMode, "1")] else []) ++
        [(Constant.maxMemory, toString s.config.maxMemory)]) "" none
      modify fun s => { s with rlist := s.rlist ++ [y] }
      forEach (fun z => Solver.setLemmaServer z (some y)) (← solvers .all) : M Unit) := by
    refine .bind trail_lemmaServer fun l => ?_
    cases l with
    | none => exact receipts_introduce x address
    | some l => exact .bind (trail_closeSocket l) fun _ => receipts_introduce x address
  dsimp only
  split
  · exact .bind (.raise _) replace
  · split
    · exact replace _
    · exact .bind (.raise _) replace
  · exact replace _

theorem receipts_solverError (report : String) : Receipts ev y (solverError report) := by
  refine .bind .get fun s => ?_
  split
  · exact .bind (trail_modifyInst _ fun _ => rfl) fun _ => trail_print rfl
  · simp

theorem receipts_handleSolver (r : Solver.Received) : Receipts ev y (handleSolver r) := by
  refine .ite (by simp) ?_
  cases r.header.lookup Constant.report with
  | none => exact .pure _
  | some report => exact .bind (receipts_solverError report) fun _ => .pure _

theorem receipts_handleCommand (command : String) (header : Header) (payload : Payload) :
    Receipts ev y (handleCommand command header payload) := by
  refine .ite (.bind (trail_closeServer) fun _ => .pure _) (.ite ?_ (.pure _))
  split
  · simp
  · exact .bind (receipts_submit _ _) fun _ => .pure _

/-- What `handle_message` does for a client once its report was looked at. -/
theorem wp_serve_receipts {x : SockId} {header : Header} {payload : Payload}
    (hy : s.nextSock = y) :
    wp (
      match header.lookup Constant.command with
      | some command => handleCommand command header payload
      | none =>
        match header.lookup Constant.solver with
        | some name => do
          join x name
          return some none
        | none => do
          match header.lookup Constant.lemmas with
          | some listening => joinLemmaServer x listening
          | none => when (header.has Constant.eval = true) (write x [] "" none)
          return none : M (Option (Option PNode)))
      (fun _ t => Relation.ReflTransGen (Receipt ev y) s t)
      (fun _ t => ∃ u, Relation.ReflTransGen (Receipt ev y) s u ∧ (u = t ∨ False)) s := by
  cases header.lookup Constant.command with
  | some command => exact receipts_handleCommand command header payload s
  | none =>
    cases header.lookup Constant.solver with
    | some name =>
      rw [wp_bind]
      exact wp_mono (wp_join_receipts hy) (fun _ _ ht => ht) fun _ _ ht => ht
    | none =>
      cases header.lookup Constant.lemmas with
      | some listening =>
        exact Trail.bind (receipts_joinLemmaServer x listening) (fun _ => .pure _) s
      | none =>
        exact Trail.bind (.when (trail_write rfl)) (fun _ => .pure _) s

theorem wp_handleOther_receipts {x : SockId} {header : Header} {payload : Payload}
    (hy : s.nextSock = y) :
    wp (handleOther x header payload) (fun _ t => Relation.ReflTransGen (Receipt ev y) s t)
      (fun _ t => ∃ u, Relation.ReflTransGen (Receipt ev y) s u ∧ (u = t ∨ False)) s := by
  rw [handleOther, wp_bind, wp_get]
  dsimp only
  split
  · exact .refl
  · cases header.lookup Constant.report with
    | none => exact wp_serve_receipts hy
    | some report =>
      dsimp only
      rw [wp_bind, wp_when]
      exact ⟨fun _ => wp_lemmaReport (wp_serve_receipts hy) fun _ _ => ⟨s, .refl, .inl rfl⟩,
        fun _ => wp_serve_receipts hy⟩

theorem wp_handleMessage_receipts {x : SockId} {header : Header} {payload : Payload}
    (hy : s.nextSock = y) :
    wp (handleMessage x header payload) (fun _ t => Relation.ReflTransGen (Receipt ev y) s t)
      (fun _ t => ∃ u, Relation.ReflTransGen (Receipt ev y) s u ∧ (u = t ∨ False)) s := by
  rw [handleMessage, wp_bind, wp_get]
  dsimp only
  split
  · refine Trail.bind (receipts_read x header payload) (fun r => ?_) s
    exact .bind (.when (.raise _)) fun _ => receipts_handleSolver r
  · rw [wp_bind, wp_when]
    exact ⟨fun _ => ⟨s, .refl, .inl rfl⟩, fun _ => wp_handleOther_receipts hy⟩

theorem receipts_handleClose (x : SockId) : Receipts (.closed x) y (handleClose x) := by
  refine .bind .get fun s => ?_
  cases s.kind x with
  | solver =>
    intro u
    rw [wp_attempt, Solver.stop, wp_bind, wp_get]
    cases hn : (u.solver x).node with
    | none => exact .refl
    | some a =>
      have reset : Rest (u.put x none) (u.modifySolver x Solver.reset) := Rest.of_put fun _ => rfl
      have left {l : List Sent} (hl : ∀ m ∈ l, m.sock = x ∧ m.places = false ∧ m.fits = true)
          {t : State}
          (ht : Rest { u.modifySolver x Solver.reset with sent := u.sent ++ l } t) :
          Relation.ReflTransGen (Receipt (.closed x) y) u t :=
        .single (.gone rfl hl ((reset.sending l).trans ht))
      dsimp only
      rw [wp_bind, wp_modifySolver]
      refine wp_write_deed (fun w hf => ?_) fun e t ht _ => ?_
      · refine left (l := [Solver.stopSent u x a]) (fun m hm => ?_) { Rest.refl _ with }
        obtain rfl := List.mem_singleton.mp hm
        exact ⟨rfl, Sent.places_cons _ _ _ _ _, hf⟩
      · refine left (l := []) (fun m hm => absurd hm List.not_mem_nil) ?_
        exact { ht with sent := ht.sent.trans (List.append_nil _).symm }
  | lemmaServer => exact .bind (by simp) fun l => .forEach (fun z => by simp) _
  | raw => exact .pure _

theorem wp_receive_receipts (hy : s.nextSock = y) :
    wp (receive ev) (fun _ t => Relation.ReflTransGen (Receipt ev y) s t)
      (fun _ t => ∃ u, Relation.ReflTransGen (Receipt ev y) s u ∧ (u = t ∨ False)) s := by
  cases ev with
  | timeout => exact .refl
  | accept remote => exact Trail.bind (receipts_accept remote) (fun _ => .pure _) s
  | message x header payload => exact wp_handleMessage_receipts hy
  | closed x =>
    have delist : Receipts (.closed x) y
        (modify fun s => { s with rlist := s.rlist.filter (· ≠ x) } : M Unit) :=
      trail_modify fun s => { Rest.refl s with }
    exact Trail.bind (receipts_handleClose x)
      (fun _ => .bind (trail_closeSocket x) fun _ => .bind delist fun _ => .pure _) s

end Receipts

/-- A report is acted on for a solver only. -/
def Act.Heard (ev : Event) (s : State) (a : Act) (u : State) : Prop :=
  a.Received True ev s u ∧
    ((∃ x n status, a = .report x n status) ∨ (∃ x o partitions, a = .reply x o partitions) →
      ∃ x header payload, ev = .message x header payload ∧ s.kind x = .solver)

section Heard

variable {x : SockId} {header : Header} {payload : Payload} {a : Act} {u : State}

theorem Act.Received.message (h : a.Received True ev s u)
    (ha : (∃ x n status, a = .report x n status) ∨ ∃ x o partitions, a = .reply x o partitions) :
    ∃ x header payload report, ev = .message x header payload ∧
      header.lookup Constant.report = some report := by
  obtain ⟨-, h⟩ := h
  rcases ha with ⟨x, n, status, rfl⟩ | ⟨x, o, partitions, rfl⟩
  · obtain ⟨-, header, payload, hev, -, hrep⟩ := h
    exact ⟨x, header, payload, _, hev, hrep⟩
  · obtain ⟨-, n, header, payload, hev, -, hrep, -⟩ := h
    exact ⟨x, header, payload, _, hev, hrep⟩

theorem lookup_erase (k k' : String) :
    (header.erase k).lookup k' = if k' = k then none else header.lookup k' := by
  rw [Header.erase]
  induction header with
  | nil => simp
  | cons e header ih =>
    obtain ⟨a, b⟩ := e
    by_cases ha : a = k
    · rw [List.filter_cons_of_neg (by simp [ha]), ih, Header.lookup_cons_if]
      by_cases hk : k' = k
      · rw [if_pos hk, if_pos hk]
      · rw [if_neg hk, if_neg hk, if_neg (ha ▸ hk)]
    · rw [List.filter_cons_of_pos (by simp [ha]), Header.lookup_cons_if, Header.lookup_cons_if, ih]
      by_cases hk : k' = k
      · rw [if_neg (hk ▸ Ne.symm ha), if_pos hk, if_pos hk]
      · rw [if_neg hk, if_neg hk]

/-- What a client that is no solver sends is handled as if it contained no report. -/
theorem Act.Received.heard
    (ha : a.Received True (.message x (header.erase Constant.report) payload) s u) :
    a.Heard (.message x header payload) s u := by
  have same {k : String} (hk : k ≠ Constant.report) :
      (header.erase Constant.report).lookup k = header.lookup k := by rw [lookup_erase, if_neg hk]
  have mute : ¬((∃ x n status, a = .report x n status) ∨
      ∃ x o partitions, a = .reply x o partitions) := fun hr => by
    obtain ⟨_, _, _, _, hev, hrep⟩ := ha.message hr
    cases hev
    rw [lookup_erase, if_pos rfl] at hrep
    cases hrep
  refine ⟨⟨ha.1, ?_⟩, fun hr => (mute hr).elim⟩
  have hr := ha.2
  cases a with
  | report | reply => exact (mute (by simp)).elim
  | submit name l =>
    obtain ⟨hu, y, header', text, hev, hy, hc, hn, hp⟩ := hr
    cases hev
    rw [same (by decide)] at hc hn
    exact ⟨hu, x, header, text, rfl, hy, hc, hn, hp⟩
  | leave y =>
    obtain ⟨hu, -⟩ := hr
    exact ⟨hu, .inr trivial⟩
  | shut y =>
    refine hr.imp_right fun ⟨hu, h⟩ => ⟨hu, .inr ?_⟩
    obtain ⟨z, header', payload', hev, hz, hc⟩ := h.resolve_left fun h => nomatch h
    cases hev
    rw [same (by decide)] at hc
    exact ⟨x, header, payload, rfl, hz, hc⟩
  | _ => exact hr

theorem runs_receive_heard (hs : Consistent s) :
    Runs (Act.Heard ev s) False (receive ev) (ev.Brings s) s := by
  have heard (h : ∀ x header payload, ev = .message x header payload → s.kind x = .solver) :
      Runs (Act.Heard ev s) False (receive ev) (ev.Brings s) s :=
    (runs_receive hs).imp fun a u ha => ⟨ha, fun hr => by
      obtain ⟨x, header, payload, _, hev, _⟩ := ha.message hr
      exact ⟨x, header, payload, hev, h x header payload hev⟩⟩
  cases ev with
  | message x header payload =>
    by_cases hkind : s.kind x = .solver
    · exact heard fun y _ _ hev => by
        cases hev
        exact hkind
    · refine Traced.get (Traced.ite (fun h => absurd h hkind) fun _ => ?_)
      refine Traced.bind (Q := fun _ t => t = s)
        (Traced.when (fun _ => Runs.raise (by decide)) fun _ => rfl) fun _ t _ ht => ?_
      subst ht
      refine Traced.get (Traced.ite (fun _ => Traced.pure (Event.brings_of_ne (by simp)))
        fun _ => ?_)
      have brings (r : Option (Option PNode)) (u : State)
          (_ : Path (Act.Heard (.message x header payload) t) t u)
          (hr : ∀ n, r ≠ some (some (.node n))) : (Event.message x header payload).Brings t r u :=
        Event.brings_of_ne hr
      have same {k : String} (hk : k ≠ Constant.report) :
          (header.erase Constant.report).lookup k = header.lookup k := by
        rw [lookup_erase, if_neg hk]
      have hcommand (command : String) :
          handleCommand command (header.erase Constant.report) payload =
            handleCommand command header payload := by
        rw [handleCommand, handleCommand, same (by decide)]
      have heval : (header.erase Constant.report).has Constant.eval = header.has Constant.eval := by
        rw [Header.has, Header.has, same (by decide)]
      have muted := @runs_serve True False t x (header.erase Constant.report) payload hs hkind
      simp only [same (k := Constant.command) (by decide), same (k := Constant.solver) (by decide),
        same (k := Constant.lemmas) (by decide), hcommand] at muted
      rw [heval] at muted
      have served := (muted.imp fun _ _ h => h.heard).mono brings
      cases header.lookup Constant.report with
      | none => exact served
      | some report =>
        refine Traced.bind (Q := fun _ u => u = t) ?_ fun _ u _ hu => hu ▸ served
        exact Traced.when (fun _ => runs_lemmaReport) fun _ => rfl
  | _ => exact heard (by simp)

end Heard

/-- What has been received up to the call of `entrust`: no client has got a command to work, and
no verdict was printed. -/
structure Intake (ev : Event) (s u : State) : Prop where
  path : Path (Act.Heard ev s) s u
  trail : Relation.ReflTransGen (Receipt ev s.nextSock) s u
  sent : ∃ l, u.sent = s.sent ++ l ∧ ∀ m ∈ l, m.places = false
  verdicts : u.verdicts = s.verdicts

theorem Intake.of_path {u : State} (trail : Relation.ReflTransGen (Receipt ev s.nextSock) s u)
    (h : Path (Act.Heard ev s) s u) : Intake ev s u := by
  suffices hI : (∃ l, u.sent = s.sent ++ l ∧ ∀ m ∈ l, m.places = false) ∧
      u.verdicts = s.verdicts from ⟨h, trail, hI.1, hI.2⟩
  refine h.invariant (I := fun u => (∃ l, u.sent = s.sent ++ l ∧ ∀ m ∈ l, m.places = false) ∧
    u.verdicts = s.verdicts) (fun v w hq hv => ?_) (fun a v ha hv => ?_) ?_
  · obtain ⟨⟨l, hl, hp⟩, hv⟩ := hv
    obtain ⟨k, hk, hpk⟩ := hq.sent
    refine ⟨⟨l ++ k, by rw [hk, hl, List.append_assoc], fun m hm => ?_⟩, hq.verdicts.trans hv⟩
    exact (List.mem_append.mp hm).elim (hp m) (hpk m)
  · have hr := ha.1.2
    cases a with
    | solve | move | conclude | verdict => exact hr.elim
    | _ => exact hv
  · exact ⟨⟨[], (List.append_nil _).symm, fun _ hm => absurd hm List.not_mem_nil⟩, rfl⟩

/-- A turn of the server that ends so: it receives, then it calls `entrust`, and the last command
may get lost. -/
structure Phases (ev : Event) (r : Except Exn Unit) (s u v t : State) : Prop where
  intake : Intake ev s u
  deeds : Relation.ReflTransGen Deed u v
  last : v = t ∨ ∃ e, r = .error e ∧ Fails e v t
  path : Path (Act.Entrusted True u.idleSolvers) u t

theorem Phases.rest {r : Except Exn Unit} {u v t w : State} (h : Phases ev r s u v t)
    (rest : Rest t w) (quiet : Quiet t w) (sock : w.sock = t.sock) : ∃ v, Phases ev r s u v w := by
  have path := h.path.trans (Path.quiet ⟨⟨trivial, trivial⟩, trivial⟩ quiet)
  rcases h.last with rfl | ⟨e, he, x, hx⟩
  · exact ⟨w, h.intake, h.deeds.tail (.rest rest), .inl rfl, path⟩
  · refine ⟨v, h.intake, h.deeds, .inr ⟨e, he, x, ?_⟩, path⟩
    cases hx with
    | stop hn why hr => exact .stop hn (by rwa [sock]) (hr.trans rest)
    | solve hn hr => exact .solve hn (hr.trans rest)

theorem Ends.phases {r : Except Exn Unit} {t : State} (h : Ends s ev r t) (hs : Consistent s) :
    ∃ u v, Phases ev r s u v t := by
  cases h with
  | @mk fuel t running ready run ends =>
    have received : wp (receive ev) (fun p u => Intake ev s u ∧ ev.Brings s p u)
        (fun _ u => Intake ev s u) s := by
      have runs : Runs (Act.Heard ev s) False (receive ev) (ev.Brings s) s := runs_receive_heard hs
      refine wp_mono (wp_and (wp_receive_receipts rfl) runs) (fun _ u hu => ?_) fun _ u hu => ?_
      · obtain ⟨trail, path, hbrings⟩ := hu
        exact ⟨.of_path trail path, hbrings⟩
      · obtain ⟨⟨v, trail, rfl | hv⟩, path, _⟩ := hu
        · exact .of_path trail path
        · exact hv.elim
    have key : ∃ u v, Phases ev r s u v t := by
      have hwp : wp (handle fuel ev) (fun _ t => ∃ u v, Phases ev (.ok ()) s u v t)
          (fun e t => ∃ u v, Phases ev (.error e) s u v t) s := by
        rw [handle, wp_bind]
        refine wp_mono received (fun p u hu => ?_) fun _ u hu =>
          ⟨u, u, hu, .refl, .inl rfl, Path.refl u⟩
        obtain ⟨hu, hbrings⟩ := hu
        cases p with
        | none => exact ⟨u, u, hu, .refl, .inl rfl, Path.refl u⟩
        | some p =>
          have hst : Consistent u := hs.path (fun _ _ ha => ha.1.1) hu.path
          have entrusted : Runs (Act.Entrusted True u.idleSolvers) True (entrust fuel p)
              (fun _ _ => True) u :=
            runs_entrust hst (fun q hq i hi => hbrings.here ready hst (by rw [hq]) hi)
              (.inl trivial) (.inl trivial)
          refine wp_mono (wp_and (deeds_entrust fuel p u) entrusted) (fun _ t ht => ?_)
            fun e t ht => ?_
          · exact ⟨u, t, hu, ht.1, .inl rfl, ht.2.1⟩
          · obtain ⟨⟨v, hv, hf⟩, path, -⟩ := ht
            exact ⟨u, v, hu, hv, hf.imp_right fun hf => ⟨e, rfl, hf⟩, path⟩
      cases r with
      | ok _ => exact wp_ok hwp run
      | error e => exact wp_error hwp run
    obtain ⟨u, v, h⟩ := key
    obtain ⟨v, h⟩ := h.rest (w := { t with running := r ≠ .error .systemExit ∧ t.rlist ≠ [] })
      { Rest.refl t with } { Quiet.refl t with env := rfl } rfl
    exact ⟨u, v, h⟩

end Smts.Server
