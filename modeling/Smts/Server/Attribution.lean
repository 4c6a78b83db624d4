import Smts.Server.Submissions

namespace Smts.Server

open Smts.Lib

variable {s t : State} {ev : Event} {hindered : Prop}

/-- The path that a `solve` or `incremental` command sends its solver to. -/
def Sent.target (m : Sent) : Option String :=
  if m.header.lookup Constant.command = some Constant.incremental then
    m.header.lookup Constant.node_
  else m.header.lookup Constant.node

/-- Solver `x` may answer the command with a report of this header: reports repeat the
name and the path of the command they are for. -/
def Sent.Prompts (m : Sent) (x : SockId) (header : Header) : Prop :=
  m.sock = x ∧ m.places = true ∧ m.header.lookup Constant.name = header.lookup Constant.name ∧
    m.target = header.lookup Constant.node

/-- Whether `Solver.read` writes a status into node `n` when it gets this header. -/
def State.Writes (s : State) (x : SockId) (header : Header) (n : NodeId) (status : SolveStatus) :
    Prop :=
  s.kind x = .solver ∧ Solver.Matches s x n header ∧
    header.lookup Constant.report = some status.name

/-- Nobody submits an instance under the name of the current one or of one that a solver
has got a command about. -/
def Event.Unworked (s : State) (ev : Event) : Prop :=
  ∀ name, ev.Submits s name → (∀ i, s.current = some i → s.name i ≠ name) ∧
    ∀ m ∈ s.sent, m.places = true → m.header.lookup Constant.name ≠ some name

/-- The instance is the current one or may still be started. -/
def State.Alive (s : State) (i : InstId) : Prop :=
  s.current = some i ∨ i ∈ s.trees.map Prod.snd

theorem Consistent.alive_lt (hs : Consistent s) {i : InstId} (hi : s.Alive i) : i < s.nextInst := by
  rcases hi with hi | hi
  · exact hs.current i hi
  · exact (hs.entries _ (hs.entry hi)).1

/-- A command about an instance of some name is about the one that has this name now. -/
structure Titled (s : State) : Prop where
  about : ∀ m ∈ s.sent, m.places = true → ∃ a, m.about = some a ∧ a < s.heap.size ∧
    ∀ i, s.Alive i → m.header.lookup Constant.name = some (s.name i) → s.heap.root a = s.root i
  single : ∀ i j, s.current = some i → s.Alive j → s.name j = s.name i → j = i

namespace Titled

theorem quiet (h : Quiet s t) (hs : Titled s) : Titled t := by
  have name := Consistent.name_congr h.heap.label h.root
  refine ⟨fun m hm hp => ?_, fun i j => ?_⟩
  · obtain ⟨l, hl, hq⟩ := h.sent
    rw [hl] at hm
    rcases List.mem_append.mp hm with hm | hm
    · rw [h.heap.forest]
      simp only [State.Alive, h.current, h.trees, name, h.root]
      exact hs.about m hm hp
    · rw [hq m hm] at hp
      exact nomatch hp
  · rw [State.Alive, h.current, h.trees, name, name]
    exact hs.single i j

/-- Trees grow, commands about the current tree may be sent, and no instance comes to
life. -/
theorem grow (hs : Titled s) (hcons : Consistent s) (hg : s.heap.Grows t.heap)
    (inst : t.inst = s.inst) (alive : ∀ i, t.Alive i → s.Alive i)
    (current : ∀ i, t.current = some i → s.current = some i) {l : List Sent}
    (sent : t.sent = s.sent ++ l)
    (new : ∀ m ∈ l, ∃ i a, s.current = some i ∧ m.about = some a ∧ a < s.heap.size ∧
      m.header.lookup Constant.name = some (s.name i) ∧ s.heap.root a = s.root i) : Titled t := by
  have root : ∀ i, t.root i = s.root i := fun i => by rw [State.root, inst]; rfl
  have name : ∀ i, s.Alive i → t.name i = s.name i := fun i hi => by
    rw [State.name, State.name, root, hg.label _ (hcons.opened i (hcons.alive_lt hi)).1.1]
  refine ⟨fun m hm hp => ?_, fun i j hi hj he => ?_⟩
  · have key : ∃ a, m.about = some a ∧ a < s.heap.size ∧ ∀ i, s.Alive i →
        m.header.lookup Constant.name = some (s.name i) → s.heap.root a = s.root i := by
      rw [sent] at hm
      rcases List.mem_append.mp hm with hm | hm
      · exact hs.about m hm hp
      · obtain ⟨i, a, hi, ha, hlt, hname, hr⟩ := new m hm
        refine ⟨a, ha, hlt, fun j hj hname' => ?_⟩
        rw [hname, Option.some.injEq] at hname'
        rw [hs.single i j hi hj hname'.symm, hr]
    obtain ⟨a, ha, hlt, hroot⟩ := key
    refine ⟨a, ha, Nat.lt_of_lt_of_le hlt hg.size, fun i hi hname => ?_⟩
    rw [hg.root a hlt, root]
    exact hroot i (alive i hi) (name i (alive i hi) ▸ hname)
  · have hi := current i hi
    rw [name i (.inl hi), name j (alive j hj)] at he
    exact hs.single i j hi (alive j hj) he

theorem frame (hs : Titled s) (hcons : Consistent s) (hg : s.heap.Grows t.heap)
    (inst : t.inst = s.inst) (sub : t.trees ⊆ s.trees)
    (current : ∀ i, t.current = some i → s.current = some i) (sent : t.sent = s.sent) :
    Titled t :=
  hs.grow hcons hg inst (fun i hi => hi.imp (current i) fun h => List.map_subset _ sub h) current
    (l := []) (by rw [sent, List.append_nil]) fun m hm => absurd hm List.not_mem_nil

theorem start (hs : Titled s) (hcons : Consistent s) {i : InstId}
    (hi : i ∈ s.trees.map Prod.snd) : Titled ((Act.start i).apply s) := by
  have alive : ∀ j, ((Act.start i).apply s).Alive j → j ∈ s.trees.map Prod.snd := by
    rintro j (hj | hj)
    · cases hj
      exact hi
    · exact hj
  refine ⟨fun m hm hp => ?_, fun j k hj hk he => ?_⟩
  · obtain ⟨a, ha, hlt, hroot⟩ := hs.about m hm hp
    exact ⟨a, ha, hlt, fun j hj => hroot j (.inr (alive j hj))⟩
  · cases hj
    exact congrArg Prod.snd (List.inj_on_of_nodup_map hcons.keys (hcons.entry (alive k hk))
      (hcons.entry hi) he)

theorem submit (hs : Titled s) (hcons : Consistent s) (name : String) (l : Label)
    (ha : (Act.submit name l).Allowed hindered s)
    (current : ∀ i, s.current = some i → s.name i ≠ name)
    (unworked : ∀ m ∈ s.sent, m.places = true → m.header.lookup Constant.name ≠ some name) :
    Titled ((Act.submit name l).apply s) := by
  have hg : s.heap.Grows ((Act.submit name l).apply s).heap := Heap.addRoot_grows l
  have root : ∀ i, i < s.nextInst → ((Act.submit name l).apply s).root i = s.root i := fun i hi => by
    simp [Act.apply, State.submit, State.root, Nat.ne_of_lt hi]
  have newName : ((Act.submit name l).apply s).name s.nextInst = name := by
    have hname : l.name = name := ha.2
    simp [State.name, State.root, Act.apply, State.submit, Heap.addRoot, hname]
  have alive : ∀ i, ((Act.submit name l).apply s).Alive i → s.Alive i ∨ i = s.nextInst := by
    rintro i (hi | hi)
    · exact .inl (.inl hi)
    · obtain ⟨e, he, rfl⟩ := List.mem_map.mp hi
      rcases Consistent.mem_submit he with rfl | he
      · exact .inr rfl
      · exact .inl (.inr (List.mem_map_of_mem he))
  refine ⟨fun m hm hp => ?_, fun i j hi hj he => ?_⟩
  · obtain ⟨a, hab, hlt, hroot⟩ := hs.about m hm hp
    refine ⟨a, hab, Nat.lt_of_lt_of_le hlt hg.size, fun i hi hname => ?_⟩
    rcases alive i hi with hi | rfl
    · have hi' := hcons.alive_lt hi
      rw [hg.root a hlt, root i hi']
      exact hroot i hi (hcons.name_act _ ha hi' ▸ hname)
    · rw [newName] at hname
      exact absurd hname (unworked m hm hp)
  · have hi' : s.current = some i := hi
    rw [hcons.name_act _ ha (hcons.current i hi')] at he
    rcases alive j hj with hj | rfl
    · rw [hcons.name_act _ ha (hcons.alive_lt hj)] at he
      exact hs.single i j hi' hj he
    · rw [newName] at he
      exact absurd he.symm (current i hi')

theorem act (hs : Titled s) (hcons : Consistent s) (a : Act) (ha : a.Allowed hindered s)
    (unworked : ∀ name l, a = .submit name l → (∀ i, s.current = some i → s.name i ≠ name) ∧
      ∀ m ∈ s.sent, m.places = true → m.header.lookup Constant.name ≠ some name) :
    Titled (a.apply s) := by
  have hg : s.heap.Grows (a.apply s).heap := hcons.seated.grows a ha.1
  cases a with
  | solve x n message =>
    obtain ⟨⟨_, hlisted, hm⟩, i, hi, rfl⟩ := ha
    refine hs.grow hcons hg rfl (fun _ h => h) (fun _ h => h) (l := message.toList) rfl
      fun m' hm' => ?_
    have hmes := hm m' (Option.mem_toList.mp hm')
    have hroot := hcons.root_root (hcons.current i hi)
    exact ⟨i, s.root i, hi, hmes.about, hlisted.1, by rw [hmes.name, hroot]; rfl, hroot⟩
  | move x n message =>
    obtain ⟨⟨hlisted, b, hb, hmes⟩, i, hi, hr, hall⟩ := ha
    refine hs.grow hcons hg rfl (fun _ h => h) (fun _ h => h) (l := [message]) rfl fun m' hm' => ?_
    obtain rfl := List.mem_singleton.mp hm'
    exact ⟨i, n, hi, hmes.about, hlisted.1, by rw [hmes.name, hall b hb]; rfl, hr⟩
  | start i => exact hs.start hcons ha.2.2.1
  | conclude i shown =>
    refine hs.frame hcons hg rfl ?_ (fun j hj => absurd hj.symm (Option.some_ne_none j)) rfl
    cases shown with
    | false => exact List.Subset.refl _
    | true => exact List.filter_sublist.subset
  | drop name => exact hs.frame hcons hg rfl List.filter_sublist.subset (fun _ h => h) rfl
  | submit name l => exact hs.submit hcons name l ha (unworked name l rfl).1 (unworked name l rfl).2
  | _ => exact hs.frame hcons hg rfl (List.Subset.refl _) (fun _ h => h) rfl

theorem init (env : Env) (config : Config) : Titled (State.init env config) :=
  ⟨fun _ hm => absurd hm List.not_mem_nil, fun i _ h => absurd h.symm (Option.some_ne_none i)⟩

theorem step (hs : Titled s) (hcons : Consistent s) (unworked : ev.Unworked s)
    (h : Step s ev t) : Titled t := by
  have hpath : Path (Act.Caused True ev s) s t := h.path hcons (.inl trivial)
  have key : Titled t ∧ Consistent t := hpath.invariant
    (I := fun u => Titled u ∧ Consistent u)
    (fun _ _ hq hu => ⟨hu.1.quiet hq, hu.2.quiet hq⟩)
    (fun a u ha hu => by
      refine ⟨hu.1.act hu.2 a ha.1 fun name l he => ?_, hu.2.act a ha.1⟩
      subst he
      obtain ⟨rfl, hsub⟩ := ha.2
      exact unworked name hsub) ⟨hs, hcons⟩
  exact key.1

end Titled

/-- `Solver.read` changes the status of a node only where it writes one. -/
theorem Seated.writes_of_status (hs : Seated s) {x : SockId} (hx : s.kind x = .solver)
    {header : Header} {payload : Payload} {k : NodeId} (hk : k < s.heap.size)
    (hne : (Solver.read x header payload s).2.heap.status k ≠ s.heap.status k) :
    ∃ n status, s.Writes x header n status := by
  have reply : ∀ o t, (s.solver x).orWaiting.getLast? = some o →
      Quiet ((Act.reply x o (payload.map Solver.pieces)).apply s) t →
      t.heap.status k = s.heap.status k := by
    intro o t ho ht
    obtain ⟨hlt, hor, _⟩ := hs.getLast_lt ho
    rw [ht.heap.status]
    exact congrArg Attrs.status (Heap.reply_attrs hlt hor _ hk)
  have key : Prog.wp (Solver.read x header payload)
      (fun _ t => t.heap.status k ≠ s.heap.status k → ∃ n status, s.Writes x header n status)
      (fun _ t => t.heap.status k ≠ s.heap.status k → ∃ n status, s.Writes x header n status) s :=
    Solver.wp_read (fun r t ht _ h => absurd (ht.heap.status k) h)
      (fun n status r t hm hrep _ _ _ => ⟨n, status, hx, hm, hrep⟩)
      (fun n o r t _ _ ho ht _ h => absurd (reply o t ho ht) h)
      (fun n o e t _ _ ho ht _ h => absurd (reply o t ho ht) h)
  exact Prog.wp_final (P := fun (t : State) => t.heap.status k ≠ s.heap.status k →
    ∃ n status, s.Writes x header n status) key hne

/-- A report that makes `Solver.read` write a status was made for a command about the
current submission, and the node is one of its tree. -/
def State.Attributed (s : State) : Prop :=
  ∀ x header payload n status, (Event.message x header payload).ready s →
    s.Writes x header n status → ∀ m ∈ s.sent, m.Prompts x header →
      ∃ i a, s.current = some i ∧ s.heap.root n = s.root i ∧ m.about = some a ∧
        s.heap.root a = s.root i

/-- As long as no name is used again after a solver has got a command about it, verdicts
are attributed to the right submission.  `Solver.read` changes no status where it writes none. -/
theorem verdicts_attributed {env : Env} {config : Config} {s : State}
    (h : Turns (fun s ev => ev.Unworked s) (State.init env config) s) :
    s.Attributed ∧ ∀ x header payload k, s.kind x = .solver → k < s.heap.size →
      (Solver.read x header payload s).2.heap.status k ≠ s.heap.status k →
      ∃ n status, s.Writes x header n status := by
  have key : Titled s ∧ Consistent s := h.invariant (I := fun s => Titled s ∧ Consistent s)
    (fun s ev t hs hG hstep => ⟨hs.1.step hs.2 hG hstep, hs.2.step hstep⟩)
    ⟨.init env config, .init env config⟩
  obtain ⟨hs, hcons⟩ := key
  refine ⟨?_, fun x header payload k hx => hcons.seated.writes_of_status hx⟩
  intro x header payload n status ready ⟨hkind, hmat, _⟩ m hm ⟨_, hplaces, hname, _⟩
  obtain ⟨i, hi, hr⟩ := hcons.here x n (.inl ⟨ready.1, hkind⟩) hmat.node
  obtain ⟨a, ha, _, hroot⟩ := hs.about m hm hplaces
  refine ⟨i, a, hi, hr, ha, hroot i (.inl hi) ?_⟩
  rw [hname, hmat.name, hr]
  rfl

instance (s : State) (ev : Event) : Decidable (ev.Unworked s) :=
  decidable_of_iff (∀ name ∈ ev.submitted s, (∀ i ∈ s.current, s.name i ≠ name) ∧
      ∀ m ∈ s.sent, m.places = true → m.header.lookup Constant.name ≠ some name) <| by
    simp only [Event.mem_submitted]
    exact Iff.rfl

instance (m : Sent) (x : SockId) (header : Header) : Decidable (m.Prompts x header) :=
  inferInstanceAs (Decidable (_ ∧ _ ∧ _ ∧ _))

instance (s : State) (x : SockId) (header : Header) (n : NodeId) (status : SolveStatus) :
    Decidable (s.Writes x header n status) := inferInstanceAs (Decidable (_ ∧ _ ∧ _))

/-- The header of a report about the root of `a.smt2`. -/
def verdict (status : String) : Header :=
  [(Constant.report, status), (Constant.name, "a.smt2"), (Constant.node, "[]")]

theorem verdicts_attributed_once :
    ∃ s, oneInstance.foldlM (guarded (State.turn 1) fun s ev => ev.Unworked s)
        (State.init Env.steady {}) = some s ∧
      (Event.message 2 (verdict "unsat") (some "")).ready s ∧
      s.Writes 2 (verdict "unsat") 0 .unsat ∧ (∃ m ∈ s.sent, m.Prompts 2 (verdict "unsat")) ∧
      s.Attributed ∧ ∃ n status, s.Writes 2 (verdict "unsat") n status := by
  obtain ⟨s, h, ready, writes, prompts, hlt, changed⟩ := exists_of_any
    (o := oneInstance.foldlM (guarded (State.turn 1) fun s ev => ev.Unworked s)
      (State.init Env.steady {}))
    (P := fun s => (Event.message 2 (verdict "unsat") (some "")).ready s ∧
      s.Writes 2 (verdict "unsat") 0 .unsat ∧ (∃ m ∈ s.sent, m.Prompts 2 (verdict "unsat")) ∧
      0 < s.heap.size ∧ (Solver.read 2 (verdict "unsat") (some "") s).2.heap.status 0 ≠
        s.heap.status 0) (by decide +kernel)
  obtain ⟨attributed, written⟩ := verdicts_attributed (.of_run (.of_script h))
  exact ⟨s, h, ready, writes, prompts, attributed, written 2 _ _ 0 writes.1 hlt changed⟩

/-- The time for `a.smt2` is up, and another instance of this name is submitted. -/
def resubmitted : List Event :=
  oneInstance ++ [.timeout, .message 3 [(Constant.command, Constant.solve),
    (Constant.name, "a.smt2")] (some "(assert false)")]

theorem State.not_attributed (status : SolveStatus) {x : SockId} {header : Header}
    {payload : Payload} {n a : NodeId} {i : InstId} (ready : (Event.message x header payload).ready s)
    (writes : s.Writes x header n status) (current : s.current = some i)
    (stale : ∃ m ∈ s.sent, m.Prompts x header ∧ m.about = some a) (root : s.heap.root a ≠ s.root i) :
    ¬ s.Attributed := by
  intro h
  obtain ⟨m, hm, hp, ha⟩ := stale
  obtain ⟨j, b, hj, _, hb, hr⟩ := h x header payload n status ready writes m hm hp
  rw [current, Option.some.injEq] at hj
  rw [ha, Option.some.injEq] at hb
  exact root (hb ▸ hj ▸ hr)

theorem verdicts_stale :
    ∃ s, Turns (fun _ _ => True)
        (State.init Env.steady { solvingTimeout := some (second / 2) }) s ∧
      s.verdicts = [0] ∧ s.current = some 1 ∧ s.root 1 = 1 ∧
      (Event.message 2 (verdict "unsat") (some "")).ready s ∧
      s.Writes 2 (verdict "unsat") 1 .unsat ∧
      (∃ m ∈ s.sent, m.Prompts 2 (verdict "unsat") ∧ m.about = some 0) ∧ ¬ s.Attributed := by
  obtain ⟨s, h, verdicts, current, root, ready, writes, stale, other⟩ := exists_of_any
    (o := resubmitted.foldlM (guarded (State.turn 1) fun _ _ => True)
      (State.init Env.steady { solvingTimeout := some (second / 2) }))
    (P := fun s => s.verdicts = [0] ∧ s.current = some 1 ∧ s.root 1 = 1 ∧
      (Event.message 2 (verdict "unsat") (some "")).ready s ∧
      s.Writes 2 (verdict "unsat") 1 .unsat ∧
      (∃ m ∈ s.sent, m.Prompts 2 (verdict "unsat") ∧ m.about = some 0) ∧
      s.heap.root 0 ≠ s.root 1) (by decide +kernel)
  exact ⟨s, .of_run (.of_script h), verdicts, current, root, ready, writes, stale,
    State.not_attributed .unsat ready writes current stale other⟩

end Smts.Server
