import Smts.Server.Attribution
import Smts.Server.Intake
import Smts.Server.Scripts

namespace Smts.Server

open Smts.Lib Smts.Lib.Prog

namespace Heap

variable {h g : Heap} {a n r : NodeId}

theorem Grows.path (hg : h.Grows g) (hn : n < h.size) (ha : h.Attached n) :
    g.path n = h.path n := by
  induction n using Nat.strongRecOn with
  | ind n ih =>
    cases hp : h.parent n with
    | none =>
      have hgp : g.parent n = none := (hg.parent n hn).trans hp
      rw [path_none (truthyParent_of_none hp), path_none (truthyParent_of_none hgp)]
    | some p =>
      have hlt := h.parent_lt hp
      have hc := ha.mem_of_parent hp
      have hgc := (hg.children p).subset hc
      obtain ⟨new, hnew⟩ := hg.children p
      rw [path_child hc, path_child hgc, ih p hlt (Nat.lt_trans hlt hn) (ha.parent hp), ← hnew,
        List.idxOf_append_of_mem hc]

theorem Listed.root_lt (hn : h.Listed n) : h.root n < h.size :=
  Nat.lt_of_le_of_lt (Forest.Reaches.le hn.2.2) hn.1

/-- The scripts of the tree can be read line by line: an SMT tree whose texts contain no push and
no pop. -/
structure Readable (h : Heap) (r : NodeId) : Prop where
  smt : (h.label r).cls = .smt
  plain : h.PlainTree r

theorem Grows.readable (hg : h.Grows g) (hr : r < h.size) (hp : g.Readable r) : h.Readable r :=
  ⟨by rw [← hg.label r hr]; exact hp.smt, hg.plainTree hp.plain⟩

namespace Persists

theorem isAnd (hg : h.Persists g) (hn : n < h.size) : g.isAnd n = h.isAnd n := by
  rw [Heap.isAnd, Heap.isAnd, Heap.isOr, Heap.isOr, hg.label n hn]

theorem lineage (hg : h.Persists g) (hn : n < h.size) : g.lineage n = h.lineage n :=
  Forest.lineage_congr fun m hm => hg.evolves.parent m (Nat.lt_of_le_of_lt hm hn)

theorem stack (hg : h.Persists g) (hn : n < h.size) : g.stack n = h.stack n := by
  have hlt : ∀ m ∈ h.lineage n, m < h.size :=
    fun m hm => Nat.lt_of_le_of_lt (Forest.le_of_mem_lineage hm) hn
  have hands : g.ands n = h.ands n := by
    rw [Heap.ands, Heap.ands, hg.lineage hn]
    exact List.filter_congr fun m hm => hg.isAnd (hlt m hm)
  rw [Heap.stack, Heap.stack, hands]
  refine congrArg Stack.ofFrames (List.map_congr_left fun m hm => ?_)
  rw [Heap.frame, Heap.frame, hg.label m (hlt m (List.mem_filter.mp hm).1)]

theorem listed (hg : h.Persists g) (hn : n < h.size) (hl : g.Listed n) : h.Listed n :=
  ⟨hn, (hg.isAnd hn).symm.trans hl.2.1, (hg.evolves.path_kept hn hl.2.2).1⟩

theorem plainTree (hg : h.Persists g) (hp : g.PlainTree r) : h.PlainTree r := fun m hm hroot => by
  rw [← hg.label m hm]
  exact hp m (Nat.lt_of_lt_of_le hm hg.evolves.size) ((hg.root hm).trans hroot)

theorem readable (hg : h.Persists g) (hr : r < h.size) (hp : g.Readable r) : h.Readable r :=
  ⟨by rw [← hg.label r hr]; exact hp.smt, hg.plainTree hp.plain⟩

end Persists

end Heap

/-- The message is about an AND node of a tree, and it has the name of this tree. -/
structure Sent.Names (m : Sent) (h : Heap) (n : NodeId) : Prop where
  about : m.about = some n
  listed : h.Listed n
  name : m.header.lookup Constant.name = some (h.label (h.root n)).name

/-- The keys that the client reads of every event. -/
def Sent.keyed (m : Sent) : Bool :=
  m.header.has Constant.name && m.header.has Constant.node && m.header.has Constant.query

/-- A client on the first node, if on any, can follow the message, which takes it to the second
one. -/
inductive Heap.Suits (h : Heap) : Option NodeId → Sent → Option NodeId → Prop
  | solve {m : Sent} {n : NodeId} (command : m.header.lookup Constant.command = some Constant.solve)
      (keyed : m.keyed = true) (names : m.Names h n)
      (node : m.header.lookup Constant.node = some (render (h.path n)))
      (script : h.Readable (h.root n) → Stack.empty.exec (interpret m.payload) = some (h.stack n)) :
      Suits h none m (some n)
  | move {m : Sent} {a n : NodeId}
      (command : m.header.lookup Constant.command = some Constant.incremental)
      (keyed : m.keyed = true) (names : m.Names h n)
      (node_ : m.header.lookup Constant.node_ = some (render (h.path n)))
      (same : (h.label (h.root n)).name = (h.label (h.root a)).name)
      (script : h.Readable (h.root a) → h.root n = h.root a ∧
        (h.stack a).exec (interpret m.payload) = some (h.stack n)) : Suits h (some a) m (some n)
  | ask {m : Sent} {a : NodeId}
      (command : m.header.lookup Constant.command = some Constant.partition)
      (keyed : m.keyed = true) (names : m.Names h a)
      (node : m.header.lookup Constant.node = some (render (h.path a)))
      (payload : m.payload = "") : Suits h (some a) m (some a)
  | stop {m : Sent} {a : NodeId}
      (command : m.header.lookup Constant.command = some Constant.stop) : Suits h (some a) m none
  | other {m : Sent} {st : Option NodeId} (calm : m.steers = false) : Suits h st m st

/-- These messages suit a client, one after the other, and leave it on this node.  Where `lossy`
holds, a `solve` may be missing. -/
inductive Heap.Stands (h : Heap) (lossy : Prop) : List Sent → Option NodeId → Prop
  | start : Stands h lossy [] none
  | next {l : List Sent} {m : Sent} {st st' : Option NodeId} (before : Stands h lossy l st)
      (suits : h.Suits st m st') : Stands h lossy (l ++ [m]) st'
  | lost {l : List Sent} {n : NodeId} (may : lossy) (listed : h.Listed n)
      (before : Stands h lossy l none) : Stands h lossy l (some n)

section Stands

variable {h g : Heap} {a n : NodeId} {st st' : Option NodeId} {l : List Sent} {m : Sent}
  {lossy lossy' : Prop}

theorem Sent.Names.grow (hm : m.Names h n) (hg : h.Grows g) : m.Names g n where
  about := hm.about
  listed := hg.listed hm.listed
  name := by rw [hg.root n hm.listed.1, hg.label _ hm.listed.root_lt]; exact hm.name

theorem Heap.Suits.listed (hs : h.Suits st m (some n)) (hst : ∀ a, st = some a → h.Listed a) :
    h.Listed n := by
  cases hs with
  | solve command keyed names => exact names.listed
  | move command keyed names => exact names.listed
  | ask command keyed names => exact names.listed
  | other calm => exact hst n rfl

theorem Heap.Stands.listed (hs : h.Stands lossy l st) : ∀ a, st = some a → h.Listed a := by
  induction hs with
  | start => exact fun a ha => nomatch ha
  | next _ suits ih =>
    rintro a rfl
    exact suits.listed ih
  | lost _ listed =>
    intro a ha
    cases ha
    exact listed

theorem Heap.Suits.grow (hs : h.Suits st m st') (hg : h.Grows g)
    (hst : ∀ a, st = some a → h.Listed a) : g.Suits st m st' := by
  cases hs with
  | solve command keyed names node script =>
    rename_i n
    have hn := names.listed
    refine .solve command keyed (names.grow hg) (by rw [hg.path hn.1 hn.2.2]; exact node)
      fun hr => ?_
    rw [hg.root n hn.1] at hr
    rw [hg.stack hn.1]
    exact script (hg.readable hn.root_lt hr)
  | move command keyed names node_ same script =>
    rename_i a n
    have hn := names.listed
    have ha := hst a rfl
    refine .move command keyed (names.grow hg) (by rw [hg.path hn.1 hn.2.2]; exact node_) ?_
      fun hr => ?_
    · rw [hg.root n hn.1, hg.root a ha.1, hg.label _ hn.root_lt, hg.label _ ha.root_lt]
      exact same
    rw [hg.root a ha.1] at hr ⊢
    rw [hg.root n hn.1, hg.stack hn.1, hg.stack ha.1]
    exact script (hg.readable ha.root_lt hr)
  | ask command keyed names node payload =>
    have ha := names.listed
    exact .ask command keyed (names.grow hg) (by rw [hg.path ha.1 ha.2.2]; exact node) payload
  | stop command => exact .stop command
  | other calm => exact .other calm

theorem Heap.Stands.before (hs : h.Stands lossy (l ++ [m]) st') :
    ∃ st st', h.Stands lossy l st ∧ h.Suits st m st' := by
  generalize hk : l ++ [m] = k at hs
  induction hs with
  | start => exact absurd hk (List.append_ne_nil_of_right_ne_nil l (List.cons_ne_nil m []))
  | next before suits =>
    obtain ⟨rfl, hm⟩ := List.append_inj' hk rfl
    cases hm
    exact ⟨_, _, before, suits⟩
  | lost _ _ _ ih => exact ih hk

theorem Heap.Stands.take (hs : h.Stands lossy l st) (k : Nat) :
    ∃ st, h.Stands lossy (l.take k) st := by
  induction hs with
  | start => exact ⟨none, by rw [List.take_nil]; exact .start⟩
  | @next l m _ _ before suits ih =>
    rcases Nat.lt_or_ge l.length k with hlt | hge
    · rw [List.take_of_length_le (by rw [List.length_append, List.length_singleton]; omega)]
      exact ⟨_, .next before suits⟩
    · rw [List.take_append_of_le_length hge]
      exact ih
  | lost _ _ _ ih => exact ih

/-- What suited a client goes on doing so while the trees grow. -/
theorem Heap.Stands.grow (hs : h.Stands lossy l st) (hg : h.Grows g) : g.Stands lossy l st := by
  induction hs with
  | start => exact .start
  | next before suits ih => exact .next ih (suits.grow hg before.listed)
  | lost may listed _ ih => exact .lost may (hg.listed listed) ih

theorem Heap.Stands.mono (hs : h.Stands lossy l st) (hl : lossy → lossy') :
    h.Stands lossy' l st := by
  induction hs with
  | start => exact .start
  | next _ suits ih => exact .next ih suits
  | lost may listed _ ih => exact .lost (hl may) listed ih

/-- Messages that steer no client. -/
theorem Heap.Stands.calm (hs : h.Stands lossy l st) {k : List Sent}
    (hk : ∀ m ∈ k, m.steers = false) : h.Stands lossy (l ++ k) st := by
  induction k generalizing l with
  | nil => rwa [List.append_nil]
  | cons m k ih =>
    rw [List.forall_mem_cons] at hk
    rw [← List.singleton_append, ← List.append_assoc]
    exact ih (.next hs (.other hk.1)) hk.2

end Stands

/-- The node that a client is on after a message. -/
def Sent.lands (m : Sent) (st : Option NodeId) : Option NodeId :=
  if m.places then m.about
  else if m.header.lookup Constant.command = some Constant.stop then none
  else st

/-- The node that a client is on once it has read these messages too. -/
def landed (st : Option NodeId) (l : List Sent) : Option NodeId :=
  l.foldl (fun st m => m.lands st) st

/-- The node that a client is on once it has read these messages. -/
def standing (l : List Sent) : Option NodeId := landed none l

/-- The client has got a command to work since the last `stop`. -/
def engaged (l : List Sent) : Bool :=
  l.foldl (fun b m => if m.steers then m.header.lookup Constant.command ≠ some Constant.stop else b)
    false

section Standing

variable {h : Heap} {st st' : Option NodeId} {l k : List Sent} {m : Sent} {lossy : Prop} {a : NodeId}

theorem landed_append : landed st (l ++ k) = landed (landed st l) k := List.foldl_append

theorem landed_singleton : landed st [m] = m.lands st := rfl

theorem Sent.lands_calm (calm : m.steers = false) : m.lands st = st := by
  simp only [Sent.steers, Bool.or_eq_false_iff, decide_eq_false_iff_not] at calm
  rw [Sent.lands, if_neg (by simp [calm.1.1]), if_neg calm.1.2]

theorem landed_calm (calm : ∀ m ∈ l, m.steers = false) : landed st l = st := by
  induction l with
  | nil => rfl
  | cons m l ih =>
    rw [List.forall_mem_cons] at calm
    rw [← List.singleton_append, landed_append, landed_singleton, Sent.lands_calm calm.1]
    exact ih calm.2

theorem standing_concat : standing (l ++ [m]) = m.lands (standing l) := landed_append

theorem engaged_concat : engaged (l ++ [m]) =
    if m.steers then decide (m.header.lookup Constant.command ≠ some Constant.stop)
    else engaged l := by
  rw [engaged, List.foldl_append]
  rfl

theorem Sent.lands_command (hc : m.header.lookup Constant.command = some Constant.stop) :
    m.lands st = none := by
  rw [Sent.lands, if_neg (by simp [Sent.places, hc, Constant.stop, Constant.solve,
    Constant.incremental]), if_pos hc]

namespace Heap

theorem Suits.lands (hs : h.Suits st m st') : m.lands st = st' := by
  cases hs with
  | solve command keyed names => rw [Sent.lands, if_pos (by simp [Sent.places, command]), names.about]
  | move command keyed names => rw [Sent.lands, if_pos (by simp [Sent.places, command]), names.about]
  | ask command =>
    rw [Sent.lands, if_neg (by simp [Sent.places, command, Constant.partition, Constant.solve,
      Constant.incremental]), if_neg (by simp [command, Constant.partition, Constant.stop])]
  | stop command => exact Sent.lands_command command
  | other calm => exact Sent.lands_calm calm

/-- A client that does not know of its node lands on the same one, unless it is only asked for
partitions. -/
theorem Suits.lands_none (hs : h.Suits st m st') : m.lands none = st' ∨ m.lands none = none := by
  cases hs with
  | solve command keyed names =>
    exact .inl (by rw [Sent.lands, if_pos (by simp [Sent.places, command]), names.about])
  | move command keyed names =>
    exact .inl (by rw [Sent.lands, if_pos (by simp [Sent.places, command]), names.about])
  | ask command =>
    refine .inr ?_
    rw [Sent.lands, if_neg (by simp [Sent.places, command, Constant.partition, Constant.solve,
      Constant.incremental]), if_neg (by simp [command, Constant.partition, Constant.stop])]
  | stop command => exact .inl (Sent.lands_command command)
  | other calm => exact .inr (Sent.lands_calm calm)

/-- The client is on the node that it is taken to be on, or on none. -/
theorem Stands.standing (hs : h.Stands lossy l st) :
    Server.standing l = st ∨ lossy ∧ Server.standing l = none := by
  induction hs with
  | start => exact .inl rfl
  | next _ suits ih =>
    rw [standing_concat]
    rcases ih with ih | ⟨may, ih⟩
    · exact .inl (ih ▸ suits.lands)
    · rw [ih]
      exact suits.lands_none.imp_right fun hs => ⟨may, hs⟩
  | lost may _ _ ih => exact .inr ⟨may, ih.elim id And.right⟩

theorem Suits.engaged (hs : h.Suits st m st') : Server.engaged (l ++ [m]) =
    if m.steers then st'.isSome else Server.engaged l := by
  rw [engaged_concat]
  cases hs with
  | solve command | move command | ask command =>
    simp [Sent.steers, Sent.places, command, Constant.solve, Constant.incremental,
      Constant.partition, Constant.stop]
  | stop command => simp [command]
  | other calm => rw [calm]; rfl

/-- A client that is taken to be on no node has nothing to do. -/
theorem Stands.idle (hs : h.Stands lossy l none) : Server.engaged l = false := by
  generalize hst : none = st at hs
  induction hs with
  | start => rfl
  | next before suits ih =>
    subst hst
    rw [suits.engaged]
    split
    · rfl
    · next calm =>
      cases suits with
      | stop command => exact absurd (by simp [Sent.steers, command]) calm
      | other => exact ih rfl
  | lost => cases hst

/-- A client that has nothing to do may as well be taken to be on no node. -/
theorem Stands.none (hs : h.Stands lossy l st) (idle : Server.engaged l = false) :
    h.Stands lossy l none := by
  induction hs with
  | start => exact .start
  | next before suits ih =>
    rw [suits.engaged] at idle
    cases suits with
    | solve command | move command | ask command =>
      simp [Sent.steers, Sent.places, command] at idle
    | stop command => exact .next before (.stop command)
    | other calm =>
      rw [calm] at idle
      exact .next (ih idle) (.other calm)
  | lost _ _ before => exact before

/-- A client that has something to do was told of the node it is taken to be on. -/
theorem Stands.told (hs : h.Stands lossy l (some a)) (busy : Server.engaged l = true) :
    ∃ m ∈ l, m.header.lookup Constant.name = some (h.label (h.root a)).name ∧
      (m.header.lookup Constant.node = some (render (h.path a)) ∨
        m.header.lookup Constant.node_ = some (render (h.path a))) := by
  generalize hst : some a = st at hs
  induction hs with
  | start => cases hst
  | @next l m st st' before suits ih =>
    have own : m ∈ l ++ [m] := List.mem_append_right _ (List.mem_singleton_self m)
    rw [suits.engaged] at busy
    cases suits with
    | solve _ _ names node =>
      cases hst
      exact ⟨m, own, names.name, .inl node⟩
    | move _ _ names node_ =>
      cases hst
      exact ⟨m, own, names.name, .inr node_⟩
    | ask _ _ names node =>
      cases hst
      exact ⟨m, own, names.name, .inl node⟩
    | stop => cases hst
    | other calm =>
      rw [calm] at busy
      obtain ⟨m', hm', hrest⟩ := ih busy hst
      exact ⟨m', List.mem_append_left _ hm', hrest⟩
  | lost _ _ before => exact absurd before.idle (by simp [busy])

end Heap

end Standing

/-- The texts by which commands refer to the node are no longer than a header can hold. -/
def Heap.Short (h : Heap) (a : NodeId) : Prop :=
  (h.label (h.root a)).name.utf8ByteSize < 256 ∧ (render (h.path a)).utf8ByteSize < 256

theorem Header.short_of_lookup {header : Header} {payload k v : String}
    (fits : header.fits payload = true) (h : header.lookup k = some v) : v.utf8ByteSize < 256 := by
  have hmem : (k, v) ∈ header := by
    obtain ⟨l₁, l₂, rfl, -⟩ := List.lookup_eq_some_iff.mp h
    exact List.mem_append_right _ List.mem_cons_self
  rw [Header.fits, Bool.and_eq_true, List.all_eq_true] at fits
  have hentry := fits.1 _ hmem
  simp only [Bool.and_eq_true, decide_eq_true_eq] at hentry
  exact hentry.2

/-- A `stop` is not refused where the client has been told of the node. -/
theorem Heap.Stands.short {h : Heap} {l : List Sent} {a : NodeId} {lossy : Prop}
    (hs : h.Stands lossy l (some a)) (busy : engaged l = true) (fits : ∀ m ∈ l, m.fits = true) :
    h.Short a := by
  obtain ⟨m, hm, name, node⟩ := hs.told busy
  refine ⟨Header.short_of_lookup (fits m hm) name, ?_⟩
  exact node.elim (Header.short_of_lookup (fits m hm)) (Header.short_of_lookup (fits m hm))

theorem Solver.stopSent_fits {s : State} {x : SockId} {a : NodeId} (short : s.heap.Short a) :
    (Solver.stopSent s x a).fits = true := by
  obtain ⟨hname, hpath⟩ := short
  have command : Constant.command.utf8ByteSize = 7 := rfl
  have stop : Constant.stop.utf8ByteSize = 4 := rfl
  have name : Constant.name.utf8ByteSize = 4 := rfl
  have node : Constant.node.utf8ByteSize = 4 := rfl
  have keys : Constant.command ≠ "" ∧ Constant.name ≠ "" ∧ Constant.node ≠ "" := by decide
  simp [Sent.fits, Solver.stopSent, Header.fits, Solver.header, command, stop, name, node, keys,
    hname, hpath]
  omega

/-- What `solve` and `incremental` say about the node they are for. -/
structure Sent.Points (m : Sent) (h : Heap) (n : NodeId) : Prop extends m.Names h n where
  node : m.header.lookup Constant.command = some Constant.solve →
    m.header.lookup Constant.node = some (render (h.path n))
  node_ : m.header.lookup Constant.command = some Constant.incremental →
    m.header.lookup Constant.node_ = some (render (h.path n))
  script : m.header.lookup Constant.command = some Constant.solve → h.Readable (h.root n) →
    Stack.empty.exec (interpret m.payload) = some (h.stack n)

/-- All commands that put a solver on a node are right about it. -/
def State.Pointed (s : State) : Prop :=
  ∀ m ∈ s.sent, m.places = true → ∃ n, m.Points s.heap n

section Pointed

variable {s t : State} {ev : Event} {h g : Heap} {n : NodeId} {m : Sent}

theorem Sent.Points.grow (hm : m.Points h n) (hg : h.Grows g) : m.Points g n where
  toNames := hm.toNames.grow hg
  node hc := by rw [hg.path hm.listed.1 hm.listed.2.2]; exact hm.node hc
  node_ hc := by rw [hg.path hm.listed.1 hm.listed.2.2]; exact hm.node_ hc
  script hc hr := by
    rw [hg.root n hm.listed.1] at hr
    rw [hg.stack hm.listed.1]
    exact hm.script hc (hg.readable hm.listed.root_lt hr)

theorem Solver.SolveMessage.points {x : SockId} (hm : Solver.SolveMessage s x n m)
    (hn : s.heap.Listed n) : m.Points s.heap n where
  about := hm.about
  listed := hn
  name := hm.name
  node _ := hm.node
  node_ hc := absurd (hm.command.symm.trans hc) (by simp [Constant.solve, Constant.incremental])
  script _ hr := by
    obtain ⟨query, hscript⟩ := hm.script
    obtain ⟨script, hscript', hexec⟩ := exec_scratch hr.smt hr.plain hn rfl
    rw [hscript, Except.ok.injEq, Prod.mk.injEq] at hscript'
    rw [hscript'.1]
    exact hexec

theorem Solver.MoveMessage.points {x : SockId} {a : NodeId} (hm : Solver.MoveMessage s x a n m)
    (hn : s.heap.Listed n) (hr : s.heap.root n = s.heap.root a) : m.Points s.heap n where
  about := hm.about
  listed := hn
  name := by rw [hr]; exact hm.name
  node hc := absurd (hm.command.symm.trans hc) (by simp [Constant.solve, Constant.incremental])
  node_ _ := hm.node_
  script hc := absurd (hm.command.symm.trans hc) (by simp [Constant.solve, Constant.incremental])

theorem State.Pointed.grow (hs : s.Pointed) (hg : s.heap.Grows t.heap) {l : List Sent}
    (sent : t.sent = s.sent ++ l) (new : ∀ m ∈ l, m.places = true → ∃ n, m.Points s.heap n) :
    t.Pointed := by
  intro m hm hp
  rw [sent] at hm
  obtain ⟨n, hn⟩ := (List.mem_append.mp hm).elim (fun hm => hs m hm hp) fun hm => new m hm hp
  exact ⟨n, hn.grow hg⟩

theorem State.Pointed.quiet (h : Quiet s t) (hs : s.Pointed) : t.Pointed := by
  obtain ⟨l, hl, hq⟩ := h.sent
  exact hs.grow (.of_eq h.heap.forest h.heap.label) hl fun m hm hp => by
    rw [hq m hm] at hp
    cases hp

theorem State.Pointed.act (hs : s.Pointed) (hcons : Consistent s) (a : Act) {hindered : Prop}
    (ha : a.Allowed hindered s) : (a.apply s).Pointed := by
  have hg : s.heap.Grows (a.apply s).heap := hcons.seated.grows a ha.1
  have none {u : State} (hg : s.heap.Grows u.heap) (sent : u.sent = s.sent) : u.Pointed :=
    hs.grow hg (l := []) (by rw [sent, List.append_nil]) fun m hm => absurd hm List.not_mem_nil
  cases a with
  | solve x n message =>
    obtain ⟨_, hlisted, hm⟩ := ha.1
    refine hs.grow hg (l := message.toList) rfl fun m hmem _ => ⟨n, ?_⟩
    exact (hm m (Option.mem_toList.mp hmem)).points hlisted
  | move x n message =>
    obtain ⟨⟨hlisted, b, hb, hm⟩, i, _, hr, hall⟩ := ha
    refine hs.grow hg (l := [message]) rfl fun m hmem _ => ⟨n, ?_⟩
    obtain rfl := List.mem_singleton.mp hmem
    exact hm.points hlisted (hr.trans (hall b hb).symm)
  | _ => exact none hg rfl

theorem State.Pointed.init (env : Env) (config : Config) : (State.init env config).Pointed :=
  fun _ hm => absurd hm List.not_mem_nil

theorem State.Pointed.step (hs : s.Pointed) (hcons : Consistent s) (h : Step s ev t) :
    t.Pointed := by
  have hpath : Path (Act.Caused True ev s) s t := h.path hcons (.inl trivial)
  have key : t.Pointed ∧ Consistent t := hpath.invariant (I := fun u => u.Pointed ∧ Consistent u)
    (fun _ _ hq hu => ⟨hu.1.quiet hq, hu.2.quiet hq⟩)
    (fun a u ha hu => ⟨hu.1.act hu.2 a ha.1, hu.2.act a ha.1⟩) ⟨hs, hcons⟩
  exact key.1

end Pointed

/-- Commands with one name are about one tree. -/
structure Kin (s : State) : Prop where
  titled : Titled s
  root : ∀ m ∈ s.sent, ∀ m' ∈ s.sent, m.places = true → m'.places = true →
    m.header.lookup Constant.name = m'.header.lookup Constant.name →
    ∀ a a', m.about = some a → m'.about = some a' → s.heap.root a = s.heap.root a'

namespace Kin

variable {s t : State} {ev : Event}

theorem grow (hs : Kin s) (ht : Titled t) (hg : s.heap.Grows t.heap) {l : List Sent}
    (sent : t.sent = s.sent ++ l)
    (new : ∀ m ∈ l, m.places = true → ∃ i a, s.current = some i ∧ m.about = some a ∧
      a < s.heap.size ∧ m.header.lookup Constant.name = some (s.name i) ∧
      s.heap.root a = s.root i) : Kin t := by
  have lt : ∀ m ∈ t.sent, m.places = true → ∀ a, m.about = some a → a < s.heap.size := by
    intro m hm hp a ha
    rw [sent, List.mem_append] at hm
    rcases hm with hm | hm
    · obtain ⟨b, hb, hlt, _⟩ := hs.titled.about m hm hp
      rwa [Option.some.inj (ha.symm.trans hb)]
    · obtain ⟨_, b, _, hb, hlt, _⟩ := new m hm hp
      rwa [Option.some.inj (ha.symm.trans hb)]
  -- a new command and any other one
  have fresh : ∀ m ∈ l, ∀ m' ∈ t.sent, m.places = true → m'.places = true →
      m.header.lookup Constant.name = m'.header.lookup Constant.name →
      ∀ a a', m.about = some a → m'.about = some a' → s.heap.root a = s.heap.root a' := by
    intro m hm m' hm' hp hp' hname a a' ha ha'
    obtain ⟨i, b, hi, hb, _, hn, hr⟩ := new m hm hp
    rw [Option.some.inj (ha.symm.trans hb), hr]
    rw [sent, List.mem_append] at hm'
    rcases hm' with hm' | hm'
    · obtain ⟨b', hb', _, hall⟩ := hs.titled.about m' hm' hp'
      rw [Option.some.inj (ha'.symm.trans hb')]
      exact (hall i (.inl hi) (hname.symm.trans hn)).symm
    · obtain ⟨i', b', hi', hb', _, _, hr'⟩ := new m' hm' hp'
      rw [Option.some.inj (ha'.symm.trans hb'), hr', Option.some.inj (hi.symm.trans hi')]
  refine ⟨ht, fun m hm m' hm' hp hp' hname a a' ha ha' => ?_⟩
  rw [hg.root a (lt m hm hp a ha), hg.root a' (lt m' hm' hp' a' ha')]
  rcases List.mem_append.mp (sent ▸ hm) with hold | hnew
  · rcases List.mem_append.mp (sent ▸ hm') with hold' | hnew'
    · exact hs.root m hold m' hold' hp hp' hname a a' ha ha'
    · exact (fresh m' hnew' m hm hp' hp hname.symm a' a ha' ha).symm
  · exact fresh m hnew m' hm' hp hp' hname a a' ha ha'

theorem quiet (h : Quiet s t) (hs : Kin s) : Kin t := by
  obtain ⟨l, hl, hq⟩ := h.sent
  exact hs.grow (hs.titled.quiet h) (.of_eq h.heap.forest h.heap.label) hl fun m hm hp => by
    rw [hq m hm] at hp
    cases hp

theorem act (hs : Kin s) (hcons : Consistent s) (a : Act) {hindered : Prop}
    (ha : a.Allowed hindered s)
    (unworked : ∀ name l, a = .submit name l → (∀ i, s.current = some i → s.name i ≠ name) ∧
      ∀ m ∈ s.sent, m.places = true → m.header.lookup Constant.name ≠ some name) :
    Kin (a.apply s) := by
  have hg : s.heap.Grows (a.apply s).heap := hcons.seated.grows a ha.1
  have ht : Titled (a.apply s) := hs.titled.act hcons a ha unworked
  have same (sent : (a.apply s).sent = s.sent) : Kin (a.apply s) :=
    hs.grow ht hg (l := []) (by rw [sent, List.append_nil]) fun m hm => absurd hm List.not_mem_nil
  cases a with
  | solve x n message =>
    obtain ⟨⟨_, hlisted, hm⟩, i, hi, rfl⟩ := ha
    refine hs.grow ht hg (l := message.toList) rfl fun m' hm' _ => ?_
    have hmes := hm m' (Option.mem_toList.mp hm')
    have hroot := hcons.root_root (hcons.current i hi)
    exact ⟨i, s.root i, hi, hmes.about, hlisted.1, by rw [hmes.name, hroot]; rfl, hroot⟩
  | move x n message =>
    obtain ⟨⟨hlisted, b, hb, hmes⟩, i, hi, hr, hall⟩ := ha
    refine hs.grow ht hg (l := [message]) rfl fun m' hm' _ => ?_
    obtain rfl := List.mem_singleton.mp hm'
    exact ⟨i, n, hi, hmes.about, hlisted.1, by rw [hmes.name, hall b hb]; rfl, hr⟩
  | _ => exact same rfl

theorem init (env : Env) (config : Config) : Kin (State.init env config) :=
  ⟨.init env config, fun _ hm => absurd hm List.not_mem_nil⟩

theorem step (hs : Kin s) (hcons : Consistent s) (unworked : ev.Unworked s) (h : Step s ev t) :
    Kin t := by
  have hpath : Path (Act.Caused True ev s) s t := h.path hcons (.inl trivial)
  have key : Kin t ∧ Consistent t := hpath.invariant (I := fun u => Kin u ∧ Consistent u)
    (fun _ _ hq hu => ⟨hu.1.quiet hq, hu.2.quiet hq⟩)
    (fun a u ha hu => by
      refine ⟨hu.1.act hu.2 a ha.1 fun name l he => ?_, hu.2.act a ha.1⟩
      subst he
      obtain ⟨rfl, hsub⟩ := ha.2
      exact unworked name hsub) ⟨hs, hcons⟩
  exact key.1

end Kin

end Smts.Server
