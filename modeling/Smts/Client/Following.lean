import Smts.Client.Process
import Smts.Server.Soundness

namespace Smts.Client

open Smts.Lib
open Smts.Server (Header Payload SolveStatus NodeId Heap Verdict render interpret body)

variable {Model : Type} {sem : List String → Set Model}

/-- The stack of a node stands for its formula. -/
theorem models_stack {h : Heap} {n : NodeId} (hroot : h.isAnd (h.root n) = true) :
    (h.stack n).models sem = h.formula (fun text => sem (body text)) n := by
  have hne : (h.ands n).map h.frame ≠ [] := by simpa using Server.ands_ne_nil hroot
  ext v
  rw [Heap.stack, Stack.mem_models_ofFrames hne]
  simp only [List.forall_mem_map, Heap.ands, List.mem_filter, Heap.formula, Heap.frame,
    Set.mem_ofPred_eq, and_imp]

/-- The event takes a client from one node to another. -/
inductive Arrival.Leads (h : Heap) (r : NodeId) (a : Arrival) : NodeId → NodeId → Prop
  | partition {n : NodeId} (event : a.event = .partition) (still : a.body = "")
      (name : a.header.lookup Server.Constant.name = some (h.label r).name)
      (node : a.header.lookup Server.Constant.node = some (render (h.path n))) : Leads h r a n n
  | incremental {n n' : NodeId} (event : a.event = .incremental (h.path n'))
      (name : a.header.lookup Server.Constant.name = some (h.label r).name)
      (script : h.Readable r → (h.stack n).exec (interpret a.body) = some (h.stack n')) :
      Leads h r a n n'

/-- How many events have been executed. -/
def Communicator.executed (c : Communicator) : Nat :=
  match c.pc with
  | .submitting _ => c.tasks.length + 1
  | _ => c.tasks.length

/-- The place in the numbering of the nodes whose script is loaded. -/
def Communicator.base (c : Communicator) : Nat :=
  match c.tasks.getLast? with
  | some ⟨_, .submitted⟩ => c.tasks.length - 2
  | _ => c.tasks.length - 1

def Phase.answer : Phase → Option (Result × Branch)
  | .computed r b | .raised r b | .returned r b => some (r, b)
  | .submitted | .searching => none

/-- The result that the communicator is about to report. -/
def Communicator.InHandIs (c : Communicator) (i : Nat) (res : Result) : Prop :=
  c.pc = .reporting i res ∨ ∃ e, c.pc = .answering e i res

/-- What the communicator does where it neither executes an event nor submits a task. -/
structure Communicator.Turn (c d : Communicator) : Prop where
  tasks : d.tasks = c.tasks
  header : d.currentHeader = c.currentHeader
  events : d.pc.held ++ d.queue = c.pc.held ++ c.queue
  executed : d.executed = c.executed
  future : ∀ i, d.future = some i → c.future = some i
  hand : ∀ i res, d.InHandIs i res → c.future = some i
  reports : d.reports = c.reports ∨
    ∃ i res, c.InHandIs i res ∧ d.reports = c.reports ++ [⟨i, res, c.currentHeader⟩]

theorem Communicator.Turn.of_communicate {c d : Communicator} (h : c.communicate = some d)
    (hpc : (∀ e, c.pc ≠ .executing e) ∧ ∀ e, c.pc ≠ .submitting e) : c.Turn d := by
  unfold Communicator.communicate at h
  split at h
  case h_1 hw =>
    split at h
    · cases h
      constructor <;> simp [hw, Pc.held, Communicator.executed, InHandIs]
    · split at h
      · next e es hq =>
        cases h
        constructor <;> simp [hw, hq, Pc.held, Communicator.executed, InHandIs]
      · cases h
  case h_2 hw =>
    split at h
    · next i hi =>
      obtain ⟨res, _, rfl⟩ := Option.map_eq_some_iff.mp h
      constructor <;> simp [hw, hi, Pc.held, Communicator.executed, InHandIs]
    · cases h
      constructor <;> simp [hw, Pc.held, Communicator.executed, InHandIs]
  case h_3 i res hw =>
    cases h
    constructor <;> simp [hw, Pc.held, Communicator.executed, InHandIs, report]
  case h_4 e hw =>
    cases h
    constructor <;> simp [hw, Pc.held, Communicator.executed, InHandIs]
  case h_5 e hw =>
    split at h
    · next i hi =>
      obtain ⟨res, _, rfl⟩ := Option.map_eq_some_iff.mp h
      by_cases hu : res = .unknown
      all_goals constructor <;> simp [hw, hi, hu, Pc.held, Communicator.executed, InHandIs]
    · cases h
      constructor <;> simp [hw, Pc.held, Communicator.executed, InHandIs]
  case h_6 e i res hw =>
    cases h
    constructor <;> simp [hw, Pc.held, Communicator.executed, InHandIs, report]
  case h_7 e hw => exact absurd hw (hpc.1 e)
  case h_8 e hw => exact absurd hw (hpc.2 e)

theorem Communicator.base_eq {c : Communicator} (hc : c.Consistent) (hnone : c.future = none) :
    c.base = c.tasks.length - 1 := by
  unfold Communicator.base
  split
  · next e hlast =>
    rw [List.getLast?_eq_getElem?] at hlast
    obtain ⟨res, b, hp⟩ := hc.idle _ _ hlast fun he => nomatch hnone.symm.trans he
    cases hp
  · rfl

namespace Process

variable {p : Process} {undecided : Bool} {a : Arrival} {child : Child}

@[simp] theorem execute_received : (p.execute undecided a).received = p.received := by
  unfold execute kill fork
  repeat' split
  all_goals rfl

@[simp] theorem execute_stack : (p.execute undecided a).stack = p.stack := by
  unfold execute kill fork
  repeat' split
  all_goals rfl

theorem mem_children_execute (hc : some child ∈ (p.execute undecided a).children) :
    some child ∈ p.children ∨ a.event = .partition ∧ child = ⟨a.header, p.stack⟩ := by
  unfold execute at hc
  split at hc
  · unfold kill at hc
    split at hc
    · exact .inl ((List.mem_or_eq_of_mem_set hc).resolve_right (Option.some_ne_none child))
    · exact .inl hc
  · next he =>
    split at hc
    · rcases List.mem_append.mp hc with hc | hc
      · exact .inl hc
      · exact .inr ⟨he, Option.some.inj (List.mem_singleton.mp hc)⟩
    · exact .inl hc
  · exact .inl hc
  · exact .inl hc

end Process

/-- The client is where the events it has got take it, and what it knows is right.  `ns` are the
nodes of the events, all in the tree of `r`. -/
structure Process.Follows (sem : List String → Set Model) (h : Heap) (r : NodeId) (ns : List NodeId)
    (p : Process) : Prop where
  consistent : p.comm.Consistent
  nodes : ∀ n ∈ ns, h.Listed n ∧ h.root n = r
  length : ns.length = p.received.length
  first : ∃ a, p.received[0]? = some a ∧ a.event = .resume ∧ a.body = ""
  leads : ∀ j a n n', p.received[j + 1]? = some a → ns[j]? = some n → ns[j + 1]? = some n' →
    a.Leads h r n n'
  events : p.comm.tasks.map Task.event ++ p.comm.pc.held ++ p.comm.queue =
    p.received.map Arrival.event
  name : p.name = (h.label r).name
  header : ∀ n, ns[p.comm.executed - 1]? = some n → p.comm.currentHeader = h.path n
  future : ∀ i, p.comm.future = some i → i + 1 = p.comm.tasks.length
  hand : ∀ i res, p.comm.InHandIs i res → i + 1 = p.comm.tasks.length
  stack : h.Readable r → ∀ n, ns[p.comm.base]? = some n → p.stack = h.stack n
  answers : ∀ (i : Nat) (t : Task) n, p.comm.tasks[i]? = some t → ns[i]? = some n → ∀ res b,
    t.phase.answer = some (res, b) → b = h.path n ∧
      (h.Readable r → Verdict res.status ((h.stack n).models sem))
  children : ∀ child, some child ∈ p.children → ∃ n ∈ ns,
    child.header.lookup Server.Constant.name = some (h.label r).name ∧
    child.header.lookup Server.Constant.node = some (render (h.path n)) ∧
    (h.Readable r → child.stack = h.stack n)

/-- What a message to the server says is right about this node. -/
structure Vouched (sem : List String → Set Model) (h : Heap) (n : NodeId) (m : Header × Payload) :
    Prop where
  name : m.1.lookup Server.Constant.name = some (h.label (h.root n)).name
  node : m.1.lookup Server.Constant.node = some (render (h.path n))
  verdict : h.Readable (h.root n) → ∀ status : SolveStatus,
    m.1.lookup Server.Constant.report = some status.name →
    Verdict status ((h.stack n).models sem)
  cover : h.Readable (h.root n) →
    m.1.lookup Server.Constant.report = some Server.Constant.partitions →
    ∀ text, m.2 = some text → (h.stack n).models sem =
      { v | ∃ q ∈ Server.Solver.pieces text,
        v ∈ (h.stack n).models sem ∩ sem (body (Server.Solver.assertText q)) }

theorem Vouched.grow {h g : Heap} {n : NodeId} {m : Header × Payload} (hm : Vouched sem h n m)
    (hg : h.Grows g) (hn : h.Listed n) : Vouched sem g n m := by
  have readable (hr : g.Readable (g.root n)) : h.Readable (h.root n) := by
    rw [hg.root n hn.1] at hr
    exact hg.readable hn.root_lt hr
  refine ⟨?_, ?_, fun hr status hst => ?_, fun hr hst text htext => ?_⟩
  · rw [hg.root n hn.1, hg.label _ hn.root_lt]
    exact hm.name
  · rw [hg.path hn.1 hn.2.2]
    exact hm.node
  · rw [hg.stack hn.1]
    exact hm.verdict (readable hr) status hst
  · rw [hg.stack hn.1]
    exact hm.cover (readable hr) hst text htext

theorem Result.status_eq {res : Result} {status : SolveStatus} (h : res.text = status.name) :
    res.status = status := by
  cases res <;> cases status <;> simp [Result.text, SolveStatus.name] at h <;> rfl

namespace Process.Follows

variable {h g : Heap} {r : NodeId} {ns : List NodeId} {p q : Process}

theorem ne_nil (hf : p.Follows sem h r ns) : ns ≠ [] := by
  rintro rfl
  obtain ⟨a, ha, -⟩ := hf.first
  rw [List.length_eq_zero_iff.mp hf.length.symm] at ha
  cases ha

theorem start {name : String} {n : NodeId} {header : Header} {body : String}
    (hn : h.Listed n ∧ h.root n = r) (hname : name = (h.label r).name)
    (script : h.Readable r → Stack.empty.exec (interpret body) = some (h.stack n)) :
    Follows sem h r [n] (.start name (h.path n) header body) where
  consistent := Communicator.consistent_start _
  nodes m hm := by
    obtain rfl := List.mem_singleton.mp hm
    exact hn
  length := rfl
  first := ⟨_, rfl, rfl, rfl⟩
  leads j a n n' ha := by simp [Process.start] at ha
  events := rfl
  name := hname
  header m hm := by
    obtain rfl : n = m := Option.some.inj hm
    rfl
  future _ hf := nomatch hf
  hand i res hpc := by rcases hpc with hpc | ⟨e, hpc⟩ <;> cases hpc
  stack hr m hm := by
    obtain rfl : n = m := Option.some.inj hm
    exact Stack.run_of_exec (script hr)
  answers i t m ht := by simp [Process.start, Communicator.start] at ht
  children child hc := by simp [Process.start] at hc

/-- Another event comes in. -/
theorem receive {a : Arrival} {n n' : NodeId} (hf : Follows sem h r ns p)
    (hlast : ns.getLast? = some n)
    (hn' : h.Listed n' ∧ h.root n' = r) (ha : a.Leads h r n n') :
    Follows sem h r (ns ++ [n']) (p.receive a) := by
  have hpos : ns.length ≠ 0 := by
    intro h0
    rw [List.length_eq_zero_iff.mp h0] at hlast
    cases hlast
  have hevents := congrArg List.length hf.events
  simp only [List.length_append, List.length_map] at hevents
  -- the places in use are those of the old events
  have old {i : Nat} (hi : i < ns.length) : (ns ++ [n'])[i]? = ns[i]? :=
    List.getElem?_append_left hi
  constructor
  · exact hf.consistent.step (m := .receive a.event) rfl
  · intro m hm
    rcases List.mem_append.mp hm with hm | hm
    · exact hf.nodes m hm
    · obtain rfl := List.mem_singleton.mp hm
      exact hn'
  · simp [Process.receive, hf.length]
  · obtain ⟨b, hb, hrest⟩ := hf.first
    exact ⟨b, (List.getElem?_append_left (List.getElem?_eq_some_iff.mp hb).1).trans hb, hrest⟩
  · intro j b m m' hb hm hm'
    simp only [Process.receive] at hb
    rcases Nat.lt_or_ge (j + 1) p.received.length with hlt | hge
    · rw [List.getElem?_append_left hlt] at hb
      rw [← hf.length] at hlt
      rw [old (Nat.lt_of_succ_lt hlt)] at hm
      rw [old hlt] at hm'
      exact hf.leads j b m m' hb hm hm'
    · have hj : j + 1 = p.received.length := by
        have := (List.getElem?_eq_some_iff.mp hb).1
        rw [List.length_append, List.length_singleton] at this
        omega
      rw [List.getElem?_append_right hge, hj, Nat.sub_self] at hb
      obtain rfl : a = b := Option.some.inj hb
      have hj' : j + 1 = ns.length := hj.trans hf.length.symm
      rw [old (by omega)] at hm
      rw [List.getElem?_append_right (Nat.le_of_eq hj'.symm), hj', Nat.sub_self] at hm'
      obtain rfl : n' = m' := Option.some.inj hm'
      rw [List.getLast?_eq_getElem?, ← hj', Nat.add_sub_cancel] at hlast
      obtain rfl : n = m := Option.some.inj (hlast.symm.trans hm)
      exact ha
  · simp only [Process.receive, List.map_append, List.map_cons, List.map_nil, ← hf.events,
      List.append_assoc]
  · exact hf.name
  · intro m hm
    have hlt : p.comm.executed - 1 < ns.length := by
      have := hf.length
      unfold Communicator.executed
      split
      · next he =>
        simp only [he, Pc.held, List.length_cons, List.length_nil] at hevents
        omega
      · omega
    exact hf.header m ((old hlt).symm.trans hm)
  · exact hf.future
  · exact hf.hand
  · intro hr m hm
    have hlt : p.comm.base < ns.length := by
      have := hf.length
      unfold Communicator.base
      split <;> omega
    exact hf.stack hr m ((old hlt).symm.trans hm)
  · intro i t m ht hm
    have hlt : i < ns.length := by
      have := (List.getElem?_eq_some_iff.mp ht).1
      have := hf.length
      simp only [Process.receive] at *
      omega
    exact hf.answers i t m ht ((old hlt).symm.trans hm)
  · intro child hc
    obtain ⟨m, hm, hrest⟩ := hf.children child hc
    exact ⟨m, List.mem_append_left _ hm, hrest⟩

theorem root_lt (hf : Follows sem h r ns p) : r < h.size := by
  obtain ⟨a, ha, -⟩ := hf.first
  have hlen := hf.length
  cases ns with
  | nil => rw [List.length_eq_zero_iff.mp hlen.symm] at ha; cases ha
  | cons n ns =>
    obtain ⟨hn, hr⟩ := hf.nodes n List.mem_cons_self
    rw [← hr]
    exact hn.root_lt

/-- The trees grow meanwhile. -/
theorem grow (hf : Follows sem h r ns p) (hg : h.Grows g) : Follows sem g r ns p := by
  have hr := hf.root_lt
  have path {n : NodeId} (hn : n ∈ ns) : g.path n = h.path n :=
    hg.path (hf.nodes n hn).1.1 (hf.nodes n hn).1.2.2
  have stack {n : NodeId} (hn : n ∈ ns) : g.stack n = h.stack n := hg.stack (hf.nodes n hn).1.1
  have label : g.label r = h.label r := hg.label r hr
  constructor
  · exact hf.consistent
  · intro n hn
    obtain ⟨hl, hroot⟩ := hf.nodes n hn
    exact ⟨hg.listed hl, (hg.root n hl.1).trans hroot⟩
  · exact hf.length
  · exact hf.first
  · intro j a n n' ha hn hn'
    have hmem := List.mem_of_getElem? hn
    have hmem' := List.mem_of_getElem? hn'
    cases hf.leads j a n n' ha hn hn' with
    | partition event still name node =>
      exact .partition event still (by rw [label]; exact name) (by rw [path hmem]; exact node)
    | incremental event name script =>
      refine .incremental (by rw [path hmem']; exact event) (by rw [label]; exact name) fun hp => ?_
      rw [stack hmem, stack hmem']
      exact script (hg.readable hr hp)
  · exact hf.events
  · rw [label]
    exact hf.name
  · intro n hn
    rw [path (List.mem_of_getElem? hn)]
    exact hf.header n hn
  · exact hf.future
  · exact hf.hand
  · intro hp n hn
    rw [stack (List.mem_of_getElem? hn)]
    exact hf.stack (hg.readable hr hp) n hn
  · intro i t n ht hn res b hb
    rw [path (List.mem_of_getElem? hn), stack (List.mem_of_getElem? hn)]
    obtain ⟨hpath, hv⟩ := hf.answers i t n ht hn res b hb
    exact ⟨hpath, fun hp => hv (hg.readable hr hp)⟩
  · intro child hc
    obtain ⟨n, hn, hname, hnode, hstack⟩ := hf.children child hc
    refine ⟨n, hn, by rw [label]; exact hname, by rw [path hn]; exact hnode, fun hp => ?_⟩
    rw [stack hn]
    exact hstack (hg.readable hr hp)

theorem length_le (hf : Follows sem h r ns p) :
    p.comm.tasks.length + p.comm.pc.held.length ≤ ns.length := by
  have hevents := congrArg List.length hf.events
  simp only [List.length_append, List.length_map] at hevents
  have := hf.length
  omega

/-- The result in hand is right about the node that the header of the channel is for. -/
theorem inHand {i : Nat} {res : Result} (hf : Follows sem h r ns p) (hpc : p.comm.InHandIs i res) :
    ∃ n ∈ ns, Vouched sem h n (p.report ⟨i, res, p.comm.currentHeader⟩) := by
  have hi := hf.hand i res hpc
  have hhand := hf.consistent.inHand
  have hexec : p.comm.executed = p.comm.tasks.length := by
    rcases hpc with hpc | ⟨e, hpc⟩ <;> simp only [Communicator.executed, hpc]
  have hret : p.comm.Returned i res p.comm.currentHeader := by
    rcases hpc with hpc | ⟨e, hpc⟩
    all_goals
      rw [Communicator.InHand, hpc] at hhand
      exact hhand.1
  obtain ⟨e, ht⟩ := hret
  have hlt : i < ns.length := by
    have := hf.length_le
    omega
  have hn : ns[i]? = some ns[i] := List.getElem?_eq_getElem hlt
  have hroot := (hf.nodes _ (List.getElem_mem hlt)).2
  have hheader := hf.header ns[i] (by rw [hexec, ← hi]; exact hn)
  have hverdict := (hf.answers i _ _ ht hn res _ rfl).2
  refine ⟨ns[i], List.getElem_mem hlt, ?_, ?_, fun hr st hst => ?_, fun hr hst => ?_⟩
  · rw [hroot, ← hf.name]
    rfl
  · rw [← hheader]
    rfl
  · have htext : res.text = st.name := Option.some.inj hst
    rw [← Result.status_eq htext]
    exact hverdict (hroot ▸ hr)
  · have htext : res.text = Server.Constant.partitions := Option.some.inj hst
    cases res <;> simp [Result.text, Server.Constant.partitions] at htext

/-- The communicator moves on without a new task. -/
theorem turn {c : Communicator} (hf : Follows sem h r ns p) (hc : c.Consistent)
    (ht : p.comm.Turn c) : Follows sem h r ns { p with comm := c } ∧
    ∀ m ∈ (c.reports.drop p.comm.reports.length).map p.report, ∃ n ∈ ns, Vouched sem h n m := by
  refine ⟨?_, ?_⟩
  · constructor
    · exact hc
    · exact hf.nodes
    · exact hf.length
    · exact hf.first
    · exact hf.leads
    · rw [← hf.events, List.append_assoc, List.append_assoc, ht.tasks]
      exact congrArg _ ht.events
    · exact hf.name
    · intro n hn
      rw [ht.executed] at hn
      exact ht.header.trans (hf.header n hn)
    · intro i hi
      rw [ht.tasks]
      exact hf.future i (ht.future i hi)
    · intro i res hi
      rw [ht.tasks]
      exact hf.future i (ht.hand i res hi)
    · intro hr n hn
      have hbase : c.base = p.comm.base := by rw [Communicator.base, Communicator.base, ht.tasks]
      exact hf.stack hr n (hbase ▸ hn)
    · exact fun i t n hi => hf.answers i t n (ht.tasks ▸ hi)
    · exact hf.children
  · intro m hm
    rcases ht.reports with hl | ⟨i, res, hhand, hl⟩
    · rw [hl, List.drop_length] at hm
      exact absurd hm List.not_mem_nil
    · rw [hl, List.drop_left] at hm
      obtain rfl := List.mem_singleton.mp hm
      exact hf.inHand hhand

/-- The event that the communicator has popped. -/
theorem current {e : Event} (hf : Follows sem h r ns p) (hheld : p.comm.pc.held = [e]) :
    ∃ a n, p.received[p.comm.tasks.length]? = some a ∧ a.event = e ∧
      ns[p.comm.tasks.length]? = some n := by
  have hevents := congrArg (·[p.comm.tasks.length]?) hf.events
  simp only [hheld, List.append_assoc, List.singleton_append, List.getElem?_map] at hevents
  rw [List.getElem?_append_right (by rw [List.length_map]), List.length_map,
    Nat.sub_self] at hevents
  obtain ⟨a, ha, he⟩ := Option.map_eq_some_iff.mp hevents.symm
  have hlt : p.comm.tasks.length < ns.length := by
    rw [hf.length]
    exact (List.getElem?_eq_some_iff.mp ha).1
  exact ⟨a, ns[p.comm.tasks.length], ha, he, List.getElem?_eq_getElem hlt⟩

theorem execute {e : Event} {undecided : Bool} {a : Arrival} (hf : Follows sem h r ns p)
    (hw : p.comm.pc = .executing e) (ha : p.received[p.comm.tasks.length]? = some a) :
    Follows sem h r ns { p.execute undecided a with comm := { p.comm with
      shouldStop := false
      currentHeader := e.branch p.comm.currentHeader
      pc := .submitting e } } := by
  obtain ⟨a', n, ha', rfl, hn⟩ := hf.current (e := e) (by rw [hw]; rfl)
  obtain rfl := Option.some.inj (ha.symm.trans ha')
  have hnone : p.comm.future = none := hf.consistent.between (by rw [hw]; trivial)
  have hexec : p.comm.executed = p.comm.tasks.length := by simp only [Communicator.executed, hw]
  have hbase := Communicator.base_eq hf.consistent hnone
  -- the node the client comes from
  have before : (p.comm.tasks.length = 0 ∧ a.event = .resume) ∨
      ∃ m, ns[p.comm.tasks.length - 1]? = some m ∧ a.Leads h r m n := by
    rcases hT : p.comm.tasks.length with - | j
    · obtain ⟨b, hb, hres, -⟩ := hf.first
      rw [hT] at ha
      obtain rfl := Option.some.inj (ha.symm.trans hb)
      exact .inl ⟨rfl, hres⟩
    · rw [hT] at ha hn
      have hlt : j < ns.length := Nat.lt_of_succ_lt (List.getElem?_eq_some_iff.mp hn).1
      exact .inr ⟨ns[j], List.getElem?_eq_getElem hlt,
        hf.leads j a _ n ha (List.getElem?_eq_getElem hlt) hn⟩
  constructor
  · exact hf.consistent.execute hw
  · exact hf.nodes
  · rw [execute_received]
    exact hf.length
  · rw [execute_received]
    exact hf.first
  · rw [execute_received]
    exact hf.leads
  · rw [execute_received, ← hf.events, hw]
    rfl
  · rcases before with ⟨-, he⟩ | ⟨m, -, hl⟩
    · simp only [Process.execute, he]
      exact hf.name
    · cases hl with
      | partition he =>
        simp only [Process.execute, he]
        split <;> exact hf.name
      | incremental he name => simp only [Process.execute, he, name, Option.getD_some]
  · intro m hm
    simp only [Communicator.executed, Nat.add_sub_cancel] at hm
    obtain rfl := Option.some.inj (hn.symm.trans hm)
    rcases before with ⟨hT, he⟩ | ⟨m, hm, hl⟩
    · simp only [he, Event.branch]
      exact hf.header n (by rw [hexec, hT]; rwa [hT] at hn)
    · cases hl with
      | partition he =>
        simp only [he, Event.branch]
        exact hf.header n (by rw [hexec]; exact hm)
      | incremental he => simp only [he, Event.branch]
  · exact hf.future
  · exact fun i res hh => by rcases hh with hh | ⟨_, hh⟩ <;> cases hh
  · rw [execute_stack]
    exact hf.stack
  · exact hf.answers
  · intro child hc
    rcases mem_children_execute hc with hc | ⟨he, rfl⟩
    · exact hf.children child hc
    · rcases before with ⟨-, he'⟩ | ⟨m, hm, hl⟩
      · cases he.symm.trans he'
      · cases hl with
        | partition _ _ name node =>
          exact ⟨n, List.mem_of_getElem? hn, name, node, fun hr => hf.stack hr n (hbase ▸ hm)⟩
        | incremental he' => cases he.symm.trans he'

theorem submit {e : Event} (hf : Follows sem h r ns p) (hw : p.comm.pc = .submitting e) :
    Follows sem h r ns { p with comm := { p.comm with
      tasks := p.comm.tasks ++ [{ event := e }]
      future := some p.comm.tasks.length
      pc := .waiting } } := by
  have hnone : p.comm.future = none := hf.consistent.between (by rw [hw]; trivial)
  have hexec : p.comm.executed = p.comm.tasks.length + 1 := by simp only [Communicator.executed, hw]
  have hbase := Communicator.base_eq hf.consistent hnone
  constructor
  · exact hf.consistent.submit hw
  · exact hf.nodes
  · exact hf.length
  · exact hf.first
  · exact hf.leads
  · rw [← hf.events, hw]
    simp [Pc.held]
  · exact hf.name
  · intro n hn
    refine hf.header n ?_
    rw [hexec]
    simpa [Communicator.executed] using hn
  · intro i hi
    obtain rfl := Option.some.inj hi
    rw [List.length_append, List.length_singleton]
  · exact fun i res hh => by rcases hh with hh | ⟨_, hh⟩ <;> cases hh
  · intro hr n hn
    refine hf.stack hr n ?_
    rw [hbase]
    simpa [Communicator.base] using hn
  · intro i t n ht hn res b hb
    rcases Nat.lt_or_ge i p.comm.tasks.length with hlt | hge
    · rw [List.getElem?_append_left hlt] at ht
      exact hf.answers i t n ht hn res b hb
    · rw [List.getElem?_append_right hge] at ht
      obtain rfl := List.mem_singleton.mp (List.mem_of_getElem? ht)
      cases hb
  · exact hf.children

/-- The task behind the future is the last one. -/
theorem executed_eq {i : Nat} (hf : Follows sem h r ns p) (hi : p.comm.future = some i) :
    p.comm.executed - 1 = i := by
  have hlen := hf.future i hi
  unfold Communicator.executed
  split
  · next e he =>
    cases hi.symm.trans (hf.consistent.between (by rw [he]; trivial))
  · omega

/-- The task behind the future moves on. -/
theorem advance {i : Nat} {t : Task} {ph : Phase} {c : Communicator} {stack : Stack String}
    (hf : Follows sem h r ns p) (hi : p.comm.future = some i) (ht : p.comm.tasks[i]? = some t)
    (hc : c.Consistent) (tasks : c.tasks = (p.comm.setPhase i ph).tasks)
    (header : c.currentHeader = p.comm.currentHeader) (queue : c.queue = p.comm.queue)
    (pc : c.pc = p.comm.pc) (future : c.future = p.comm.future) (hph : ph ≠ .submitted)
    (hstack : h.Readable r → ∀ n, ns[i]? = some n → stack = h.stack n)
    (answer : ∀ n, ns[i]? = some n → ∀ res b, ph.answer = some (res, b) →
      b = h.path n ∧ (h.Readable r → Verdict res.status ((h.stack n).models sem))) :
    Follows sem h r ns { p with comm := c, stack := stack } := by
  have hlen := hf.future i hi
  have hlength : c.tasks.length = p.comm.tasks.length := by
    rw [tasks, Communicator.setPhase, List.length_modify]
  have htasks (j : Nat) : c.tasks[j]? =
      if i = j then (p.comm.tasks[j]?).map (fun t => { t with phase := ph })
      else p.comm.tasks[j]? := by
    rw [tasks, Communicator.setPhase_getElem?]
  constructor
  · exact hc
  · exact hf.nodes
  · exact hf.length
  · exact hf.first
  · exact hf.leads
  · have hevents : c.tasks.map Task.event = p.comm.tasks.map Task.event := by
      refine List.ext_getElem? fun j => ?_
      rw [List.getElem?_map, List.getElem?_map, htasks]
      split
      · rw [Option.map_map]
        rfl
      · rfl
    rw [← hf.events, hevents, queue, pc]
  · exact hf.name
  · intro n hn
    refine header.trans (hf.header n ?_)
    simpa only [Communicator.executed, pc, hlength] using hn
  · intro j hj
    rw [hlength]
    exact hf.future j (future.symm.trans hj)
  · intro j res hj
    rw [hlength]
    exact hf.hand j res (by rwa [Communicator.InHandIs, pc] at hj)
  · intro hr n hn
    refine hstack hr n ?_
    have hbase : c.base = i := by
      unfold Communicator.base
      split
      · next e he =>
        rw [List.getLast?_eq_getElem?, hlength, ← hlen, Nat.add_sub_cancel, htasks, if_pos rfl,
          ht] at he
        cases he
        exact absurd rfl hph
      · rw [hlength, ← hlen, Nat.add_sub_cancel]
    exact hbase ▸ hn
  · intro j t' n ht' hn res b hb
    rw [htasks] at ht'
    split at ht'
    · next hij =>
      subst hij
      rw [ht] at ht'
      obtain rfl := Option.some.inj ht'
      exact answer n hn res b hb
    · exact hf.answers j t' n ht' hn res b hb
  · exact hf.children

theorem load {i : Nat} (hf : Follows sem h r ns p) (hq : p.load i = some q) :
    Follows sem h r ns q := by
  unfold Process.load at hq
  split at hq
  · next c a hs ha =>
    obtain rfl := Option.some.inj hq
    have hc := hf.consistent.step hs
    simp only [Communicator.step] at hs
    split at hs
    · next e ht =>
      obtain rfl := Option.some.inj hs
      have hi := hf.consistent.running ht (by simp)
      have hlen := hf.future i hi
      refine hf.advance hi ht hc rfl rfl rfl rfl rfl (by simp) (fun hr n hn => ?_)
        fun n _ res b hb => by cases hb
      -- the script that is loaded so far is the one before this event
      have hbase : p.comm.base = i - 1 := by
        unfold Communicator.base
        rw [List.getLast?_eq_getElem?, ← hlen, Nat.add_sub_cancel, ht]
        dsimp only
        omega
      cases i with
      | zero =>
        obtain ⟨b, hb, -, hbody⟩ := hf.first
        obtain rfl := Option.some.inj (ha.symm.trans hb)
        rw [hbody, hf.stack hr n (hbase ▸ hn)]
        exact (by decide : interpret "" = []) ▸ rfl
      | succ j =>
        have hlt : j < ns.length := Nat.lt_of_succ_lt (List.getElem?_eq_some_iff.mp hn).1
        have hm : ns[j]? = some ns[j] := List.getElem?_eq_getElem hlt
        rw [hf.stack hr ns[j] (by rw [hbase]; exact hm)]
        cases hf.leads j a _ n ha hm hn with
        | partition _ still =>
          rw [still]
          exact (by decide : interpret "" = []) ▸ rfl
        | incremental _ _ script => exact Stack.run_of_exec (script hr)
    · cases hs
  · cases hq

/-- The solver has come to a result. -/
theorem compute {i : Nat} {res : Result} {c : Communicator} (hf : Follows sem h r ns p)
    (hs : p.comm.step (.compute i res) = some c)
    (right : Verdict res.status (p.stack.models sem)) :
    Follows sem h r ns { p with comm := c } := by
  have hc := hf.consistent.step hs
  simp only [Communicator.step] at hs
  split at hs
  · next e ht =>
    obtain rfl := Option.some.inj hs
    have hi := hf.consistent.running ht (by simp)
    have hlen := hf.future i hi
    have hbase : p.comm.base = i := by
      unfold Communicator.base
      rw [List.getLast?_eq_getElem?, ← hlen, Nat.add_sub_cancel, ht]
    have hstack (hr : h.Readable r) (n : NodeId) (hn : ns[i]? = some n) : p.stack = h.stack n :=
      hf.stack hr n (by rw [hbase]; exact hn)
    refine hf.advance hi ht hc rfl rfl rfl rfl rfl (by simp) hstack
      fun n hn res' b hb => ?_
    obtain ⟨rfl, rfl⟩ := Prod.mk.inj (Option.some.inj hb)
    refine ⟨?_, fun hr => hstack hr n hn ▸ right⟩
    obtain ⟨⟨t, ht', hloaded⟩, -⟩ := hf.consistent.future i hi
    obtain rfl := Option.some.inj (ht.symm.trans ht')
    exact hloaded.trans (hf.header n (by rw [hf.executed_eq hi]; exact hn))
  · cases hs

/-- The task keeps its result. -/
theorem pass {i : Nat} {t : Task} {ph : Phase} {c : Communicator} (hf : Follows sem h r ns p)
    (ht : p.comm.tasks[i]? = some t) (running : ∀ res b, t.phase ≠ .returned res b)
    (hc : c.Consistent) (tasks : c.tasks = (p.comm.setPhase i ph).tasks)
    (header : c.currentHeader = p.comm.currentHeader) (queue : c.queue = p.comm.queue)
    (pc : c.pc = p.comm.pc) (future : c.future = p.comm.future)
    (known : t.phase.answer.isSome = true) (hph : ph.answer = t.phase.answer) :
    Follows sem h r ns { p with comm := c } := by
  have hi := hf.consistent.running ht running
  have hlen := hf.future i hi
  have hbase : p.comm.base = i := by
    unfold Communicator.base
    rw [List.getLast?_eq_getElem?, ← hlen, Nat.add_sub_cancel, ht]
    split
    · next he =>
      cases he
      cases known
    · rfl
  have hne : ph ≠ .submitted := by
    rintro rfl
    rw [← hph] at known
    cases known
  exact hf.advance hi ht hc tasks header queue pc future hne
    (fun hr n hn => hf.stack hr n (by rw [hbase]; exact hn))
    fun n hn res b hb => hf.answers i t n ht hn res b (hph ▸ hb)

theorem raise {i : Nat} {c : Communicator} (hf : Follows sem h r ns p)
    (hs : p.comm.step (.raise i) = some c) : Follows sem h r ns { p with comm := c } := by
  have hc := hf.consistent.step hs
  simp only [Communicator.step] at hs
  split at hs
  · next e res b ht =>
    obtain ⟨-, rfl⟩ := Option.ite_some_none_eq_some.mp hs
    exact hf.pass ht (by simp) hc rfl rfl rfl rfl rfl rfl rfl
  · cases hs

theorem finish {i : Nat} {c : Communicator} (hf : Follows sem h r ns p)
    (hs : p.comm.step (.finish i) = some c) : Follows sem h r ns { p with comm := c } := by
  have hc := hf.consistent.step hs
  simp only [Communicator.step] at hs
  split at hs
  · next e res b ht =>
    obtain rfl := Option.some.inj hs
    exact hf.pass ht (by simp) hc rfl rfl rfl rfl rfl rfl rfl
  · next e res b ht =>
    split at hs
    · cases hs
    · obtain rfl := Option.some.inj hs
      exact hf.pass ht (by simp) hc rfl rfl rfl rfl rfl rfl rfl
  · cases hs

/-- A child reports what it has found out. -/
theorem reply {k : Nat} {report payload : String} {out : List (Header × Payload)}
    (hf : Follows sem h r ns p) (hs : p.reply k report payload = some (q, out))
    (right : ∀ child n, p.children[k]? = some (some child) → child.stack = h.stack n →
      (∀ status : SolveStatus, report = status.name → Verdict status ((h.stack n).models sem)) ∧
      (report = Server.Constant.partitions → (h.stack n).models sem =
        { v | ∃ q ∈ Server.Solver.pieces payload,
          v ∈ (h.stack n).models sem ∩ sem (body (Server.Solver.assertText q)) })) :
    Follows sem h r ns q ∧ ∀ m ∈ out, ∃ n ∈ ns, Vouched sem h n m := by
  unfold Process.reply at hs
  split at hs
  · next child hchild =>
    obtain ⟨rfl, rfl⟩ := Prod.mk.inj (Option.some.inj hs)
    refine ⟨⟨hf.consistent, hf.nodes, hf.length, hf.first, hf.leads, hf.events, hf.name, hf.header,
      hf.future, hf.hand, hf.stack, hf.answers, fun other hc => ?_⟩, fun m hm => ?_⟩
    · exact hf.children other
        ((List.mem_or_eq_of_mem_set hc).resolve_right (Option.some_ne_none other))
    · obtain rfl := List.mem_singleton.mp hm
      obtain ⟨n, hn, hname, hnode, hstack⟩ := hf.children child (List.mem_of_getElem? hchild)
      have hroot := (hf.nodes n hn).2
      refine ⟨n, hn, ?_, ?_, fun hr status hst => ?_, fun hr hst text htext => ?_⟩
      · rw [Server.Header.lookup_set, if_neg (by decide), hroot]
        exact hname
      · rw [Server.Header.lookup_set, if_neg (by decide)]
        exact hnode
      · rw [Server.Header.lookup_set, if_pos rfl] at hst
        exact (right child n hchild (hstack (hroot ▸ hr))).1 status (Option.some.inj hst)
      · rw [Server.Header.lookup_set, if_pos rfl] at hst
        obtain rfl := Option.some.inj htext
        exact (right child n hchild (hstack (hroot ▸ hr))).2 (Option.some.inj hst)
  · cases hs

theorem communicate {undecided : Bool} {out : List (Header × Payload)} (hf : Follows sem h r ns p)
    (hs : p.communicate undecided = some (q, out)) :
    Follows sem h r ns q ∧ ∀ m ∈ out, ∃ n ∈ ns, Vouched sem h n m := by
  obtain ⟨c, hcomm, hq⟩ := Option.map_eq_some_iff.mp hs
  have quietly {p' : Process} (hp' : Follows sem h r ns p') (hc : p'.comm = c)
      (hreports : c.reports = p.comm.reports) (he : p' = q)
      (hout : (c.reports.drop p.comm.reports.length).map p.report = out) :
      Follows sem h r ns q ∧ ∀ m ∈ out, ∃ n ∈ ns, Vouched sem h n m := by
    rw [hreports, List.drop_length] at hout
    subst hout he
    exact ⟨hp', fun m hm => absurd hm List.not_mem_nil⟩
  obtain ⟨hq, hout⟩ := Prod.mk.inj hq
  cases hpc : p.comm.pc
  case executing e =>
    obtain ⟨a, n, ha, -⟩ := hf.current (e := e) (by rw [hpc]; rfl)
    rw [hpc, ha] at hq
    simp only [Communicator.communicate, hpc, Option.some.injEq] at hcomm
    subst hcomm
    exact quietly (hf.execute hpc ha) rfl rfl hq hout
  case submitting e =>
    rw [hpc] at hq
    simp only [Communicator.communicate, hpc, Option.some.injEq] at hcomm
    subst hcomm
    exact quietly (hf.submit hpc) rfl rfl hq hout
  all_goals
    rw [hpc] at hq
    subst hq hout
    exact hf.turn (hf.consistent.communicate hcomm) (.of_communicate hcomm (by simp [hpc]))

/-- Whatever the threads and the children do, the client stays where its events take it, and what
it sends is right. -/
theorem work {job : Job} {out : List (Header × Payload)} (hf : Follows sem h r ns p)
    (right : job.Right sem p) (hs : p.work job = some (q, out)) :
    Follows sem h r ns q ∧ ∀ m ∈ out, ∃ n ∈ ns, Vouched sem h n m := by
  have silent {o : Option Communicator}
      (step : ∀ c, o = some c → Follows sem h r ns { p with comm := c })
      (hs : (o.map fun c => ({ p with comm := c }, ([] : List (Header × Payload)))) =
        some (q, out)) : Follows sem h r ns q ∧ ∀ m ∈ out, ∃ n ∈ ns, Vouched sem h n m := by
    obtain ⟨c, hc, hq⟩ := Option.map_eq_some_iff.mp hs
    obtain ⟨rfl, rfl⟩ := Prod.mk.inj hq
    exact ⟨step c hc, fun m hm => absurd hm List.not_mem_nil⟩
  cases job with
  | communicate undecided => exact hf.communicate hs
  | load i =>
    obtain ⟨q', hq', hq⟩ := Option.map_eq_some_iff.mp hs
    obtain ⟨rfl, rfl⟩ := Prod.mk.inj hq
    exact ⟨hf.load hq', fun m hm => absurd hm List.not_mem_nil⟩
  | compute i res => exact silent (fun c hc => hf.compute hc right) hs
  | raise i => exact silent (fun c hc => hf.raise hc) hs
  | finish i => exact silent (fun c hc => hf.finish hc) hs
  | partitions k text =>
    refine hf.reply hs fun child n hchild hstack => ⟨fun status hst => ?_, fun _ => ?_⟩
    · cases status <;> simp [Server.Constant.partitions, SolveStatus.name] at hst
    · rw [← hstack]
      exact right child hchild
  | sat k =>
    refine hf.reply hs fun child n hchild hstack => ⟨fun status hst => ?_, fun hst => ?_⟩
    · have heq : Result.sat.status = status := Result.status_eq hst
      subst heq
      rw [← hstack]
      exact ⟨fun _ => right child hchild, fun he => nomatch he⟩
    · simp [Server.Constant.partitions, Result.text] at hst

end Process.Follows

end Smts.Client
