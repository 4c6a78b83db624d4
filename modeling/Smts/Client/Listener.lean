import Smts.Client.Following
import Smts.LemmaServer.Text
import Smts.Server.Streams

namespace Smts.Client

open Smts.Server (Header Payload NodeId Heap Sent render)

/-- The branch behind the text of a path. -/
def branchOf (text : String) : Branch :=
  match LemmaServer.inner (Lib.utf8 text) with
  | .ok code => (LemmaServer.tokens (LemmaServer.eraseSpaces code)).map LemmaServer.number
  | .error _ => []

@[simp] theorem branchOf_render (b : Branch) : branchOf (render b) = b := by
  rw [branchOf, LemmaServer.inner_render]
  dsimp only
  rw [LemmaServer.tokens_render, List.map_map]
  exact (List.map_congr_left fun n _ => LemmaServer.number_decimal n).trans b.map_id

theorem render_injective : Function.Injective render :=
  Function.LeftInverse.injective branchOf_render

/-- A client as its listener knows it.  There is no solver process before the command `SOLVE`, and
events that come earlier wait in the channel. -/
structure Listener where
  process : Option Process := none
  exited : Bool := false
  waiting : List Arrival := []

/-- The process when these events have been in the channel before. -/
def Process.behind (p : Process) (waiting : List Arrival) : Process :=
  { p with
    comm := { p.comm with queue := waiting.map Arrival.event ++ p.comm.queue }
    received := waiting ++ p.received }

@[simp] theorem Process.behind_nil (p : Process) : p.behind [] = p := rfl

/-- `Schedular::queue_event`. -/
def Listener.queue (c : Listener) (a : Arrival) : Listener :=
  match c.process with
  | some p => { c with process := some (p.receive a) }
  | none => { c with waiting := c.waiting ++ [a] }

/-- `SolverServer::handle_event`; `none` for an event that the client, or its communicator once it
gets there, cannot follow. -/
def Listener.handleEvent (c : Listener) (m : Sent) : Option Listener :=
  match m.header.lookup Server.Constant.command with
  | none => some c
  | some command =>
    if command = Server.Constant.terminate ∨ command = Server.Constant.stop then
      some { c with exited := true }
    else if command = Server.Constant.solve then
      match c.process, m.header.lookup Server.Constant.name,
        m.header.lookup Server.Constant.node with
      | none, some name, some node =>
        if m.keyed then
          some { c with
            process :=
              some ((Process.start name (branchOf node) m.header m.payload).behind c.waiting)
            waiting := [] }
        else none
      | _, _, _ => none
    else if command = Server.Constant.partition then
      if m.keyed then some (c.queue ⟨.partition, m.header, m.payload⟩) else none
    else if command = Server.Constant.incremental then
      match m.header.lookup Server.Constant.node_ with
      | some node_ =>
        if m.keyed then some (c.queue ⟨.incremental (branchOf node_), m.header, m.payload⟩)
        else none
      | none => none
    else some c

section Reads

variable {Model : Type} {sem : List String → Set Model} {h g : Heap} {l : List Sent} {m : Sent}
  {c d : Listener} {p q : Process} {r n : NodeId} {ns : List NodeId} {lossy lossy' : Prop}

/-- What has become of a client that has read these messages.  Where `lossy` holds, it may have got
events without a `SOLVE`. -/
inductive Listener.Reads (sem : List String → Set Model) (h : Heap) (lossy : Prop) (l : List Sent)
    (c : Listener) : Prop
  | fresh (process : c.process = none) (place : c.exited = false →
      Server.standing l = none ∧ c.waiting = [] ∨ lossy ∧ Server.engaged l = true)
  | running {p : Process} {r : NodeId} {ns : List NodeId} (process : c.process = some p)
      (follows : p.Follows sem h r ns) (told : ∀ n ∈ ns, ∃ m ∈ l, m.places = true ∧ m.Names h n)
      (place : c.exited = false → Server.standing l = ns.getLast?)

namespace Listener.Reads

theorem start : Reads sem h lossy [] {} := .fresh rfl fun _ => .inl ⟨rfl, rfl⟩

theorem grow (hc : c.Reads sem h lossy l) (hg : h.Grows g) : c.Reads sem g lossy l := by
  cases hc with
  | fresh process place => exact .fresh process place
  | running process follows told place =>
    refine .running process (follows.grow hg) (fun n hn => ?_) place
    obtain ⟨m, hm, hp, hn⟩ := told n hn
    exact ⟨m, hm, hp, hn.grow hg⟩

theorem mono (hc : c.Reads sem h lossy l) (hl : lossy → lossy') : c.Reads sem h lossy' l := by
  cases hc with
  | fresh process place => exact .fresh process fun he => (place he).imp_right (And.imp_left hl)
  | running process follows told place => exact .running process follows told place

theorem exit (hc : c.Reads sem h lossy l) (m : Sent) :
    Reads sem h lossy (l ++ [m]) { c with exited := true } := by
  cases hc with
  | fresh process => exact .fresh process fun he => nomatch he
  | running process follows told =>
    refine .running process follows (fun n hn => ?_) fun he => nomatch he
    obtain ⟨m', hm', hrest⟩ := told n hn
    exact ⟨m', List.mem_append_left _ hm', hrest⟩

theorem skip (hc : c.Reads sem h lossy l) (calm : m.steers = false) :
    c.Reads sem h lossy (l ++ [m]) := by
  have hstand : Server.standing (l ++ [m]) = Server.standing l := by
    rw [Server.standing_concat, Server.Sent.lands_calm calm]
  have hengaged : Server.engaged (l ++ [m]) = Server.engaged l := by
    rw [Server.engaged_concat, calm]
    rfl
  cases hc with
  | fresh process place =>
    refine .fresh process fun he => ?_
    rw [hstand, hengaged]
    exact place he
  | running process follows told place =>
    refine .running process follows (fun n hn => ?_) fun he => hstand.trans (place he)
    obtain ⟨m', hm', hrest⟩ := told n hn
    exact ⟨m', List.mem_append_left _ hm', hrest⟩

/-- Where the server takes the client to be on no node, the client has nothing to work on. -/
theorem unplaced (hc : c.Reads sem h lossy l) (alive : c.exited = false)
    (stands : h.Stands lossy l none) :
    c.process = none ∧ c.waiting = [] ∧ Server.standing l = none := by
  have none : Server.standing l = none := stands.standing.elim id And.right
  cases hc with
  | fresh process place =>
    refine ⟨process, ((place alive).resolve_right fun he => ?_).2, none⟩
    simp [stands.idle] at he
  | running process follows told place =>
    exact absurd (List.getLast?_eq_none_iff.mp ((place alive).symm.trans none)) follows.ne_nil

/-- Where the server takes the client to be on a node, this is the client's last one, if the client
has a process at all. -/
theorem placed (hc : c.Reads sem h lossy l) (alive : c.exited = false)
    (stands : h.Stands lossy l (some n)) : c.process = none ∧ lossy ∨
    Server.standing l = some n ∧ ∃ p r ns, c.process = some p ∧ p.Follows sem h r ns ∧
      ns.getLast? = some n ∧ ∀ n ∈ ns, ∃ m ∈ l, m.places = true ∧ m.Names h n := by
  have hstand := stands.standing
  cases hc with
  | fresh process place =>
    refine .inl ⟨process, ?_⟩
    rcases place alive with ⟨none, -⟩ | ⟨may, -⟩
    · rcases hstand with hs | ⟨may, -⟩
      · cases none.symm.trans hs
      · exact may
    · exact may
  | @running p r ns process follows told place =>
    have hs : Server.standing l = some n := hstand.resolve_right fun hs => follows.ne_nil
      (List.getLast?_eq_none_iff.mp ((place alive).symm.trans hs.2))
    exact .inr ⟨hs, p, r, ns, process, follows, (place alive).symm.trans hs, told⟩

/-- A client that has got another event goes on from the last node. -/
theorem receive {a : Arrival} {n' : NodeId} (process : c.process = some p)
    (follows : p.Follows sem h r ns) (old : ∀ n ∈ ns, ∃ m ∈ l, m.places = true ∧ m.Names h n)
    (hlast : ns.getLast? = some n) (stands : Server.standing (l ++ [m]) = some n')
    (next : h.Listed n' ∧ h.root n' = r) (told : m.places = true ∧ m.Names h n' ∨ n' = n)
    (leads : a.Leads h r n n') : Reads sem h lossy (l ++ [m]) (c.queue a) := by
  have before {k : NodeId} (hk : k ∈ ns) : ∃ m' ∈ l ++ [m], m'.places = true ∧ m'.Names h k := by
    obtain ⟨m', hm', hrest⟩ := old k hk
    exact ⟨m', List.mem_append_left _ hm', hrest⟩
  rw [Listener.queue, process]
  refine .running rfl (follows.receive hlast next leads) (fun k hk => ?_) fun _ => ?_
  · rcases List.mem_append.mp hk with hk | hk
    · exact before hk
    · obtain rfl := List.mem_singleton.mp hk
      rcases told with told | rfl
      · exact ⟨m, List.mem_append_right _ (List.mem_singleton_self _), told⟩
      · exact before (List.mem_of_getLast? hlast)
  · rw [List.getLast?_append, List.getLast?_singleton, Option.some_or]
    exact stands

/-- An event for a client without a process stays in the channel. -/
theorem wait {a : Arrival} (process : c.process = none) (may : lossy)
    (busy : Server.engaged (l ++ [m]) = true) : Reads sem h lossy (l ++ [m]) (c.queue a) := by
  have hqueue : c.queue a = { c with waiting := c.waiting ++ [a] } := by
    rw [Listener.queue, process]
  rw [hqueue]
  exact .fresh process fun _ => .inr ⟨may, busy⟩

/-- The next message of a stream that suits the client is one that it can follow. -/
theorem handleEvent (hc : c.Reads sem h lossy l) (alive : c.exited = false) {st : Option NodeId}
    (stands : h.Stands lossy (l ++ [m]) st)
    (kin : ∀ m₁ ∈ l, m₁.places = true → m.places = true →
      m₁.header.lookup Server.Constant.name = m.header.lookup Server.Constant.name →
      ∀ a a', m₁.about = some a → m.about = some a' → h.root a = h.root a') :
    ∃ d, c.handleEvent m = some d ∧ d.Reads sem h lossy (l ++ [m]) := by
  obtain ⟨st₀, st₁, before, suits⟩ := stands.before
  have hsuits := suits
  have engaged := suits.engaged (l := l)
  cases suits with
  | @solve _ n command keyed names node script =>
    obtain ⟨process, channel, none⟩ := hc.unplaced alive before
    refine ⟨{ c with
        process := some ((Process.start (h.label (h.root n)).name (h.path n) m.header
          m.payload).behind c.waiting)
        waiting := [] }, ?_, ?_⟩
    · simp [Listener.handleEvent, command, process, names.name, node, keyed,
        Server.Constant.solve, Server.Constant.terminate, Server.Constant.stop]
    · rw [channel]
      refine .running rfl (.start ⟨names.listed, rfl⟩ rfl script) (fun k hk => ?_) fun _ => ?_
      · obtain rfl := List.mem_singleton.mp hk
        exact ⟨m, List.mem_append_right _ (List.mem_singleton_self _),
          Server.Sent.places_of_command (.inl command), names⟩
      · rw [Server.standing_concat, none, hsuits.lands]
        rfl
  | @move _ a n command keyed names node_ same script =>
    have hplaces := Server.Sent.places_of_command (.inr command)
    have busy : Server.engaged (l ++ [m]) = true := by
      rw [engaged, if_pos (by simp [Sent.steers, hplaces])]
      rfl
    refine ⟨c.queue ⟨.incremental (h.path n), m.header, m.payload⟩, ?_, ?_⟩
    · simp [Listener.handleEvent, command, node_, keyed, Server.Constant.solve,
        Server.Constant.terminate, Server.Constant.stop, Server.Constant.incremental,
        Server.Constant.partition]
    · rcases hc.placed alive before with
        ⟨process, may⟩ | ⟨hstand, p, r, ns, process, follows, hlast, old⟩
      · exact wait process may busy
      have ha := (follows.nodes a (List.mem_of_getLast? hlast)).2
      have hroot : h.root n = r := by
        obtain ⟨m', hm', hp', hn'⟩ := old a (List.mem_of_getLast? hlast)
        rw [← ha]
        exact (kin m' hm' hp' hplaces (by rw [hn'.name, names.name, same]) a n hn'.about
          names.about).symm
      refine receive process follows old hlast ?_ ⟨names.listed, hroot⟩ (.inl ⟨hplaces, names⟩)
        (.incremental rfl (by rw [names.name, hroot]) fun hread => (script (ha.symm ▸ hread)).2)
      rw [Server.standing_concat, hstand, hsuits.lands]
  | @ask _ a command keyed names node payload =>
    have busy : Server.engaged (l ++ [m]) = true := by
      rw [engaged, if_pos (by simp [Sent.steers, command])]
      rfl
    refine ⟨c.queue ⟨.partition, m.header, m.payload⟩, ?_, ?_⟩
    · simp [Listener.handleEvent, command, keyed, Server.Constant.solve,
        Server.Constant.terminate, Server.Constant.stop, Server.Constant.partition]
    · rcases hc.placed alive before with
        ⟨process, may⟩ | ⟨hstand, p, r, ns, process, follows, hlast, old⟩
      · exact wait process may busy
      have hnode := follows.nodes a (List.mem_of_getLast? hlast)
      refine receive process follows old hlast ?_ hnode (.inr rfl)
        (.partition rfl payload (by rw [names.name, hnode.2]) node)
      rw [Server.standing_concat, hstand, hsuits.lands]
  | stop command =>
    refine ⟨_, ?_, hc.exit m⟩
    simp [Listener.handleEvent, command]
  | other calm =>
    have hcalm := calm
    simp only [Sent.steers, Sent.places, Bool.or_eq_false_iff, decide_eq_false_iff_not] at hcalm
    cases hcommand : m.header.lookup Server.Constant.command with
    | none => exact ⟨c, by rw [Listener.handleEvent, hcommand], hc.skip calm⟩
    | some command =>
      rw [hcommand] at hcalm
      simp only [Option.some.injEq] at hcalm
      by_cases hterm : command = Server.Constant.terminate
      · refine ⟨_, ?_, hc.exit m⟩
        simp [Listener.handleEvent, hcommand, hterm]
      · refine ⟨c, ?_, hc.skip calm⟩
        simp [Listener.handleEvent, hcommand, hterm, hcalm]

end Listener.Reads

end Reads

end Smts.Client
