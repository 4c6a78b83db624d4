import Smts.Cluster.System

namespace Smts.Cluster

open Smts.Lib
open Smts.Server (State SockId Sent Header Payload SolveStatus NodeId Env Config Exn Heap mail)
open Smts.Client (Listener Job Vouched)

variable {Model : Type} {sem : List String → Set Model} {c d : Cluster} {s t : State}
  {ev : Server.Event} {r : Except Exn Unit} {x : SockId} {m : Header × Payload}

/-- If the message is a report, it is right about a node that some solver was sent to. -/
def Reported (sem : List String → Set Model) (s : State) (m : Header × Payload) : Prop :=
  Idle m.1 ∨ ∃ n, (∃ m' ∈ s.sent, m'.places = true ∧ m'.Names s.heap n) ∧ Vouched sem s.heap n m

theorem Reported.grow (hm : Reported sem s m) (hg : s.heap.Grows t.heap)
    (sent : ∀ m' ∈ s.sent, m' ∈ t.sent) : Reported sem t m := by
  refine hm.imp_right ?_
  rintro ⟨n, ⟨m', hm', hp, hn⟩, hv⟩
  exact ⟨n, ⟨m', sent m' hm', hp, hn.grow hg⟩, hv.grow hg hn.listed⟩

/-- Each client can follow all that it is sent, and is right in all that it says. -/
structure Coherent (sem : List String → Set Model) (c : Cluster) : Prop where
  consistent : Server.Consistent c.server
  regular : c.server.Regular
  pointed : c.server.Pointed
  kin : Server.Kin c.server
  packed : c.server.Packed
  sent : ∀ x, ∀ m ∈ c.inbox x, m ∈ c.server.sent
  stands : ∀ x, ∃ st, c.server.heap.Stands (c.refused x = true) (c.inbox x) st ∧
    (c.linked x = true → c.server.kind x = .solver ∧ st = (c.server.solver x).node)
  taken : ∀ x, c.taken x ≤ (c.inbox x).length
  reads : ∀ x, (c.client x).Reads sem c.server.heap (c.refused x = true)
    ((c.inbox x).take (c.taken x))
  wire : ∀ x, ∀ m ∈ c.wire x, Reported sem c.server m

theorem coherent_init (env : Env) (config : Config) : Coherent sem (init env config) where
  consistent := .init env config
  regular := .init env config
  pointed := .init env config
  kin := .init env config
  packed _ hm := absurd hm List.not_mem_nil
  sent _ _ hm := absurd hm List.not_mem_nil
  stands _ := ⟨none, .start, fun h => nomatch h⟩
  taken _ := Nat.le_refl _
  reads _ := .start
  wire _ _ hm := absurd hm List.not_mem_nil

theorem grows (hs : Server.Consistent s) (h : Server.Step s ev t) : s.heap.Grows t.heap :=
  have path : Server.Path (Server.Act.Caused True ev s) s t := h.path hs (.inl trivial)
  (Server.Path.grows (fun _ _ ha => ha.1.1) path hs.seated).2

namespace Coherent

theorem unborn (hc : Coherent sem c) : c.server.kind c.server.nextSock ≠ .solver := by
  obtain ⟨_, _, h⟩ := hc.regular
  rw [(h.unborn _ (Nat.le_refl _)).1]
  exact fun he => nomatch he

/-- What has been refused before stays noted. -/
theorem refused_serve (hx : c.server.kind x = .solver) (h : c.refused x = true) :
    (c.serve ev r t).refused x = true := by
  simp [Cluster.serve, hx, h]

/-- What is on the way to a client was sent by the server. -/
theorem sent_serve (hc : Coherent sem c) {l : List Sent} (hl : t.sent = c.server.sent ++ l)
    (x : SockId) : ∀ m ∈ c.delivered ev t x, m ∈ t.sent := by
  intro m hm
  rcases List.mem_append.mp hm with hm | hm
  · split at hm
    · exact hl ▸ List.mem_append_left _ (hc.sent x m hm)
    · exact absurd hm List.not_mem_nil
  · split at hm
    · rw [hl, List.drop_left] at hm
      exact hl ▸ List.mem_append_right _ (List.mem_of_mem_filter hm)
    · exact absurd hm List.not_mem_nil

/-- The server goes on sending what the client can follow, but for what it has to go without when
a command is refused. -/
theorem delivered (hc : Coherent sem c) (turn : Server.Ends c.server ev r t) (x : SockId) :
    ∃ st, t.heap.Stands ((c.serve ev r t).refused x = true) (c.delivered ev t x) st ∧
      ((c.serve ev r t).linked x = true → t.kind x = .solver ∧ st = (t.solver x).node) := by
  have ht : Server.Consistent t := hc.consistent.step turn.step
  have hbase : ∃ st, c.server.heap.Stands ((c.serve ev r t).refused x = true)
      (if c.server.kind x = .solver then c.inbox x else []) st := by
    split
    · next hx =>
      obtain ⟨st, hst, -⟩ := hc.stands x
      exact ⟨st, hst.mono (refused_serve hx)⟩
    · exact ⟨none, .start⟩
  by_cases hr : c.reaches ev t x = true
  · have hreach := hr
    simp only [reaches, Bool.and_eq_true, decide_eq_true_eq, Bool.not_eq_true',
      Bool.or_eq_true] at hr
    obtain ⟨⟨hx, hopen⟩, hlink⟩ := hr
    have open_ : ev ≠ .closed x := by
      rintro rfl
      simp [Server.Event.closes] at hopen
    have old (hold : c.server.kind x = .solver) :
        c.server.heap.Stands ((c.serve ev r t).refused x = true)
          (if c.server.kind x = .solver then c.inbox x else []) (c.server.solver x).node := by
      rw [if_pos hold]
      obtain ⟨st, hst, hnode⟩ := hc.stands x
      rw [← (hnode (hlink.resolve_left fun h => h hold)).2]
      exact hst.mono (refused_serve hold)
    obtain ⟨l, st, hl, hst, hland, htells⟩ :=
      turn.stands hc.consistent hc.pointed hc.unborn hx open_ old fun h => if_neg h
    have hinbox : c.delivered ev t x =
        (if c.server.kind x = .solver then c.inbox x else []) ++ mail x l := by
      rw [Cluster.delivered, if_pos hreach, hl, List.drop_left]
    have hunsent (hne : st ≠ (t.solver x).node) : c.unsent ev t x = true := by
      rw [unsent, hreach, hl, List.drop_left, hland, Bool.true_and]
      exact decide_eq_true hne
    rw [hinbox]
    cases htells with
    | agrees node => exact ⟨st, hst, fun _ => ⟨hx, node.symm⟩⟩
    | @stopped a node why =>
      have hgone : c.unsent ev t x = true := hunsent (by rw [node]; exact Option.some_ne_none a)
      by_cases linked : (c.serve ev r t).linked x = true
      · simp only [Cluster.serve, hgone, Bool.and_eq_true, Bool.not_eq_true', Bool.true_and,
          decide_eq_false_iff_not] at linked
        have long : ¬ t.heap.Short a := (why.resolve_left linked.2).resolve_left fun hnone => by
          simp [hnone] at linked
        refine ⟨none, hst.none ?_, fun _ => ⟨hx, node.symm⟩⟩
        by_contra hbusy
        refine long (hst.short (Bool.not_eq_false _ ▸ hbusy) fun m hm => ?_)
        exact hc.packed.step hc.consistent turn m (hc.sent_serve hl x m (hinbox ▸ hm))
      · exact ⟨some a, hst, fun h => absurd h linked⟩
    | @placed n node =>
      have hgone : c.unsent ev t x = true :=
        hunsent (by rw [node]; exact (Option.some_ne_none n).symm)
      by_cases he : r = .error .osError
      · refine ⟨none, hst, fun h => ?_⟩
        simp [Cluster.serve, hgone, he] at h
      · have refused : (c.serve ev r t).refused x = true := by simp [Cluster.serve, hgone, he]
        exact ⟨some n, .lost refused (ht.seated.placed x n node) hst, fun _ => ⟨hx, node.symm⟩⟩
  · obtain ⟨st, hst⟩ := hbase
    rw [Cluster.delivered, if_neg hr, List.append_nil]
    refine ⟨st, hst.grow (grows hc.consistent turn.step), fun hlinked => absurd ?_ hr⟩
    simp only [Cluster.serve, Bool.and_eq_true] at hlinked
    exact hlinked.1.1

theorem serve (hc : Coherent sem c) (turn : Server.Ends c.server ev r t)
    (unworked : ev.Unworked c.server) : Coherent sem (c.serve ev r t) := by
  have hg := grows hc.consistent turn.step
  obtain ⟨l, hl⟩ : ∃ l, t.sent = c.server.sent ++ l := by
    obtain ⟨u, v, hin, hd, hf, -⟩ := turn.phases hc.consistent
    obtain ⟨l, hl, -⟩ := hin.sent
    obtain ⟨k, hk, -⟩ := Server.deeds_sent hd
    refine ⟨l ++ k, ?_⟩
    rcases hf with rfl | ⟨_, -, hf⟩
    · rw [hk, hl, List.append_assoc]
    · rw [hf.rest.2.2.2.1, hk, hl, List.append_assoc]
  have hmem : ∀ m ∈ c.server.sent, m ∈ t.sent := fun m hm => hl ▸ List.mem_append_left _ hm
  have reported {m : Header × Payload} (hm : Reported sem c.server m) : Reported sem t m :=
    hm.grow hg hmem
  constructor
  · exact hc.consistent.step turn.step
  · exact hc.regular.step turn.step
  · exact hc.pointed.step hc.consistent turn.step
  · exact hc.kin.step hc.consistent unworked turn.step
  · exact hc.packed.step hc.consistent turn
  · exact hc.sent_serve hl
  · exact hc.delivered turn
  · intro x
    simp only [Cluster.serve, Cluster.delivered]
    split
    · rw [List.length_append]
      exact Nat.le_add_right_of_le (hc.taken x)
    · exact Nat.zero_le _
  · intro x
    by_cases hx : c.server.kind x = .solver
    · have noted : c.refused x = true → (c.serve ev r t).refused x = true := refused_serve hx
      have hreads := ((hc.reads x).grow hg).mono noted
      simpa only [Cluster.serve, Cluster.delivered, if_pos hx,
        List.take_append_of_le_length (hc.taken x)] using hreads
    · simp only [Cluster.serve, if_neg hx, List.take_zero]
      exact .start
  · intro x m hm
    simp only [Cluster.serve] at hm
    split at hm
    · split at hm
      · exact reported (hc.wire x m (List.mem_of_mem_tail hm))
      · exact reported (hc.wire x m hm)
    · exact absurd hm List.not_mem_nil

theorem take_next {m : Sent} (next : (c.inbox x)[c.taken x]? = some m) :
    (c.inbox x).take (c.taken x + 1) = (c.inbox x).take (c.taken x) ++ [m] := by
  rw [List.take_add_one, next]
  rfl

/-- The next message suits a client that has read the ones before. -/
theorem suits (hc : Coherent sem c) {m : Sent} (next : (c.inbox x)[c.taken x]? = some m) :
    ∃ st st', c.server.heap.Stands (c.refused x = true) ((c.inbox x).take (c.taken x)) st ∧
      c.server.heap.Suits st m st' := by
  obtain ⟨st, hst, -⟩ := hc.stands x
  obtain ⟨st', hst'⟩ := hst.take (c.taken x + 1)
  rw [take_next next] at hst'
  exact hst'.before

/-- A client that is not gone can follow the next message. -/
theorem next (hc : Coherent sem c) {m : Sent} (next : (c.inbox x)[c.taken x]? = some m)
    (alive : (c.client x).exited = false) :
    ∃ d, (c.client x).handleEvent m = some d ∧
      d.Reads sem c.server.heap (c.refused x = true) ((c.inbox x).take (c.taken x + 1)) := by
  have hmem : ∀ m' ∈ (c.inbox x).take (c.taken x + 1), m' ∈ c.server.sent := fun m' hm' =>
    hc.sent x m' (List.mem_of_mem_take hm')
  obtain ⟨st, hst, -⟩ := hc.stands x
  obtain ⟨st', hst'⟩ := hst.take (c.taken x + 1)
  rw [take_next next] at hst' hmem ⊢
  exact (hc.reads x).handleEvent alive hst' fun m₁ hm₁ hp₁ hp hname a a' ha ha' =>
    hc.kin.root m₁ (hmem m₁ (List.mem_append_left _ hm₁)) m
      (hmem m (List.mem_append_right _ (List.mem_singleton_self _))) hp₁ hp hname a a' ha ha'

theorem step (hc : Coherent sem c) (h : Step sem c d) : Coherent sem d := by
  cases h with
  | serve turn unworked => exact hc.serve turn unworked
  | @read x m d next alive follows =>
    obtain ⟨d', hd', hreads⟩ := hc.next next alive
    obtain rfl := Option.some.inj (follows.symm.trans hd')
    have hlt : c.taken x < (c.inbox x).length := (List.getElem?_eq_some_iff.mp next).1
    refine { hc with taken := fun y => ?_, reads := fun y => ?_ }
    · simp only [Function.update_apply]
      split
      · next hy => exact hy ▸ hlt
      · exact hc.taken y
    · simp only [Function.update_apply]
      split
      · next hy => exact hy ▸ hreads
      · exact hc.reads y
  | @work x p q job out process right work =>
    have hreads := hc.reads x
    cases hreads with
    | fresh none => cases none.symm.trans process
    | @running p' r ns process' follows told place =>
      obtain rfl := Option.some.inj (process.symm.trans process')
      obtain ⟨follows', vouched⟩ := follows.work right work
      refine { hc with reads := fun y => ?_, wire := fun y m hm => ?_ }
      · simp only [Function.update_apply]
        split
        · next hy =>
          subst hy
          exact .running rfl follows' told place
        · exact hc.reads y
      · simp only [Function.update_apply] at hm
        split at hm
        · rcases List.mem_append.mp hm with hm | hm
          · exact hc.wire x m hm
          · obtain ⟨n, hn, hv⟩ := vouched m hm
            obtain ⟨m', hm', hrest⟩ := told n hn
            exact .inr ⟨n, ⟨m', hc.sent x m' (List.mem_of_mem_take hm'), hrest⟩, hv⟩
        · exact hc.wire y m hm
  | @note x header payload idle =>
    refine { hc with wire := fun y m hm => ?_ }
    simp only [Function.update_apply] at hm
    split at hm
    · rcases List.mem_append.mp hm with hm | hm
      · exact hc.wire x m hm
      · obtain rfl := List.mem_singleton.mp hm
        exact .inl idle
    · exact hc.wire y m hm
  | @cut x =>
    refine { hc with stands := fun y => ?_ }
    obtain ⟨st, hst, hnode⟩ := hc.stands y
    refine ⟨st, hst, fun hl => hnode ?_⟩
    simp only [Function.update_apply] at hl
    split at hl
    · cases hl
    · exact hl

end Coherent

theorem Reaches.coherent {env : Env} {config : Config} (h : Reaches sem (init env config) c) :
    Coherent sem c := by
  induction h with
  | refl => exact coherent_init env config
  | tail _ hstep ih => exact ih.step hstep

end Smts.Cluster
