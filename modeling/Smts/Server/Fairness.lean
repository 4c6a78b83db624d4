import Smts.Lib.RoundRobin
import Smts.Server.Receiving

namespace Smts.Server

open Smts.Lib Smts.Lib.Prog

variable {s t u : State}

/-- Solvers are sent to nodes, one after the other, and nothing else happens. -/
inductive Moves : State → List (SockId × NodeId) → State → Prop
  | done {s t : State} : Quiet s t → Moves s [] t
  | move {s s' t u : State} {x : SockId} {a c : NodeId} {m : Sent} {l : List (SockId × NodeId)} :
      Quiet s s' → (s'.solver x).node = some a → Solver.MoveMessage s' x a c m →
      Quiet ((Act.move x c m).apply s') t → Moves t l u → Moves s ((x, c) :: l) u

def Sent.moves (m : Sent) : Bool :=
  m.header.lookup Constant.command = some Constant.incremental

/-- The `incremental` commands among messages: to whom, and for which node. -/
def moves (sent : List Sent) : List (SockId × Option NodeId) :=
  (sent.filter Sent.moves).map fun m => (m.sock, m.about)

theorem Sent.moves_of_quiet {m : Sent} (h : m.places = false) : m.moves = false := by
  simp only [Sent.places, Bool.or_eq_false_iff] at h
  exact h.2

namespace Moves

variable {l l' : List (SockId × NodeId)}

theorem quiet (hq : Quiet s t) (h : Moves t l u) : Moves s l u := by
  cases h with
  | done h => exact .done (hq.trans h)
  | move h ha hm hmove hrest => exact .move (hq.trans h) ha hm hmove hrest

theorem append (h : Moves s l t) (h' : Moves t l' u) : Moves s (l ++ l') u := by
  induction h with
  | done hq => exact h'.quiet hq
  | move hq ha hm hmove _ ih => exact .move hq ha hm hmove (ih h')

theorem fixed (h : Moves s l t) : Fixed s t ∧ t.idleSolvers = s.idleSolvers := by
  induction h with
  | done hq => exact ⟨Fixed.quiet hq, hq.idleSolvers⟩
  | @move s s' t u x a c m l hq ha hm hmove _ ih =>
    have hact : Fixed s' ((Act.move x c m).apply s') := Fixed.act (.move x c m) s' trivial
    exact ⟨(((Fixed.quiet hq).trans hact).trans (Fixed.quiet hmove)).trans ih.1,
      ih.2.trans (hmove.idleSolvers.trans hq.idleSolvers)⟩

theorem node_move {x : SockId} {c : NodeId} {m : Sent}
    (hmove : Quiet ((Act.move x c m).apply s) t) (y : SockId) :
    (t.solver y).node = if y = x then some c else (s.solver y).node := by
  rw [hmove.node]
  by_cases hy : y = x
  · subst hy
    simp [Act.apply, State.modifySolver]
  · simp [Act.apply, State.modifySolver, hy]

/-- A solver that is sent somewhere is there at the end. -/
theorem node (h : Moves s l t) (hnodup : (l.map Prod.fst).Nodup) (y : SockId) :
    (∀ d, (y, d) ∈ l → (t.solver y).node = some d) ∧
      (y ∉ l.map Prod.fst → (t.solver y).node = (s.solver y).node) := by
  induction h with
  | done hq => exact ⟨fun _ h => absurd h List.not_mem_nil, fun _ => hq.node y⟩
  | @move s s' t u x a c m l hq ha hm hmove _ ih =>
    rw [List.map_cons, List.nodup_cons] at hnodup
    obtain ⟨hin, hout⟩ := ih hnodup.2
    have hnode := node_move hmove y
    constructor
    · intro d hd
      rcases List.mem_cons.mp hd with hd | hd
      · cases hd
        rw [hout hnodup.1, hnode, if_pos rfl]
      · exact hin d hd
    · intro hy
      rw [List.map_cons, List.mem_cons, not_or] at hy
      rw [hout hy.2, hnode, if_neg hy.1, hq.node]

/-- Every solver gets one command, for the node it is sent to. -/
theorem sent (h : Moves s l t) : ∃ ms, t.sent = s.sent ++ ms ∧
    moves ms = l.map fun e => (e.1, some e.2) := by
  have hnone (k : List Sent) (hk : ∀ m ∈ k, m.places = false) : k.filter Sent.moves = [] :=
    List.filter_eq_nil_iff.mpr fun m hm => by simp [Sent.moves_of_quiet (hk m hm)]
  induction h with
  | done hq =>
    obtain ⟨k, hk, hquiet⟩ := hq.sent
    exact ⟨k, hk, by rw [moves, hnone k hquiet]; rfl⟩
  | @move s s' t u x a c m l hq ha hm hmove _ ih =>
    obtain ⟨k, hk, hquiet⟩ := hq.sent
    obtain ⟨k', hk', hquiet'⟩ := hmove.sent
    obtain ⟨ms, hms, hmoves⟩ := ih
    refine ⟨k ++ m :: (k' ++ ms), ?_, ?_⟩
    · rw [hms, hk']
      simp [Act.apply, State.modifySolver, hk]
    · have hmoved : m.moves = true := decide_eq_true hm.command
      rw [moves] at hmoves ⊢
      rw [List.filter_append, hnone k hquiet, List.filter_cons_of_pos hmoved,
        List.filter_append, hnone k' hquiet', List.nil_append, List.nil_append, List.map_cons,
        hmoves, hm.sock, hm.about]
      rfl

end Moves

/-- The command that comes next could not be sent. -/
def Unsent (moving : List (SockId × NodeId)) (s : State) (e : Exn) (t : State) : Prop :=
  ∃ sent x c rest u, moving = sent ++ (x, c) :: rest ∧ Moves s sent u ∧
    Solver.incremental x c u = (.error e, t)

theorem Unsent.later {l l' : List (SockId × NodeId)} {e : Exn} (hl : Moves s l t)
    (h : Unsent l' t e u) : Unsent (l ++ l') s e u := by
  obtain ⟨sent, x, c, rest, v, rfl, hsent, hrun⟩ := h
  exact ⟨l ++ sent, x, c, rest, v, by rw [List.append_assoc], hl.append hsent, hrun⟩

section Paths

variable {h : Heap} {n a : Nat}

end Paths

section Spare

variable {m counter : Int} {idle xs : List SockId}

theorem spare_sublist : (spare m idle counter xs).Sublist xs := by
  induction xs generalizing counter with
  | nil => exact .slnil
  | cons x xs ih =>
    rw [spare]
    split
    · exact ih.cons_cons x
    · exact ih.cons x

theorem not_idle_of_mem_spare {x : SockId} (hx : x ∈ spare m idle counter xs) : x ∉ idle := by
  induction xs generalizing counter with
  | nil => exact absurd hx List.not_mem_nil
  | cons y xs ih =>
    rw [spare] at hx
    split at hx
    · rename_i hc
      rcases List.mem_cons.mp hx with rfl | hx
      · exact hc.2.2
      · exact ih hx
    · exact ih hx

/-- As many are spared as are above the minimum, if so many are not idle. -/
theorem length_spare (hm : 0 ≤ m) :
    (spare m idle counter xs).length = min (xs.countP (· ∉ idle)) (counter - m).toNat := by
  induction xs generalizing counter with
  | nil => simp [spare]
  | cons x xs ih =>
    rw [spare, List.countP_cons]
    split
    · rename_i hc
      rw [List.length_cons, ih, if_pos (by simpa using hc.2.2)]
      omega
    · rename_i hc
      rw [ih]
      by_cases hx : x ∈ idle
      · simp [hx]
      · have hle : counter ≤ m := by
          by_contra hlt
          exact hc ⟨hm, by omega, hx⟩
        omega

end Spare

/-- The solvers that are movable once the nodes of a list were looked at. -/
structure Movable (s : State) (nodes : List NodeId) (l : List SockId) : Prop where
  idle : ∀ x ∈ l, x ∉ s.idleSolvers
  placed : ∀ x ∈ l, ∃ q ∈ nodes, x ∈ s.solvers (.at (some q))
  nodup : l.Nodup
  count : ∀ q ∈ nodes, (l.filter fun x => (s.solver x).node = some q).length =
    min ((s.solvers (.at (some q))).countP (· ∉ s.idleSolvers))
      ((s.solvers (.at (some q))).length - s.config.portfolioMin).toNat

theorem State.mem_solversAt {x : SockId} {q : NodeId} :
    x ∈ s.solvers (.at (some q)) ↔ s.Connected x ∧ (s.solver x).node = some q := by
  simp [State.mem_solvers, Which.holds]

theorem nodup_solvers (hrlist : s.rlist.Nodup) (w : Which) : (s.solvers w).Nodup :=
  hrlist.filter _

theorem Movable.next {nodes : List NodeId} {l xs : List SockId} {q : NodeId}
    (h : Movable s nodes l) (hrlist : s.rlist.Nodup) (hmin : 0 ≤ s.config.portfolioMin)
    (hq : q ∉ nodes) (hxs : xs.Perm (s.solvers (.at (some q)))) :
    Movable s (nodes ++ [q])
      (l ++ spare s.config.portfolioMin s.idleSolvers xs.length xs) := by
  have hspare : (spare s.config.portfolioMin s.idleSolvers xs.length xs).Nodup :=
    (hxs.nodup_iff.mpr (nodup_solvers hrlist _)).sublist spare_sublist
  have hon : ∀ x ∈ spare s.config.portfolioMin s.idleSolvers xs.length xs,
      (s.solver x).node = some q :=
    fun x hx => (State.mem_solversAt.mp (hxs.mem_iff.mp (spare_sublist.subset hx))).2
  refine ⟨?_, ?_, ?_, ?_⟩
  · intro x hx
    rcases List.mem_append.mp hx with hx | hx
    · exact h.idle x hx
    · exact not_idle_of_mem_spare hx
  · intro x hx
    rcases List.mem_append.mp hx with hx | hx
    · obtain ⟨q', hq', hxq⟩ := h.placed x hx
      exact ⟨q', List.mem_append_left _ hq', hxq⟩
    · exact ⟨q, by simp, hxs.mem_iff.mp (spare_sublist.subset hx)⟩
  · refine List.nodup_append.mpr ⟨h.nodup, hspare, fun x hx y hy heq => ?_⟩
    obtain ⟨q', hq', hxq⟩ := h.placed x hx
    have hyq := hon y hy
    rw [← heq, (State.mem_solversAt.mp hxq).2] at hyq
    exact hq (Option.some.inj hyq ▸ hq')
  · intro q' hq'
    rw [List.filter_append, List.length_append]
    rcases List.mem_append.mp hq' with hq' | hq'
    · have hne : q' ≠ q := fun heq => hq (heq ▸ hq')
      have hnone : (spare s.config.portfolioMin s.idleSolvers xs.length xs).filter
          (fun x => (s.solver x).node = some q') = [] :=
        List.filter_eq_nil_iff.mpr fun x hx => by simp [hon x hx, hne.symm]
      rw [hnone, h.count q' hq', List.length_nil, Nat.add_zero]
    · obtain rfl := List.mem_singleton.mp hq'
      have hnone : l.filter (fun x => (s.solver x).node = some q') = [] := by
        refine List.filter_eq_nil_iff.mpr fun x hx => ?_
        obtain ⟨r, hr, hxr⟩ := h.placed x hx
        have hne : r ≠ q' := fun heq => hq (heq ▸ hr)
        simp [(State.mem_solversAt.mp hxr).2, hne]
      have hall : (spare s.config.portfolioMin s.idleSolvers xs.length xs).filter
          (fun x => (s.solver x).node = some q') =
            spare s.config.portfolioMin s.idleSolvers xs.length xs :=
        List.filter_eq_self.mpr fun x hx => by simp [hon x hx]
      rw [hnone, hall, length_spare hmin, List.length_nil, Nat.zero_add, hxs.countP_eq,
        hxs.length_eq]

theorem Movable.quiet {nodes : List NodeId} {l : List SockId} (h : Movable t nodes l)
    (hq : Quiet s t) : Movable s nodes l := by
  refine ⟨?_, ?_, h.nodup, ?_⟩
  · simpa only [hq.idleSolvers] using h.idle
  · simpa only [hq.solvers] using h.placed
  · simpa only [hq.solvers, hq.idleSolvers, hq.node, hq.portfolioMin] using h.count

section Kept

variable {p q : NodeId} {childs : List NodeId} {l : List SockId} {ps : List (SockId × NodeId)}

end Kept

/-- In the turn of the event, partitions of `p` have arrived and `entrust` spreads solvers over
them in state `t`. -/
def Event.Spreads (ev : Event) (s : State) (p : NodeId) (t : State) : Prop :=
  ev.ready s ∧ ∃ u v i fuel r, receive ev s = (.ok (some (some (.node p))), u) ∧
    attend u = (.ok (some i), v) ∧ survey fuel i v = (.ok r, t)

theorem Event.Spreads.solving {ev : Event} {p : NodeId} (hs : Consistent s)
    (h : ev.Spreads s p t) : ∃ i, Solving i t ∧ (PNode.node p).Here i t := by
  obtain ⟨ready, u, v, i, fuel, r, hreceive, hattend, hsurvey⟩ := h
  have received : Runs (Act.Received True ev s) False (receive ev) (ev.Brings s) s :=
    runs_receive hs
  obtain ⟨hpath, hbrings⟩ := wp_ok received hreceive
  have hu : Consistent u := hs.path (fun _ _ ha => ha.1) hpath
  have attended : Runs (Act.Entrusted True u.idleSolvers) True attend (Attended u) u :=
    runs_attend hu rfl (.inl trivial)
  obtain ⟨hv, hfix, -⟩ := (wp_ok attended hattend).2 i rfl
  have surveyed : Runs (Act.Inside True) True (survey fuel i)
      (fun _ _ => True) v := (runs_survey hv (.inl trivial)).mono fun _ _ _ _ => trivial
  have hpath' : Path (Act.Inside True) v t := (wp_ok surveyed hsurvey).1
  refine ⟨i, hv.path hpath', ?_⟩
  have hhere : (PNode.node p).Here i u :=
    hbrings.here ready hu rfl (hfix.current.symm.trans hv.current)
  exact hhere.fixed (hfix.trans (Fixed.path hpath'))

end Smts.Server
