import Smts.Server.Standing

namespace Smts.Server

open Smts.Lib Smts.Lib.Prog

/-- The messages to one solver. -/
def mail (x : SockId) (l : List Sent) : List Sent := l.filter fun m => m.sock = x

section Mail

variable {x : SockId} {l k : List Sent} {m : Sent}

theorem mail_append (l k : List Sent) : mail x (l ++ k) = mail x l ++ mail x k :=
  List.filter_append ..

theorem mail_own (h : m.sock = x) : mail x [m] = [m] := by simp [mail, h]

theorem mail_other (h : m.sock ≠ x) : mail x [m] = [] := by simp [mail, h]

end Mail

namespace Deed

variable {s t u v : State} {x : SockId} {ev : Event}

theorem persists (h : Deed s t) : s.heap.Persists t.heap := by
  cases h with
  | calm h =>
    cases h with
    | rest h => exact .of_eq h.forest h.label
    | print | write => exact .refl _
  | verdict | stop | solve | move | ask => exact .refl _
  | grow h => exact h

theorem sent (h : Deed s t) : ∃ l, t.sent = s.sent ++ l ∧ ∀ m ∈ l, m.fits = true := by
  have none {u : State} (sent : u.sent = s.sent) :
      ∃ l, u.sent = s.sent ++ l ∧ ∀ m ∈ l, m.fits = true :=
    ⟨[], by rw [sent, List.append_nil], fun _ hm => absurd hm List.not_mem_nil⟩
  have one {m : Sent} (fits : m.fits = true) :
      ∃ l, s.sent ++ [m] = s.sent ++ l ∧ ∀ m ∈ l, m.fits = true :=
    ⟨[m], rfl, fun _ hm => List.mem_singleton.mp hm ▸ fits⟩
  cases h with
  | calm h =>
    cases h with
    | rest h => exact none h.sent
    | print => exact none rfl
    | write _ fits => exact one fits
  | verdict | grow => exact none rfl
  | stop _ fits => exact one fits
  | solve _ _ fits => exact one fits
  | move _ _ fits => exact one fits
  | ask _ _ fits => exact one fits

theorem kind (h : Deed s t) (hx : t.kind x = .solver) : s.kind x = .solver := by
  cases h with
  | calm h =>
    cases h with
    | rest h => exact h.kind x hx
    | print | write => exact hx
  | verdict | stop | solve | move | ask | grow => exact hx

theorem isOr (h : Deed s t) {n : NodeId} (hn : s.heap.size ≤ n) (hlt : n < t.heap.size) :
    t.heap.isOr n = true := by
  cases h with
  | calm h =>
    cases h with
    | rest h =>
      rw [h.forest] at hlt
      exact absurd hlt (Nat.not_lt.mpr hn)
    | print | write => exact absurd hlt (Nat.not_lt.mpr hn)
  | verdict | stop | solve | move | ask => exact absurd hlt (Nat.not_lt.mpr hn)
  | grow _ _ new => exact new n hn hlt

end Deed

section Turn

variable {s t u v : State} {x : SockId} {ev : Event}

theorem deeds_persist (h : Relation.ReflTransGen Deed u v) : u.heap.Persists v.heap := by
  induction h with
  | refl => exact .refl _
  | tail _ hd ih => exact ih.trans hd.persists

theorem deeds_sent (h : Relation.ReflTransGen Deed u v) :
    ∃ l, v.sent = u.sent ++ l ∧ ∀ m ∈ l, m.fits = true := by
  induction h with
  | refl => exact ⟨[], (List.append_nil _).symm, fun _ hm => absurd hm List.not_mem_nil⟩
  | tail _ hd ih =>
    obtain ⟨l, hl, hfl⟩ := ih
    obtain ⟨k, hk, hfk⟩ := hd.sent
    exact ⟨l ++ k, by rw [hk, hl, List.append_assoc],
      fun m hm => (List.mem_append.mp hm).elim (hfl m) (hfk m)⟩

theorem deeds_kind (h : Relation.ReflTransGen Deed u v) (hx : v.kind x = .solver) :
    u.kind x = .solver := by
  induction h with
  | refl => exact hx
  | tail _ hd ih => exact ih (hd.kind hx)

/-- The AND nodes are there before `entrust` is called. -/
theorem deeds_isOr (h : Relation.ReflTransGen Deed u v) {n : NodeId} (hn : u.heap.size ≤ n)
    (hlt : n < v.heap.size) : v.heap.isOr n = true := by
  induction h with
  | refl => exact absurd hlt (Nat.not_lt.mpr hn)
  | @tail w v _ hd ih =>
    by_cases hw : n < w.heap.size
    · rw [Heap.isOr, hd.persists.label n hw]
      exact ih hw
    · exact hd.isOr (Nat.le_of_not_lt hw) hlt

section Messages

variable {n : NodeId} {parameters : Header} {smt query : String}

theorem Solver.solveSent_command : (Solver.solveSent s x n parameters smt query).header.lookup
    Constant.command = some Constant.solve := by
  simp [Solver.solveSent, Solver.header, Constant.command, Constant.name, Constant.node,
    Constant.query, Constant.maxMemory]

theorem Solver.moveSent_command {a : NodeId} : (Solver.moveSent s x a n smt query).header.lookup
    Constant.command = some Constant.incremental := rfl

theorem Solver.solveSent_keyed :
    (Solver.solveSent s x n parameters smt query).keyed = true := by
  simp [Sent.keyed, Header.has, Solver.solveSent, Solver.header, Constant.command, Constant.name,
    Constant.node, Constant.query, Constant.maxMemory]

theorem Sent.places_of_command {m : Sent}
    (h : m.header.lookup Constant.command = some Constant.solve ∨
      m.header.lookup Constant.command = some Constant.incremental) : m.places = true := by
  rcases h with h | h <;> simp [Sent.places, h]

end Messages

theorem put_node (s : State) (x : SockId) (n : Option NodeId) :
    ((s.put x n).solver x).node = n := by
  simp [State.put, State.modifySolver]

theorem put_other {y : SockId} (h : y ≠ x) (n : Option NodeId) :
    ((s.put y n).solver x).node = (s.solver x).node := by
  simp [State.put, State.modifySolver, h.symm]

/-- After a deed the client of `x` can still follow what it is sent.  `k` is the forest at the
end of the turn. -/
theorem Deed.stands {k : Heap} {base : List Sent} {lossy : Prop} (hd : Deed s t)
    (hk : s.heap.Persists k) (hlt : ∀ n, k.Listed n → n < s.heap.size)
    (points : ∀ m ∈ t.sent, m.places = true → ∃ n, m.Points k n)
    (hs : k.Stands lossy base (s.solver x).node) :
    ∃ l, t.sent = s.sent ++ l ∧ k.Stands lossy (base ++ mail x l) (t.solver x).node ∧
      landed (s.solver x).node (mail x l) = (t.solver x).node := by
  have same {u : State} (sent : u.sent = s.sent) (node : (u.solver x).node = (s.solver x).node) :
      ∃ l, u.sent = s.sent ++ l ∧ k.Stands lossy (base ++ mail x l) (u.solver x).node ∧
        landed (s.solver x).node (mail x l) = (u.solver x).node :=
    ⟨[], by rw [sent, List.append_nil],
      by rw [node, mail, List.filter_nil, List.append_nil]; exact hs, node.symm⟩
  -- a message to another solver
  have other {u : State} {m : Sent} (hm : m.sock ≠ x) (sent : u.sent = s.sent ++ [m])
      (node : (u.solver x).node = (s.solver x).node) :
      ∃ l, u.sent = s.sent ++ l ∧ k.Stands lossy (base ++ mail x l) (u.solver x).node ∧
        landed (s.solver x).node (mail x l) = (u.solver x).node :=
    ⟨[m], sent, by rw [node, mail_other hm, List.append_nil]; exact hs,
      by rw [mail_other hm]; exact node.symm⟩
  have own {u : State} {m : Sent} (hm : m.sock = x) (sent : u.sent = s.sent ++ [m])
      (suits : k.Suits (s.solver x).node m (u.solver x).node) :
      ∃ l, u.sent = s.sent ++ l ∧ k.Stands lossy (base ++ mail x l) (u.solver x).node ∧
        landed (s.solver x).node (mail x l) = (u.solver x).node :=
    ⟨[m], sent, by rw [mail_own hm]; exact .next hs suits, by rw [mail_own hm]; exact suits.lands⟩
  cases hd with
  | calm h =>
    cases h with
    | rest h => exact same h.sent (h.node x)
    | print => exact same rfl rfl
    | @write m h _ =>
      by_cases hm : m.sock = x
      · exact own hm rfl (.other h)
      · exact other hm rfl rfl
  | verdict | grow => exact same rfl rfl
  | @stop y a h _ =>
    by_cases hy : y = x
    · subst hy
      refine own rfl rfl ?_
      rw [h, show _ = none from put_node s y none]
      exact .stop rfl
    · exact other hy rfl (put_other hy none)
  | @solve y n parameters smt query h script _ =>
    by_cases hy : y = x
    · subst hy
      have command : (Solver.solveSent s y n parameters smt query).header.lookup Constant.command =
        some Constant.solve := Solver.solveSent_command
      obtain ⟨n', hn'⟩ := points _ (List.mem_append_right _ (List.mem_singleton_self _))
        (Sent.places_of_command (.inl command))
      obtain rfl : n = n' := Option.some.inj hn'.about
      refine own rfl rfl ?_
      rw [h, show _ = some n from put_node s y n]
      exact .solve command Solver.solveSent_keyed hn'.toNames (hn'.node command) (hn'.script command)
    · exact other hy rfl (put_other hy n)
  | @move y a n smt query h script _ =>
    by_cases hy : y = x
    · subst hy
      have command : (Solver.moveSent s y a n smt query).header.lookup Constant.command =
        some Constant.incremental := Solver.moveSent_command
      obtain ⟨n', hn'⟩ := points _ (List.mem_append_right _ (List.mem_singleton_self _))
        (Sent.places_of_command (.inr command))
      obtain rfl : n = n' := Option.some.inj hn'.about
      refine own rfl rfl ?_
      rw [h] at hs
      have ha : k.Listed a := hs.listed a rfl
      have hsa := hlt a ha
      have hsn := hlt n hn'.listed
      rw [h, show _ = some n from put_node s y n]
      have hroot : s.heap.root a < s.heap.size := (hk.listed hsa ha).root_lt
      have hname : (Solver.moveSent s y a n smt query).header.lookup Constant.name =
        some (s.heap.label (s.heap.root a)).name := rfl
      refine .move command rfl hn'.toNames (hn'.node_ command) ?_ fun hr => ?_
      · rw [hk.root hsa, hk.label _ hroot]
        exact Option.some.inj (hn'.name.symm.trans hname)
      rw [hk.root hsa] at hr ⊢
      have hread := hk.readable hroot hr
      rw [hk.root hsn, hk.stack hsn, hk.stack hsa]
      exact exec_move hread.smt hread.plain (hk.listed hsa ha) (hk.listed hsn hn'.listed) rfl script
    · exact other hy rfl (put_other hy n)
  | @ask y a j h _ =>
    by_cases hy : y = x
    · subst hy
      rw [h] at hs
      have ha : k.Listed a := hs.listed a rfl
      have hsa := hlt a ha
      refine own rfl rfl ?_
      rw [h]
      refine .ask rfl rfl ⟨rfl, ha, ?_⟩ ?_ rfl
      · rw [hk.root hsa, hk.label _ (hk.listed hsa ha).root_lt]
        rfl
      · rw [(hk.evolves.path_kept hsa ha.2.2).2]
        rfl
    · exact other hy rfl rfl

/-- The client of `x` can follow all that `entrust` sends, and is then where the server takes it to
be. -/
theorem deeds_stands {k : Heap} {base : List Sent} {lossy : Prop}
    (hd : Relation.ReflTransGen Deed u v) (hk : v.heap.Persists k)
    (hlt : ∀ n, k.Listed n → n < u.heap.size)
    (points : ∀ m ∈ v.sent, m.places = true → ∃ n, m.Points k n)
    (hs : k.Stands lossy base (u.solver x).node) :
    ∃ l, v.sent = u.sent ++ l ∧ k.Stands lossy (base ++ mail x l) (v.solver x).node ∧
      landed (u.solver x).node (mail x l) = (v.solver x).node := by
  induction hd using Relation.ReflTransGen.head_induction_on generalizing base with
  | refl => exact ⟨[], (List.append_nil _).symm, by simpa [mail] using hs, rfl⟩
  | @head s w hstep hrest ih =>
    have hw : w.heap.Persists k := (deeds_persist hrest).trans hk
    obtain ⟨l', hl', -⟩ := deeds_sent hrest
    have hpoints : ∀ m ∈ w.sent, m.places = true → ∃ n, m.Points k n := fun m hm =>
      points m (hl' ▸ List.mem_append_left _ hm)
    obtain ⟨l, hl, hs', hland⟩ := hstep.stands (hstep.persists.trans hw) hlt hpoints hs
    obtain ⟨r, hr, hsr, hlandr⟩ :=
      ih (fun n hn => Nat.lt_of_lt_of_le (hlt n hn) hstep.persists.evolves.size) hs'
    refine ⟨l ++ r, by rw [hr, hl, List.append_assoc], ?_, ?_⟩
    · rw [mail_append, ← List.append_assoc]
      exact hsr
    · rw [mail_append, landed_append, hland, hlandr]

/-- Up to the call of `entrust` only a client that has gone is steered.  A solver that has joined
is on no node. -/
theorem Intake.steady (h : Intake ev s u) (hnew : s.kind s.nextSock ≠ .solver)
    (hx : u.kind x = .solver) (open_ : ev ≠ .closed x) :
    ∃ l, u.sent = s.sent ++ l ∧ (∀ m ∈ mail x l, m.steers = false) ∧
      (s.kind x = .solver ∧ (u.solver x).node = (s.solver x).node ∨
        s.kind x ≠ .solver ∧ (u.solver x).node = none) := by
  have key : ∃ l, u.sent = s.sent ++ l ∧ (∀ m ∈ mail x l, m.steers = false) ∧
      (x ≠ s.nextSock → (u.solver x).node = (s.solver x).node ∧
        (u.kind x = .solver → s.kind x = .solver)) ∧
      (x = s.nextSock → u.kind x = .solver → s.kind x = .solver ∨ (u.solver x).node = none) := by
    clear hx
    obtain ⟨-, trail, -, -⟩ := h
    induction trail with
    | refl =>
      exact ⟨[], (List.append_nil _).symm, fun m hm => absurd hm List.not_mem_nil,
        fun _ => ⟨rfl, fun h => h⟩, fun _ h => .inl h⟩
    | @tail v w _ hstep ih =>
      obtain ⟨l, hl, hcalm, hold, hborn⟩ := ih
      have same (sent : w.sent = v.sent) (node : (w.solver x).node = (v.solver x).node)
          (kind : w.kind x = .solver → v.kind x = .solver) : ∃ l, w.sent = s.sent ++ l ∧
          (∀ m ∈ mail x l, m.steers = false) ∧
          (x ≠ s.nextSock → (w.solver x).node = (s.solver x).node ∧
            (w.kind x = .solver → s.kind x = .solver)) ∧
          (x = s.nextSock → w.kind x = .solver → s.kind x = .solver ∨ (w.solver x).node = none) :=
        ⟨l, sent.trans hl, hcalm, fun hne => ⟨node.trans (hold hne).1, fun h => (hold hne).2 (kind h)⟩,
          fun he h => (hborn he (kind h)).imp_right node.trans⟩
      cases hstep with
      | calm h =>
        cases h with
        | rest h => exact same h.sent (h.node x) (h.kind x)
        | print => exact same rfl rfl fun h => h
        | @write m h _ =>
          refine ⟨l ++ [m], by rw [hl, List.append_assoc], fun m' hm' => ?_, hold, hborn⟩
          rw [mail_append, List.mem_append] at hm'
          refine hm'.elim (hcalm m') fun hm' => ?_
          obtain rfl := List.mem_singleton.mp (List.mem_of_mem_filter hm')
          exact h
      | tree node kind heap sent => exact same sent (node x) fun h => kind ▸ h
      | @gone y k hev own rest =>
        have hy : y ≠ x := by
          rintro rfl
          exact open_ hev
        have hk : mail x k = [] := List.filter_eq_nil_iff.mpr fun m hm => by simp [(own m hm).1, hy]
        refine ⟨l ++ k, by rw [rest.sent, hl, List.append_assoc], ?_, fun hne => ⟨?_, fun h => ?_⟩,
          fun he h => ?_⟩
        · rw [mail_append, hk, List.append_nil]
          exact hcalm
        · exact ((rest.node x).trans (put_other hy none)).trans (hold hne).1
        · exact (hold hne).2 (rest.kind x h)
        · exact (hborn he (rest.kind x h)).imp_right fun hn =>
            ((rest.node x).trans (put_other hy none)).trans hn
      | born rest =>
        refine ⟨l, rest.sent.trans hl, hcalm, fun hne => ⟨?_, fun h => ?_⟩, fun he _ => .inr ?_⟩
        · exact ((rest.node x).trans (put_other hne.symm none)).trans (hold hne).1
        · have := rest.kind x h
          simp only [Function.update_of_ne hne] at this
          exact (hold hne).2 this
        · exact (rest.node x).trans (he ▸ put_node _ _ _)
  obtain ⟨l, hl, hcalm, hold, hborn⟩ := key
  refine ⟨l, hl, hcalm, ?_⟩
  by_cases he : x = s.nextSock
  · subst he
    exact .inr ⟨hnew, (hborn rfl hx).resolve_left hnew⟩
  · exact .inl ⟨(hold he).2 hx, (hold he).1⟩

theorem Intake.fits (h : Intake ev s u) (hs : ∀ m ∈ s.sent, m.fits = true) :
    ∀ m ∈ u.sent, m.fits = true := by
  obtain ⟨-, trail, -, -⟩ := h
  induction trail with
  | refl => exact hs
  | @tail v w _ hstep ih =>
    have more {l : List Sent} (sent : w.sent = v.sent ++ l) (hl : ∀ m ∈ l, m.fits = true) :
        ∀ m ∈ w.sent, m.fits = true := fun m hm =>
      (List.mem_append.mp (sent ▸ hm)).elim (ih m) (hl m)
    have same (sent : w.sent = v.sent) : ∀ m ∈ w.sent, m.fits = true := fun m hm => ih m (sent ▸ hm)
    cases hstep with
    | calm h =>
      cases h with
      | rest h => exact same h.sent
      | print => exact same rfl
      | write _ fits => exact more rfl fun _ hm => List.mem_singleton.mp hm ▸ fits
    | tree _ _ _ sent => exact same sent
    | gone _ own rest => exact more rest.sent fun m hm => (own m hm).2.2
    | born rest => exact same rest.sent

theorem Fails.rest {e : Exn} (h : Fails e v t) : t.heap.toForest = v.heap.toForest ∧
    t.heap.label = v.heap.label ∧ (∀ n, t.heap.status n = v.heap.status n) ∧ t.sent = v.sent ∧
    t.out = v.out ∧ (∀ i, t.root i = v.root i) ∧ ∀ x, t.kind x = .solver → v.kind x = .solver := by
  obtain ⟨y, h⟩ := h
  cases h with
  | stop _ _ rest =>
    exact ⟨rest.forest, rest.label, rest.status, rest.sent, rest.out, rest.root, rest.kind⟩
  | solve _ rest =>
    exact ⟨rest.forest, rest.label, rest.status, rest.sent, rest.out, rest.root, rest.kind⟩

section Ends

variable {r : Except Exn Unit}

/-- Whatever is on a socket could be put into a frame. -/
def State.Packed (s : State) : Prop := ∀ m ∈ s.sent, m.fits = true

theorem State.Packed.step (hs : s.Packed) (hcons : Consistent s) (h : Ends s ev r t) :
    t.Packed := by
  obtain ⟨u, v, hin, hd, hf, -⟩ := h.phases hcons
  obtain ⟨l, hl, hfits⟩ := deeds_sent hd
  have hv : v.Packed := fun m hm =>
    (List.mem_append.mp (hl ▸ hm)).elim (hin.fits hs m) (hfits m)
  rcases hf with rfl | ⟨e, -, hf⟩
  · exact hv
  · exact fun m hm => hv m (hf.rest.2.2.2.1 ▸ hm)

/-- The node that a client which has read all it was sent knows, after a turn that ends so: that of
its solver, or it has missed that the solver has been taken off a node or put on one. -/
inductive State.Tells (t : State) (r : Except Exn Unit) (x : SockId) : Option NodeId → Prop
  | agrees {st : Option NodeId} (node : (t.solver x).node = st) : Tells t r x st
  | stopped {a : NodeId} (node : (t.solver x).node = none)
      (why : r = .error .osError ∨ t.sock x = none ∨ ¬ t.heap.Short a) : Tells t r x (some a)
  | placed {n : NodeId} (node : (t.solver x).node = some n) : Tells t r x none

theorem Fails.tells {e : Exn} (h : Fails e v t) (x : SockId) (hlt : ∀ a, (v.solver x).node = some a →
    a < v.heap.size ∧ t.heap.Attached a) : t.Tells (.error e) x (v.solver x).node := by
  have rest := h.rest
  obtain ⟨y, h⟩ := h
  by_cases hy : y = x
  · subst hy
    cases h with
    | @stop a node why rest' =>
      rw [node]
      refine .stopped ((rest'.node y).trans (put_node v y none)) ?_
      refine why.imp (congrArg _) (Or.imp_right fun unfit short => ?_)
      have same : v.heap.Persists t.heap := .of_eq rest.1 rest.2.1
      obtain ⟨ha, hatt⟩ := hlt a node
      have hvshort : v.heap.Short a := by
        obtain ⟨hname, hpath⟩ := short
        rw [same.root ha, rest.2.1] at hname
        rw [(same.evolves.path_kept ha hatt).2] at hpath
        exact ⟨hname, hpath⟩
      rw [Solver.stopSent_fits hvshort] at unfit
      cases unfit
    | @solve n node rest' =>
      rw [node]
      exact .placed ((rest'.node y).trans (put_node v y (some n)))
  · cases h with
    | stop _ _ rest' => exact .agrees ((rest'.node x).trans (put_other hy none))
    | solve _ rest' => exact .agrees ((rest'.node x).trans (put_other hy _))

/-- The commands of a turn to a solver whose connection was open.  `base` is what it has got
before. -/
theorem Ends.stands {base : List Sent} {lossy : Prop} (h : Ends s ev r t) (hcons : Consistent s)
    (hpoint : s.Pointed) (hnew : s.kind s.nextSock ≠ .solver) (hx : t.kind x = .solver)
    (open_ : ev ≠ .closed x) (old : s.kind x = .solver → s.heap.Stands lossy base (s.solver x).node)
    (new : s.kind x ≠ .solver → base = []) :
    ∃ l st, t.sent = s.sent ++ l ∧ t.heap.Stands lossy (base ++ mail x l) st ∧
      landed (if s.kind x = .solver then (s.solver x).node else none) (mail x l) = st ∧
      t.Tells r x st := by
  obtain ⟨u, v, hin, hd, hf, -⟩ := h.phases hcons
  have hpoints : t.Pointed := hpoint.step hcons h.step
  have path : Path (Act.Caused True ev s) s t := h.step.path hcons (.inl trivial)
  have hg : s.heap.Grows t.heap := (Path.grows (fun _ _ ha => ha.1.1) path hcons.seated).2
  have hvt : v.heap.Persists t.heap ∧ t.sent = v.sent ∧ v.kind x = .solver := by
    rcases hf with rfl | ⟨e, -, hf⟩
    · exact ⟨.refl _, rfl, hx⟩
    · obtain ⟨forest, label, _, sent, _, _, kind⟩ := hf.rest
      exact ⟨.of_eq forest label, sent, kind x hx⟩
  obtain ⟨hk, hsent, hvx⟩ := hvt
  obtain ⟨l, hl, hcalm, hnode⟩ := hin.steady hnew (deeds_kind hd hvx) open_
  have hbase : t.heap.Stands lossy base (u.solver x).node := by
    rcases hnode with ⟨hsx, hn⟩ | ⟨hsx, hn⟩
    · rw [hn]
      exact (old hsx).grow hg
    · rw [hn, new hsx]
      exact .start
  have hbefore : (if s.kind x = .solver then (s.solver x).node else none) = (u.solver x).node := by
    rcases hnode with ⟨hsx, hn⟩ | ⟨hsx, hn⟩
    · rw [if_pos hsx, hn]
    · rw [if_neg hsx, hn]
  have hlt (n : NodeId) (hn : t.heap.Listed n) : n < u.heap.size := by
    by_contra hge
    have hor : v.heap.isOr n = true := by
      refine deeds_isOr hd (Nat.le_of_not_lt hge) (Nat.lt_of_lt_of_le hn.1 ?_)
      rcases hf with rfl | ⟨_, -, hf⟩
      · exact Nat.le_refl _
      · rw [hf.rest.1]
    have hand := hn.2.1
    rw [Heap.isAnd_iff, Heap.isOr] at hand
    rcases hf with rfl | ⟨_, -, hf⟩
    · exact absurd (hor.symm.trans hand) (by simp)
    · rw [hf.rest.2.1] at hand
      exact absurd (hor.symm.trans hand) (by simp)
  obtain ⟨k, hk', hst, hland⟩ := deeds_stands hd hk hlt (hsent ▸ hpoints) (hbase.calm hcalm)
  refine ⟨l ++ k, (v.solver x).node, by rw [hsent, hk', hl, List.append_assoc], ?_, ?_, ?_⟩
  · rw [mail_append, ← List.append_assoc]
    exact hst
  · rw [mail_append, landed_append, hbefore, landed_calm hcalm, hland]
  · rcases hf with rfl | ⟨e, rfl, hf⟩
    · exact .agrees rfl
    · refine hf.tells x fun a ha => ?_
      have hlisted : t.heap.Listed a := hst.listed a ha
      have hav : a < v.heap.size :=
        Nat.lt_of_lt_of_le (hlt a hlisted) (deeds_persist hd).evolves.size
      exact ⟨hav, hlisted.2.2⟩

end Ends

end Turn

end Smts.Server
