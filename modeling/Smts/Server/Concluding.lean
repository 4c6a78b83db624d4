import Smts.Server.Spreading

namespace Smts.Server

open Smts.Lib Smts.Lib.Prog

variable {hindered out : Prop} {idle : List SockId} {i : InstId} {s t : State}

namespace State

/-- The socket is connected, and the message can be packed. -/
def Takes (s : State) (x : SockId) (header : Header) : Prop :=
  (s.sock x).any s.isOpen = true ∧ header.fits "" = true

/-- `entrust` reports the instance as stuck and does not conclude it. -/
def Stuck (s : State) (i : InstId) : Prop :=
  s.heap.status (s.root i) = .unknown ∧ (s.heap.attrs (s.root i)).partitioning = true ∧
    s.heap.childeren (s.root i) = .ok [] ∧ s.terminate = false

/-- The lemma server that a conclusion will pick. -/
def concludingLemmaServer (s : State) : Option SockId :=
  (s.world.env.order (s.world.orderTick + 2)
    (s.rlist.filter fun x => s.kind x = .lemmaServer)).head?

/-- The header of `LemmaServer.reset`. -/
def resetHeader (s : State) (root : NodeId) : Header :=
  [(Constant.name, (s.heap.label root).name), (Constant.node, render (s.heap.path root)),
    (Constant.lemmas, "0")]

end State

/-- The solvers can be stopped, one after the other. -/
structure Answering (s : State) (xs : List SockId) : Prop where
  takes : ∀ x ∈ xs, ∃ n, (s.solver x).node = some n ∧
    s.Takes x (Solver.header s Constant.stop n)
  writeOk : ∀ k, k < xs.length → s.world.env.writeOk (s.world.writeTick + k) = true

/-- All solvers have a node and can be stopped, and the lemma server can be reset. -/
structure Unhindered (s : State) (i : InstId) : Prop where
  answering : Answering s (s.solvers .all)
  lemmas : ∀ l, s.concludingLemmaServer = some l → s.Takes l (s.resetHeader (s.root i)) ∧
    s.world.env.writeOk (s.world.writeTick + (s.solvers .all).length) = true

theorem wp_write_takes {x : SockId} {header : Header} {about : Option NodeId}
    {Q : Unit → State → Prop} {E : Exn → State → Prop}
    (sent : Q () { s with
      world := { s.world with writeTick := s.world.writeTick + 1 }
      sent := s.sent ++ [⟨x, header, "", about⟩] })
    (failed : ∀ e t, Quiet s t → e ≠ .noFuel →
      ¬ (s.Takes x header ∧ s.world.env.writeOk s.world.writeTick = true) → E e t) :
    wp (write x header "" about) Q E s := by
  cases hs : s.sock x with
  | none =>
    simp only [wp, write, hs]
    exact failed _ _ (.refl s) (by decide) fun h => by simp [State.Takes, hs] at h
  | some c =>
    by_cases hf : header.fits "" = true
    · by_cases ho : (s.isOpen c && s.world.env.writeOk s.world.writeTick) = true
      · simpa only [wp, write, hs, hf, ho, if_true] using sent
      · simp only [wp, write, hs, hf, ho, if_true]
        refine failed _ _ (Quiet.of_rest rfl rfl rfl rfl (.refl _) (fun _ => rfl) (fun _ => rfl)
          fun _ => rfl) (by decide) fun h => ho ?_
        simpa [State.Takes, hs, hf] using h
    · simp only [wp, write, hs, hf]
      exact failed _ _ (.refl s) (by decide) fun h => hf h.1.2

/-- The actions of a conclusion that fails. -/
def Act.Leaves (a : Act) (_ : State) : Prop := a = .quiet ∨ ∃ x, a = .leave x

/-- The state after all of `xs` have been stopped. -/
def State.released (s : State) (xs : List SockId) (l : List Sent) : State :=
  { s with
    solver := fun y => if y ∈ xs then Solver.reset (s.solver y) else s.solver y
    world := { s.world with writeTick := s.world.writeTick + xs.length }
    sent := s.sent ++ l }

theorem State.released_nil (s : State) : s.released [] [] = s := by
  simp [State.released]

/-- The state after `x` has been stopped. -/
def State.stopped (s : State) (x : SockId) (m : Sent) : State :=
  { s with
    solver := Function.update s.solver x (Solver.reset (s.solver x))
    world := { s.world with writeTick := s.world.writeTick + 1 }
    sent := s.sent ++ [m] }

theorem State.released_cons {x : SockId} {xs : List SockId} (hx : x ∉ xs) (m : Sent)
    (l : List Sent) : (s.stopped x m).released xs l = s.released (x :: xs) (m :: l) := by
  have hsolver :
      ((s.stopped x m).released xs l).solver = (s.released (x :: xs) (m :: l)).solver := by
    funext y
    simp only [State.released, State.stopped, List.mem_cons, Function.update_apply]
    by_cases hy : y = x
    · simp [hy, hx]
    · simp [hy]
  have htick : (s.stopped x m).world.writeTick + xs.length =
      s.world.writeTick + (x :: xs).length := by
    rw [List.length_cons]
    exact Nat.add_right_comm _ _ _
  have hsent : (s.stopped x m).sent ++ l = s.sent ++ m :: l := List.append_cons _ _ _ ▸ rfl
  simp only [State.released] at hsolver ⊢
  rw [hsolver, htick, hsent]
  rfl

theorem Answering.stopped {x : SockId} {xs : List SockId} {m : Sent} (h : Answering s (x :: xs))
    (hx : x ∉ xs) : Answering (s.stopped x m) xs where
  takes y hy := by
    have hne : y ≠ x := fun he => hx (he ▸ hy)
    obtain ⟨n, hn, ht⟩ := h.takes y (List.mem_cons_of_mem _ hy)
    exact ⟨n, by simpa [State.stopped, hne] using hn, ht⟩
  writeOk k hk := by
    have hw := h.writeOk (k + 1) (Nat.succ_lt_succ hk)
    rwa [← Nat.add_assoc, Nat.add_right_comm] at hw

theorem wp_stops {xs : List SockId} {Q : Unit → State → Prop} {E : Exn → State → Prop}
    (hnodup : xs.Nodup)
    (stopped : ∀ l, (∀ m ∈ l, Sent.places m = false) → Path Act.Leaves s (s.released xs l) →
      Q () (s.released xs l))
    (failed : ∀ e t, Path Act.Leaves s t → e ≠ .noFuel → ¬ Answering s xs → E e t) :
    wp (forEach Solver.stop xs) Q E s := by
  induction xs generalizing s with
  | nil =>
    have h := stopped [] fun _ hm => absurd hm List.not_mem_nil
    rw [State.released_nil] at h
    exact h (.refl s)
  | cons x xs ih =>
    obtain ⟨hx, hnodup⟩ := List.nodup_cons.mp hnodup
    rw [forEach, wp_bind, Solver.stop, wp_bind, wp_get]
    cases hn : (s.solver x).node with
    | none =>
      refine failed _ _ (.refl s) (by decide) fun h => ?_
      obtain ⟨n, hn', _⟩ := h.takes x List.mem_cons_self
      rw [hn] at hn'
      cases hn'
    | some n =>
      simp only
      rw [wp_bind, wp_modifySolver]
      let m : Sent := ⟨x, Solver.header s Constant.stop n, "", some n⟩
      have hm : m.places = false := Sent.places_cons _ _ _ _ _
      have left : Path Act.Leaves s (s.stopped x m) := by
        refine Path.act (.leave x) (.inr ⟨x, rfl⟩) (Quiet.frame _ rfl rfl rfl (l := [m]) fun m' hm' => ?_)
        exact List.mem_singleton.mp hm' ▸ hm
      refine wp_write_takes (ih hnodup (fun l hl ht => ?_) fun e t ht he hans => ?_)
        fun e t ht he hans => ?_
      · have h := stopped (m :: l) fun m' hm' => (List.mem_cons.mp hm').elim (· ▸ hm) (hl m')
        rw [← State.released_cons hx] at h
        exact h (left.trans ht)
      · exact failed e t (left.trans ht) he fun h => hans (h.stopped hx)
      · have leave : Path Act.Leaves s t := Path.act (.leave x) (.inr ⟨x, rfl⟩) ht
        refine failed e t leave he fun h => hans ⟨?_, ?_⟩
        · obtain ⟨n', hn', htakes⟩ := h.takes x List.mem_cons_self
          rw [hn, Option.some.injEq] at hn'
          exact hn' ▸ htakes
        · simpa using h.writeOk 0 (Nat.succ_pos _)

theorem Answering.perm {xs ys : List SockId} (h : Answering s xs) (hp : ys.Perm xs) :
    Answering s ys where
  takes x hx := h.takes x (hp.mem_iff.mp hx)
  writeOk k hk := h.writeOk k (hp.length_eq ▸ hk)

/-- The state after the order of `k` sets has been fixed. -/
def State.ordered (s : State) (k : Nat) : State :=
  { s with world := { s.world with orderTick := s.world.orderTick + k } }

theorem Quiet.ordered (s : State) (k : Nat) : Quiet s (s.ordered k) :=
  Quiet.of_rest rfl rfl rfl rfl (.refl _) (fun _ => rfl) (fun _ => rfl) fun _ => rfl

theorem wp_solversOn {root : NodeId} {Q : List SockId → State → Prop} {E : Exn → State → Prop}
    (here : ∀ x n, s.Connected x → (s.solver x).node = some n → s.heap.root n = root)
    (found : ∀ xs, xs.Perm (s.solvers .all) → (∀ x, s.Connected x → (s.solver x).node ≠ none) →
      Q xs (s.ordered 2))
    (failed : ∀ e t, Quiet s t → e ≠ .noFuel → (∃ x, s.Connected x ∧ (s.solver x).node = none) →
      E e t) :
    wp (solversOn root) Q E s := by
  rw [solversOn, wp_bind, solvers, wp_bind, wp_get]
  have hp := s.world.env.order_perm s.world.orderTick (s.solvers .all)
  show wp (do
    let s' ← get
    if ∃ x ∈ s.world.env.order s.world.orderTick (s.solvers .all), (s'.solver x).node = none then
      raise .attributeError
    else inOrder ((s.world.env.order s.world.orderTick (s.solvers .all)).filter fun x =>
      (s'.solver x).node.any fun n => s'.heap.root n = root)) Q E (s.ordered 1)
  rw [wp_bind, wp_get]
  split
  · next h =>
    obtain ⟨x, hx, hn⟩ := h
    exact failed _ _ (.ordered s 1) (by decide)
      ⟨x, (State.mem_solvers.mp (hp.mem_iff.mp hx)).1, hn⟩
  · next h =>
    have hall : ∀ x, s.Connected x → (s.solver x).node ≠ none := by
      intro x hx hn
      exact h ⟨x, hp.mem_iff.mpr (State.mem_solvers.mpr ⟨hx, rfl⟩), hn⟩
    refine found _ ((s.world.env.order_perm _ _).trans ?_) hall
    rw [List.filter_eq_self.mpr fun x hx => ?_]
    · exact hp
    · have hx := (State.mem_solvers.mp (hp.mem_iff.mp hx)).1
      obtain ⟨n, hn⟩ := Option.ne_none_iff_exists'.mp (hall x hx)
      have hr := here x n hx hn
      simp [State.ordered, hn, hr]

/-- The state after the end of a conclusion. -/
def State.vacant (s : State) (w : World) (l : List Sent) : State :=
  { s with
    world := w
    solver := fun x =>
      if x ∈ s.rlist ∧ s.kind x = .solver then Solver.reset (s.solver x) else s.solver x
    sent := s.sent ++ l
    current := none
    idleSolvers := [] }

theorem State.released_solver {xs : List SockId} (hp : xs.Perm (s.solvers .all)) (l : List Sent) :
    (s.released xs l).solver = (s.vacant s.world l).solver := by
  funext x
  have hx : x ∈ xs ↔ x ∈ s.rlist ∧ s.kind x = .solver := by
    rw [hp.mem_iff, State.mem_solvers]
    exact and_iff_left rfl
  simp only [State.released, State.vacant, hx]

theorem wp_lemmaServer {Q : Option SockId → State → Prop} {E : Exn → State → Prop}
    {o : Option SockId} (ho : (s.world.env.order s.world.orderTick
      (s.rlist.filter fun x => s.kind x = .lemmaServer)).head? = o) (h : Q o (s.ordered 1)) :
    wp lemmaServer Q E s := by
  subst ho
  exact h

theorem wp_release {Q : Unit → State → Prop} {E : Exn → State → Prop} (distinct : s.rlist.Nodup)
    (here : ∀ x n, s.Connected x → (s.solver x).node = some n → s.heap.root n = s.root i)
    (released : ∀ w l, w.env = s.world.env → (∀ m ∈ l, Sent.places m = false) →
      (∀ x, s.Connected x → (s.solver x).node ≠ none) → Q () (s.vacant w l))
    (failed : ∀ e t, Path Act.Leaves s t → e ≠ .noFuel → ¬ Unhindered s i → E e t) :
    wp (release i) Q E s := by
  rw [release, wp_bind, wp_get, wp_bind]
  refine wp_solversOn here (fun xs hxs hplaced => ?_) fun e t ht he hfree => ?_
  · have hans : Unhindered s i → Answering (s.ordered 2) xs :=
      fun h => ⟨(h.answering.perm hxs).takes, (h.answering.perm hxs).writeOk⟩
    rw [wp_bind]
    have ordered : Path Act.Leaves s (s.ordered 2) := Path.quiet (.inl rfl) (.ordered s 2)
    have hnodup : xs.Nodup := hxs.nodup_iff.mpr (distinct.filter _)
    refine wp_stops hnodup (fun l hl ht' => ?_)
      fun e t ht he hno => failed e t (ordered.trans ht) he fun h => hno (hans h)
    rw [wp_bind]
    have hsolver : ((s.ordered 2).released xs l).solver = (s.vacant s.world l).solver :=
      State.released_solver (s := s) hxs l
    refine wp_lemmaServer (o := s.concludingLemmaServer) rfl ?_
    have finish : ∀ w k, w.env = s.world.env → (∀ m ∈ k, Sent.places m = false) →
        Q () { ((s.ordered 2).released xs l) with
          world := w
          sent := ((s.ordered 2).released xs l).sent ++ k
          current := none
          idleSolvers := [] } := by
      intro w k hw hk
      have h := released w (l ++ k) hw (fun m hm => (List.mem_append.mp hm).elim (hl m) (hk m))
        hplaced
      rw [State.released, State.ordered, List.append_assoc]
      simp only [State.released, State.vacant, State.ordered] at hsolver h ⊢
      rw [hsolver]
      exact h
    cases hlemma : s.concludingLemmaServer with
    | none =>
      have h := finish (((s.ordered 2).released xs l).ordered 1).world [] rfl
        fun _ hm => absurd hm List.not_mem_nil
      rw [List.append_nil] at h
      exact h
    | some y =>
      simp only
      rw [wp_bind, resetLemmas, wp_bind, wp_get]
      refine wp_write_takes ?_ fun e t ht he hno => ?_
      · refine finish _ [_] rfl fun m hm => ?_
        rw [List.mem_singleton.mp hm]
        simp [Sent.places, Header.lookup_cons_if, Constant.command, Constant.name, Constant.node,
          Constant.lemmas]
      · have hpath : Path Act.Leaves s t :=
          (ordered.trans ht').trans (Path.quiet (.inl rfl) ((Quiet.ordered _ 1).trans ht))
        refine failed e t hpath he fun h => hno ?_
        obtain ⟨htakes, hwrite⟩ := h.lemmas y hlemma
        rw [← hxs.length_eq] at hwrite
        exact ⟨htakes, hwrite⟩
  · refine failed e t (Path.quiet (.inl rfl) ht) he fun h => ?_
    obtain ⟨x, hx, hn⟩ := hfree
    obtain ⟨n, hn', _⟩ := h.answering.takes x (State.mem_solvers.mpr ⟨hx, rfl⟩)
    rw [hn] at hn'
    cases hn'

theorem wp_stuck {Q : Bool → State → Prop} {E : Exn → State → Prop}
    (reported : (s.heap.status (s.root i) = .unknown → s.Stuck i) → ∀ t, Quiet s t → Q true t)
    (proceed : (s.heap.status (s.root i) = .unknown → ¬ s.Stuck i) → Q false s)
    (failed : ∀ e t, Quiet s t → e ≠ .noFuel → E e t) :
    wp (stuck i) Q E s := by
  rw [stuck, wp_bind, wp_get]
  dsimp only
  split
  · next hp =>
    rw [wp_bind]
    cases hc : s.heap.childeren (s.root i) with
    | error e => exact failed e s (.refl s) (Heap.childeren_error hc)
    | ok childs =>
      rw [wp_ofExcept_ok]
      split
      · next hstuck =>
        have still : Still (do
            print (.stuck (s.heap.label (s.root i)).name)
            forEach Solver.terminate (← solvers .all)) := by
          refine (Still.print rfl).bind fun _ => ?_
          exact (Still.get.bind fun _ => Still.inOrder _).bind fun xs =>
            Still.forEach Solver.still_terminate xs
        have h : wp (do
            (do print (.stuck (s.heap.label (s.root i)).name)
                forEach Solver.terminate (← solvers .all))
            modify fun s => { s with terminate := true }
            pure true) Q E s := by
          rw [wp_bind]
          refine still.wp (fun _ t ht => reported (fun hu => ⟨hu, hp, ?_, hstuck.2⟩) _
            (ht.trans ?_)) failed
          · rw [hc, hstuck.1]
          exact Quiet.of_rest rfl rfl rfl rfl (.refl _) (fun _ => rfl) (fun _ => rfl) fun _ => rfl
        simpa only [wp_bind] using h
      · next h => exact proceed fun _ hst => h ⟨by simpa [hc] using hst.2.2.1, hst.2.2.2⟩
  · next hp => exact proceed fun _ hst => hp hst.2.1

/-- The state after the clock has been read. -/
def State.clocked (s : State) : State :=
  { s with world := { s.world with clockTick := s.world.clockTick + 1 } }

/-- The result is printed and the instance leaves `trees`, or only one of them, or
neither. -/
theorem wp_printResult {Q : Unit → State → Prop} {E : Exn → State → Prop}
    (shown : ∀ out, s.config.enableLog = false →
      out.filterMap Output.verdict? = s.verdicts ++ [i] →
      (s.trees.lookup (s.name i)).isSome = true →
      Q () { s.clocked with out := out, trees := s.trees.filter fun e => e.1 ≠ s.name i })
    (logged : ∀ out, s.config.enableLog = true → out.filterMap Output.verdict? = s.verdicts →
      Q () { s.clocked with out := out })
    (missing : ∀ e t, Quiet ((Act.verdict i).apply s) t → e ≠ .noFuel →
      s.trees.lookup (s.name i) = none → E e t)
    (failed : ∀ e t, Quiet s t → e ≠ .noFuel → E e t) :
    wp (printResult i) Q E s := by
  rw [printResult, wp_bind, wp_get, wp_bind, wp_now]
  cases hstarted : (s.inst i).started with
  | none => exact failed _ _ (Still.now s) (by decide)
  | some started =>
    simp only
    split
    · next hlog =>
      have hout : ∀ v, Output.verdict? v = some i →
          (s.out ++ [v]).filterMap Output.verdict? = s.verdicts ++ [i] := by
        intro v hv
        simp [State.verdicts, List.filterMap_append, hv]
      rw [wp_bind, wp_print]
      split
      · next hname => exact shown _ hlog (hout _ rfl) hname
      · next hname =>
        refine missing _ _ ?_ (by decide) (Option.not_isSome_iff_eq_none.mp hname)
        exact {
          Still.now ((Act.verdict i).apply s) with
          verdicts := by
            rw [State.verdicts, State.verdicts]
            exact (hout _ rfl).trans (hout _ rfl).symm }
    · next hlog =>
      refine logged _ (by simpa using hlog) ?_
      simp [State.verdicts, List.filterMap_append, Output.verdict?]

theorem Path.leaves (h : Path Act.Leaves s t) (hh : hindered) (hidle : s.idleSolvers = idle) :
    Path (Act.Entrusted hindered idle) s t := by
  suffices main : Path (Act.Entrusted hindered idle) s t ∧ t.idleSolvers = idle from main.1
  induction h with
  | refl => exact ⟨.refl s, hidle⟩
  | tail _ hstep ih =>
    obtain ⟨a, ha, hq⟩ := hstep
    rcases ha with rfl | ⟨x, rfl⟩
    · exact ⟨ih.1.trans (Path.quiet entrusted_quiet hq), hq.idleSolvers.trans ih.2⟩
    · exact ⟨ih.1.trans (Path.act (.leave x) ⟨⟨trivial, trivial⟩, hh, ih.2⟩ hq),
        hq.idleSolvers.trans ih.2⟩

theorem Unhindered.printed (h : Unhindered s i) (o : List Output) (l : List (String × InstId)) :
    Unhindered { s.clocked with out := o, trees := l } i :=
  ⟨⟨h.answering.takes, h.answering.writeOk⟩, h.lemmas⟩

theorem Solving.connected_here (hs : Solving i s) (x : SockId) (n : NodeId) (hx : s.Connected x)
    (hn : (s.solver x).node = some n) : s.heap.root n = s.root i :=
  hs.here (.inl hx) hn

/-- Printing the result and stopping the solvers is one action, or it is hindered. -/
theorem runs_finish (hs : Solving i s) (hidle : s.idleSolvers = idle)
    (clear : hindered ∨ Unhindered s i) :
    Runs (Act.Entrusted hindered idle) out (do
      printResult i
      release i
      return false) (fun _ t => t.current = none ∧ t.idleSolvers = []) s := by
  rw [Runs, Traced, wp_bind]
  refine wp_printResult (fun o hlog ho hname => ?_) (fun o hlog ho => ?_)
    (fun e t ht he hname => ?_) fun e t ht he => ⟨Path.quiet entrusted_quiet ht, fun h => absurd h he⟩
  · rw [wp_bind]
    refine wp_release hs.consistent.distinct hs.connected_here (fun w l hw hl hplaced => ?_)
      fun e t ht he hun => ?_
    · have guard : Act.Entrusted hindered idle (.conclude i true) s :=
        ⟨⟨trivial, hs.current, by simp [hlog], hplaced, fun _ => hname⟩, trivial⟩
      refine ⟨Path.act _ guard ?_, rfl, rfl⟩
      have hv : (Act.apply (.conclude i true) s).verdicts = s.verdicts ++ [i] := by
        simp [State.verdicts, Act.apply, State.conclude, Output.verdict?]
      exact { Quiet.refl _ with
        env := hw
        sent := ⟨l, rfl, hl⟩
        verdicts := ho.trans hv.symm }
    · have hh : hindered := clear.resolve_right fun h => hun (h.printed o _)
      have printed : Path (Act.Entrusted hindered idle) s ((Act.verdict i).apply s) :=
        Path.act (.verdict i) ⟨⟨trivial, hs.current, .inl hh⟩, trivial⟩ (.refl _)
      refine ⟨(printed.trans (Path.act (.drop (s.name i)) ⟨⟨trivial, hh⟩, trivial⟩ ?_)).trans
        (ht.leaves hh hidle), fun h => absurd h he⟩
      have hv : ((Act.verdict i).apply s).verdicts = s.verdicts ++ [i] := by
        simp [State.verdicts, Act.apply, State.print, Output.verdict?]
      exact { Quiet.refl _ with
        env := rfl
        verdicts := ho.trans hv.symm }
  · rw [wp_bind]
    refine wp_release hs.consistent.distinct hs.connected_here (fun w l hw hl hplaced => ?_)
      fun e t ht he hun => ?_
    · have guard : Act.Entrusted hindered idle (.conclude i false) s :=
        ⟨⟨trivial, hs.current, by simp [hlog], hplaced, fun h => by cases h⟩, trivial⟩
      refine ⟨Path.act _ guard ?_, rfl, rfl⟩
      exact { Quiet.refl _ with
        env := hw
        sent := ⟨l, rfl, hl⟩
        verdicts := ho }
    · have hh : hindered := clear.resolve_right fun h => hun (h.printed o s.trees)
      refine ⟨(Path.quiet entrusted_quiet ?_).trans (ht.leaves hh hidle), fun h => absurd h he⟩
      exact { Quiet.refl s with
        env := rfl
        verdicts := ho }
  · exact ⟨Path.act (.verdict i) ⟨⟨trivial, hs.current, .inr hname⟩, trivial⟩ ht,
      fun h => absurd h he⟩

/-- Either the instance is reported as stuck, or it is given up. -/
theorem runs_conclude (hs : Solving i s) (hidle : s.idleSolvers = idle)
    (clear : hindered ∨ s.Stuck i ∨ Unhindered s i) :
    Runs (Act.Entrusted hindered idle) out (conclude i) (fun r t => r = false →
      t.current = none ∧ t.idleSolvers = []) s := by
  have finish : ¬ s.Stuck i → Runs (Act.Entrusted hindered idle) out (do
      printResult i
      release i
      return false) (fun r t => r = false → t.current = none ∧ t.idleSolvers = []) s :=
    fun h => (runs_finish hs hidle (clear.imp_right fun hc => hc.resolve_left h)).mono
      fun _ _ _ ht _ => ht
  rw [conclude]
  refine Traced.get ?_
  by_cases hu : s.heap.status (s.root i) = .unknown
  · rw [if_pos hu, Traced, wp_bind]
    refine wp_stuck (fun _ t ht => ?_) (fun hst => ?_) fun e t ht he => ?_
    · exact ⟨Path.quiet entrusted_quiet ht, fun h => by cases h⟩
    · rw [if_neg (by decide), wp_bind, wp_when]
      refine ⟨fun _ => ⟨.refl, fun h => by cases h⟩, fun _ => ?_⟩
      exact finish (hst hu)
    · exact ⟨Path.quiet entrusted_quiet ht, fun h => absurd h he⟩
  · rw [if_neg hu]
    exact finish fun h => hu h.1

end Smts.Server
