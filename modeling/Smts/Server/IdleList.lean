import Smts.Server.Receiving

namespace Smts.Server

open Smts.Lib

/-- Idle solvers are connected and have a node. -/
structure Idlers (s : State) : Prop where
  once : s.idleSolvers.Nodup
  connected : ∀ x ∈ s.idleSolvers, s.Connected x
  placed : ∀ x ∈ s.idleSolvers, (s.solver x).node ≠ none

/-- The action takes no idle solver away. -/
def Act.SparesIdle : Act → State → Prop
  | .leave x, s | .shut x, s => x ∉ s.idleSolvers
  | _, _ => True

namespace Idlers

variable {s t : State} {hindered : Prop}

theorem quiet (h : Quiet s t) (hs : Idlers s) : Idlers t where
  once := by rw [h.idleSolvers]; exact hs.once
  connected x hx := by
    rw [h.idleSolvers] at hx
    exact (h.connected x).mpr (hs.connected x hx)
  placed x hx := by
    rw [h.idleSolvers] at hx
    rw [h.node]
    exact hs.placed x hx

/-- Fewer solvers are idle, and those that are stay connected and placed. -/
theorem sub (hs : Idlers s) (once : t.idleSolvers.Nodup)
    (idle : ∀ x ∈ t.idleSolvers, x ∈ s.idleSolvers)
    (connected : ∀ x ∈ t.idleSolvers, s.Connected x → t.Connected x)
    (placed : ∀ x ∈ t.idleSolvers, (s.solver x).node ≠ none → (t.solver x).node ≠ none) :
    Idlers t where
  once := once
  connected x hx := connected x hx (hs.connected x (idle x hx))
  placed x hx := placed x hx (hs.placed x (idle x hx))

theorem update (hs : Idlers s) {x : SockId} {d : SolverData} (solver : t.solver =
    Function.update s.solver x d) (idle : t.idleSolvers = s.idleSolvers)
    (rlist : t.rlist = s.rlist) (kind : t.kind = s.kind)
    (node : x ∈ s.idleSolvers → (s.solver x).node ≠ none → d.node ≠ none) : Idlers t := by
  refine hs.sub (idle ▸ hs.once) (fun y hy => idle ▸ hy) (fun y _ => ?_) fun y hy hne => ?_
  · rw [State.Connected, State.Connected, rlist, kind]
    exact id
  · rw [solver, Function.update_apply]
    rw [idle] at hy
    split
    · next he =>
      subst he
      exact node hy hne
    · exact hne

theorem act (hs : Idlers s) (hcons : Consistent s) (a : Act) (ha : a.Allowed hindered s)
    (hspare : a.SparesIdle s) : Idlers (a.apply s) := by
  have same : ∀ t : State, t.idleSolvers = s.idleSolvers → t.rlist = s.rlist → t.kind = s.kind →
      t.solver = s.solver → Idlers t := by
    intro t idle rlist kind solver
    refine hs.sub (idle ▸ hs.once) (fun y hy => idle ▸ hy) (fun y _ => ?_) fun y _ => ?_
    · rw [State.Connected, State.Connected, rlist, kind]
      exact id
    · rw [solver]
      exact id
  cases a with
  | solve x n m => exact hs.update (x := x) rfl rfl rfl rfl fun _ _ => Option.some_ne_none n
  | move x n m => exact hs.update (x := x) rfl rfl rfl rfl fun _ _ => Option.some_ne_none n
  | leave x => exact hs.update (x := x) rfl rfl rfl rfl fun hx => absurd hx hspare
  | ask x n => exact hs.update (x := x) rfl rfl rfl rfl fun _ h => h
  | report x n status => exact hs.update (x := x) rfl rfl rfl rfl fun _ h => h
  | reply x o partitions => exact hs.update (x := x) rfl rfl rfl rfl fun _ h => h
  | idleAdd x =>
    obtain ⟨hx, hnew, i, n, _, hn, _⟩ := ha.2
    have hmem : ∀ y ∈ s.idleSolvers ++ [x], y ∈ s.idleSolvers ∨ y = x := fun y hy =>
      (List.mem_append.mp hy).imp_right List.mem_singleton.mp
    refine ⟨hs.once.append (List.nodup_singleton x) (by simpa using hnew), fun y hy => ?_,
      fun y hy => ?_⟩
    · rcases hmem y hy with hy | rfl
      · exact hs.connected y hy
      · exact hx
    · rcases hmem y hy with hy | rfl
      · exact hs.placed y hy
      · exact hn ▸ Option.some_ne_none n
  | idleDrop x =>
    exact hs.sub (hs.once.erase x) (fun y hy => List.mem_of_mem_erase hy) (fun _ _ => id)
      fun _ _ => id
  | idleSort l =>
    exact hs.sub (ha.2.nodup_iff.mpr hs.once) (fun y hy => ha.2.mem_iff.mp hy) (fun _ _ => id)
      fun _ _ => id
  | conclude i shown =>
    exact ⟨List.nodup_nil, fun x hx => absurd hx List.not_mem_nil,
      fun x hx => absurd hx List.not_mem_nil⟩
  | create k name =>
    have hne : ∀ x ∈ s.idleSolvers, x ≠ s.nextSock := fun x hx =>
      Nat.ne_of_lt (hcons.sockets x (hs.connected x hx).1)
    refine hs.sub hs.once (fun _ hx => hx) (fun x hx hc => ⟨hc.1, ?_⟩) fun x hx hn => ?_
    · have hk : ((Act.create k name).apply s).kind x = s.kind x :=
        Function.update_of_ne (hne x hx) _ _
      exact hk.trans hc.2
    · have hsol : ((Act.create k name).apply s).solver x = s.solver x := by
        simp only [Act.apply, State.create]
        split
        · exact Function.update_of_ne (hne x hx) _ _
        · rfl
      rw [hsol]
      exact hn
  | enlist x =>
    exact hs.sub hs.once (fun _ hy => hy) (fun y _ hc => ⟨List.mem_append_left _ hc.1, hc.2⟩)
      fun _ _ => id
  | delist x =>
    refine hs.sub hs.once (fun _ hy => hy) (fun y hy hc => ⟨?_, hc.2⟩) fun _ _ => id
    refine List.mem_filter.mpr ⟨hc.1, decide_eq_true fun he => ?_⟩
    exact hs.placed y hy (he ▸ ha.2 (he ▸ hc.2))
  | shut x =>
    refine hs.sub hs.once (fun _ hy => hy) (fun y hy hc => ⟨?_, hc.2⟩) fun _ _ => id
    exact List.mem_filter.mpr ⟨hc.1, decide_eq_true fun he => hspare (he ▸ hy)⟩
  | quiet | process | start | verdict | drop | submit | split => exact same _ rfl rfl rfl rfl

end Idlers

/-- The turn takes no idle solver away: neither by a connection that closes, nor by closing
the server, nor by a conclusion that fails. -/
def Sparing (s : State) (ev : Event) : Prop :=
  s.idleSolvers = [] ∨
    (∀ x, ev = .closed x → x ∉ s.idleSolvers) ∧ ¬ ev.Terminates s ∧ ev.Clear s

theorem Sparing.sparesIdle {s u : State} {ev : Event} (h : Sparing s ev) {a : Act}
    (ha : a.Caused (¬ ev.Clear s) ev s u) : a.SparesIdle u := by
  have hc := ha.2
  have none : u.idleSolvers = [] → ∀ x, x ∉ u.idleSolvers := fun hu x hx => by
    rw [hu] at hx
    exact List.not_mem_nil hx
  cases a with
  | leave x =>
    obtain ⟨hidle, hcause⟩ := hc
    rcases h with h | ⟨hclosed, _, hclear⟩
    · exact none (hidle.trans h) x
    · rcases hcause with ⟨hev, _⟩ | hhin
      · rw [Act.SparesIdle, hidle]
        exact hclosed x hev
      · exact absurd hclear hhin
  | shut x =>
    rcases hc with hidle | ⟨hidle, hcause⟩
    · exact none hidle x
    · rcases h with h | ⟨hclosed, hterm, _⟩
      · exact none (hidle.trans h) x
      · rcases hcause with hev | hev
        · rw [Act.SparesIdle, hidle]
          exact hclosed x hev
        · exact absurd hev hterm
  | _ => trivial

theorem Idlers.step {s t : State} {ev : Event} (hs : Idlers s) (hcons : Consistent s)
    (spare : Sparing s ev) (h : Step s ev t) : Idlers t := by
  have hpath : Path (Act.Caused (¬ ev.Clear s) ev s) s t := h.path hcons (Classical.em _).symm
  have key : Idlers t ∧ Consistent t := hpath.invariant (I := fun u => Idlers u ∧ Consistent u)
    (fun _ _ hq hu => ⟨hu.1.quiet hq, hu.2.quiet hq⟩)
    (fun a u ha hu => ⟨hu.1.act hu.2 a ha.1 (spare.sparesIdle ha), hu.2.act a ha.1⟩) ⟨hs, hcons⟩
  exact key.1

/-- The list of idle solvers, as the scheduler relies on it. -/
structure State.IdleInOrder (s : State) : Prop where
  nodup : s.idleSolvers.Nodup
  assigned : ∀ x ∈ s.idleSolvers, x ∈ s.rlist ∧ ∃ i n, s.current = some i ∧
    (s.solver x).node = some n ∧ s.heap.Reaches (s.root i) n

/-- As long as no idle solver is taken away, the list of idle solvers stays in order. -/
theorem idle_inOrder {env : Env} {config : Config} {s : State}
    (h : Turns Sparing (State.init env config) s) : s.IdleInOrder := by
  have key : Idlers s ∧ Consistent s := h.invariant (I := fun s => Idlers s ∧ Consistent s)
    (fun s ev t hs hG hstep => ⟨hs.1.step hs.2 hG hstep, hs.2.step hstep⟩)
    ⟨⟨List.nodup_nil, fun x hx => absurd hx List.not_mem_nil,
      fun x hx => absurd hx List.not_mem_nil⟩, .init env config⟩
  obtain ⟨hs, hcons⟩ := key
  refine ⟨hs.once, fun x hx => ⟨(hs.connected x hx).1, ?_⟩⟩
  obtain ⟨n, hn⟩ := Option.ne_none_iff_exists'.mp (hs.placed x hx)
  obtain ⟨i, hi, hroot⟩ := hcons.here x n (.inr hx) hn
  exact ⟨i, n, hi, hn, hroot ▸ (hcons.seated.placed x n hn).2.2⟩

/-- A solver works on an instance until the time for a node is up. -/
def toIdle : List Event :=
  [.accept "a", .message 1 [(Constant.solver, "OpenSMT2")] (some ""), .accept "b",
    .message 3 [(Constant.command, Constant.solve), (Constant.name, "a.smt2")]
      (some "(assert true)"), .timeout]

theorem idle_inOrder_once :
    ∃ s, toIdle.foldlM (guarded (State.turn 0) fun s _ => s.idleSolvers = [])
        (State.init Env.steady { nodeTimeout := some second }) = some s ∧
      s.idleSolvers = [2] ∧ s.IdleInOrder := by
  obtain ⟨s, h, idle⟩ := exists_of_any (o := toIdle.foldlM
    (guarded (State.turn 0) fun s _ => s.idleSolvers = [])
    (State.init Env.steady { nodeTimeout := some second })) (P := fun s => s.idleSolvers = [2])
    (by decide +kernel)
  exact ⟨s, h, idle, idle_inOrder (.of_run ((Run.of_script h).mono fun _ _ => .inl))⟩

/-- Then the idle solver goes away. -/
theorem idle_gone :
    ∃ s, Turns (fun _ _ => True) (State.init Env.steady { nodeTimeout := some second }) s ∧
      s.rlist = [0, 3] ∧ s.idleSolvers = [2] ∧ (s.solver 2).node = none ∧ ¬ s.IdleInOrder := by
  obtain ⟨s, h, listed, idle, node⟩ := exists_of_any (o := (toIdle ++ [Event.closed 2]).foldlM
    (guarded (State.turn 0) fun _ _ => True)
    (State.init Env.steady { nodeTimeout := some second }))
    (P := fun s => s.rlist = [0, 3] ∧ s.idleSolvers = [2] ∧ (s.solver 2).node = none)
    (by decide +kernel)
  refine ⟨s, .of_run (.of_script h), listed, idle, node, fun hs => ?_⟩
  have hmem : 2 ∈ s.rlist := (hs.assigned 2 (idle ▸ List.mem_singleton_self 2)).1
  rw [listed] at hmem
  exact absurd hmem (by decide)

end Smts.Server
