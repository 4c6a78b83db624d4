import Smts.Server.Receiving

namespace Smts.Server

open Smts.Lib

variable {s t : State} {ev : Event} {hindered : Prop}

theorem Consistent.name_act (hs : Consistent s) (a : Act) (ha : a.Allowed hindered s) {i : InstId}
    (hi : i < s.nextInst) : (a.apply s).name i = s.name i := by
  have hg := hs.seated.grows a ha.1
  have hroot : (a.apply s).root i = s.root i := by
    cases a with
    | submit name l =>
      simp [Act.apply, State.submit, State.root, Nat.ne_of_lt hi]
    | _ => rfl
  rw [State.name, State.name, hroot, hg.label _ (hs.opened i hi).1.1]

/-- The entry of an instance that is listed. -/
theorem Consistent.entry (hs : Consistent s) {i : InstId} (hi : i ∈ s.trees.map Prod.snd) :
    (s.name i, i) ∈ s.trees := by
  obtain ⟨e, he, rfl⟩ := List.mem_map.mp hi
  rw [(hs.entries e he).2]
  exact he

/-- The current instance has an entry under its name, and those whose verdict was
printed are over. -/
structure Concluded (s : State) : Prop where
  named : ∀ i, s.current = some i → s.name i ∈ s.trees.map Prod.fst
  printed : ∀ i ∈ s.verdicts, i < s.nextInst ∧ i ∉ s.trees.map Prod.snd ∧ s.current ≠ some i
  nodup : s.verdicts.Nodup

namespace Concluded

theorem quiet (h : Quiet s t) (hs : Concluded s) : Concluded t where
  named i := by
    rw [h.current, h.trees, Consistent.name_congr h.heap.label h.root]
    exact hs.named i
  printed i := by
    rw [h.verdicts, h.nextInst, h.trees, h.current]
    exact hs.printed i
  nodup := by rw [h.verdicts]; exact hs.nodup

theorem frame (hs : Concluded s) (name : ∀ i, s.current = some i → t.name i = s.name i)
    (out : t.out = s.out) (nextInst : t.nextInst = s.nextInst) (trees : t.trees = s.trees)
    (current : t.current = s.current) : Concluded t where
  named i hi := by
    rw [current] at hi
    rw [trees, name i hi]
    exact hs.named i hi
  printed i := by
    rw [State.verdicts, out, nextInst, trees, current]
    exact hs.printed i
  nodup := by rw [State.verdicts, out]; exact hs.nodup

theorem verdicts_conclude (i : InstId) (shown : Bool) :
    ((Act.conclude i shown).apply s).verdicts = s.verdicts ++ if shown then [i] else [] := by
  cases shown <;> simp [State.verdicts, Act.apply, State.conclude, Output.verdict?]

theorem conclude (hs : Concluded s) (hcons : Consistent s) {i : InstId} {shown : Bool}
    (hi : s.current = some i) : Concluded ((Act.conclude i shown).apply s) := by
  have hlt := hcons.current i hi
  have hnew : i ∉ s.verdicts := fun h => (hs.printed i h).2.2 hi
  have hsub : ∀ j, j ∈ ((Act.conclude i shown).apply s).trees.map Prod.snd →
      j ∈ s.trees.map Prod.snd ∧ (shown = true → j ≠ i) := by
    intro j hj
    obtain ⟨e, he, rfl⟩ := List.mem_map.mp hj
    cases shown with
    | false => exact ⟨List.mem_map_of_mem he, fun h => nomatch h⟩
    | true =>
      obtain ⟨he, hne⟩ := List.mem_filter.mp he
      refine ⟨List.mem_map_of_mem he, fun _ heq => of_decide_eq_true hne ?_⟩
      rw [← (hcons.entries e he).2, heq]
  refine ⟨fun j hj => absurd hj.symm (Option.some_ne_none j), fun j hj => ?_, ?_⟩
  · rw [verdicts_conclude] at hj
    rcases List.mem_append.mp hj with hj | hj
    · obtain ⟨hj, hout, _⟩ := hs.printed j hj
      exact ⟨hj, fun h => hout (hsub j h).1, fun h => nomatch h⟩
    · cases shown with
      | false => exact absurd hj List.not_mem_nil
      | true =>
        obtain rfl := List.mem_singleton.mp hj
        exact ⟨hlt, fun h => (hsub j h).2 rfl rfl, fun h => nomatch h⟩
  · rw [verdicts_conclude]
    cases shown with
    | false => simpa using hs.nodup
    | true =>
      refine hs.nodup.append (List.nodup_singleton i) fun j hj hj' => ?_
      exact hnew (List.mem_singleton.mp hj' ▸ hj)

theorem start (hs : Concluded s) (hcons : Consistent s) {i : InstId}
    (hi : i ∈ s.trees.map Prod.snd) : Concluded ((Act.start i).apply s) where
  named j hj := by
    cases hj
    exact List.mem_map_of_mem (hcons.entry hi)
  printed j hj := by
    obtain ⟨hj, hout, _⟩ := hs.printed j hj
    refine ⟨hj, hout, fun h => hout ?_⟩
    cases h
    exact hi
  nodup := hs.nodup

theorem submit (hs : Concluded s) (hcons : Consistent s) (name : String) (l : Label)
    (ha : (Act.submit name l).Allowed hindered s) :
    Concluded ((Act.submit name l).apply s) where
  named i hi := by
    have hkeys : s.trees.map Prod.fst ⊆ ((Act.submit name l).apply s).trees.map Prod.fst := by
      simp only [Act.apply, State.submit]
      split
      · intro k hk
        obtain ⟨e, he, rfl⟩ := List.mem_map.mp hk
        refine List.mem_map.mpr ⟨_, List.mem_map_of_mem he, ?_⟩
        split
        · next h => exact h.symm
        · rfl
      · rw [List.map_append]
        exact List.subset_append_left _ _
    rw [hcons.name_act _ ha (hcons.current i hi)]
    exact hkeys (hs.named i hi)
  printed i hi := by
    obtain ⟨hlt, hout, hcur⟩ := hs.printed i hi
    refine ⟨Nat.lt_succ_of_lt hlt, fun h => ?_, hcur⟩
    obtain ⟨e, he, rfl⟩ := List.mem_map.mp h
    rcases Consistent.mem_submit he with rfl | he
    · exact Nat.lt_irrefl _ hlt
    · exact hout (List.mem_map_of_mem he)
  nodup := hs.nodup

/-- Nothing is printed twice by an action that is not hindered. -/
theorem act (hs : Concluded s) (hcons : Consistent s) (a : Act) (ha : a.Allowed False s) :
    Concluded (a.apply s) := by
  have name : ∀ i, s.current = some i → (a.apply s).name i = s.name i :=
    fun i hi => hcons.name_act a ha (hcons.current i hi)
  cases a with
  | start i => exact hs.start hcons ha.2.2.1
  | conclude i shown => exact hs.conclude hcons ha.2.1
  | verdict i =>
    obtain ⟨hi, hnone⟩ := ha.2
    exact absurd (hs.named i hi) (Consistent.lookup_none_iff.mp (hnone.resolve_left id))
  | drop name => exact ha.2.elim
  | submit k l => exact hs.submit hcons k l ha
  | _ => exact hs.frame name rfl rfl rfl rfl

theorem init (env : Env) (config : Config) : Concluded (State.init env config) :=
  ⟨fun i h => absurd h.symm (Option.some_ne_none i), fun _ h => absurd h List.not_mem_nil,
    List.nodup_nil⟩

theorem step (hs : Concluded s) (hcons : Consistent s) (clear : ev.Clear s) (h : Step s ev t) :
    Concluded t := by
  have hpath : Path (Act.Caused False ev s) s t := h.path hcons (.inr clear)
  have key : Concluded t ∧ Consistent t := hpath.invariant
    (I := fun u => Concluded u ∧ Consistent u)
    (fun _ _ hq hu => ⟨hu.1.quiet hq, hu.2.quiet hq⟩)
    (fun a u ha hu => ⟨hu.1.act hu.2 a ha.1, hu.2.act a ha.1⟩) ⟨hs, hcons⟩
  exact key.1

end Concluded

/-- No verdict is printed twice, and an instance whose verdict was printed is not the
current one. -/
structure State.ConcludedOnce (s : State) : Prop where
  once : ∀ i, s.verdicts.count i ≤ 1
  released : ∀ i ∈ s.verdicts, s.current ≠ some i

/-- As long as conclusions succeed, each instance is concluded once. -/
theorem concluded_once {env : Env} {config : Config} {s : State}
    (h : Turns (fun s ev => ev.Clear s) (State.init env config) s) : s.ConcludedOnce := by
  have key : Concluded s ∧ Consistent s := h.invariant (I := fun s => Concluded s ∧ Consistent s)
    (fun s ev t hs hG hstep => ⟨hs.1.step hs.2 hG hstep, hs.2.step hstep⟩)
    ⟨.init env config, .init env config⟩
  exact ⟨fun i => List.nodup_iff_count_le_one.mp key.1.nodup i,
    fun i hi => (key.1.printed i hi).2.2⟩

/-- A solver gets an instance. -/
def oneInstance : List Event :=
  [.accept "a", .message 1 [(Constant.solver, "OpenSMT2")] (some ""), .accept "b",
    .message 3 [(Constant.command, Constant.solve), (Constant.name, "a.smt2")]
      (some "(assert true)")]

/-- It reports the verdict. -/
def solved : List Event :=
  oneInstance ++ [.message 2 [(Constant.report, "sat"), (Constant.name, "a.smt2"),
    (Constant.node, "[]")] (some "")]

theorem concluded_once_solved :
    ∃ s, solved.foldlM (guarded (State.turn 1) fun s ev => ev.Clear s)
        (State.init Env.steady {}) = some s ∧
      s.verdicts = [0] ∧ s.current = none ∧ s.ConcludedOnce := by
  obtain ⟨s, h, verdicts, current⟩ := exists_of_any (o := solved.foldlM
    (guarded (State.turn 1) fun s ev => ev.Clear s) (State.init Env.steady {}))
    (P := fun s => s.verdicts = [0] ∧ s.current = none) (by decide +kernel)
  exact ⟨s, h, verdicts, current, concluded_once (.of_run (.of_script h))⟩

/-- Another solver joins when the time for the instance is up. -/
def joinsLate : List Event :=
  oneInstance ++ [.accept "c", .message 4 [(Constant.solver, "OpenSMT2")] (some ""), .timeout]

theorem concluded_twice :
    ∃ s, Turns (fun _ _ => True)
        (State.init Env.steady { solvingTimeout := some (second / 2) }) s ∧
      s.config.enableLog = false ∧ s.verdicts = [0, 0] ∧ s.current = some 0 ∧
      ¬ s.ConcludedOnce := by
  obtain ⟨s, h, quiet, printed, current⟩ := exists_of_any
    (o := joinsLate.foldlM (guarded (State.turn 1) fun _ _ => True)
      (State.init Env.steady { solvingTimeout := some (second / 2) }))
    (P := fun s => s.config.enableLog = false ∧ s.verdicts = [0, 0] ∧ s.current = some 0)
    (by decide +kernel)
  refine ⟨s, .of_run (.of_script h), quiet, printed, current, fun hs => ?_⟩
  have hle := hs.once 0
  rw [printed] at hle
  exact absurd hle (by decide)

end Smts.Server
