import Smts.Server.Verdicts

namespace Smts.Server

open Smts.Lib

variable {s t : State} {ev : Event}

/-- Nobody submits an instance under the name of one that is still listed. -/
def Event.Fresh (s : State) (ev : Event) : Prop :=
  ∀ name, ev.Submits s name → s.trees.lookup name = none

/-- Instances stay listed until their verdict is printed. -/
structure Listing (s : State) : Prop where
  kept : ∀ i, i < s.nextInst → i ∈ s.trees.map Prod.snd ∨ i ∈ s.verdicts
  current : ∀ i, s.current = some i → i ∈ s.trees.map Prod.snd

namespace Listing

theorem quiet (h : Quiet s t) (hs : Listing s) : Listing t where
  kept i := by
    rw [h.nextInst, h.trees, h.verdicts]
    exact hs.kept i
  current i := by
    rw [h.current, h.trees]
    exact hs.current i

theorem frame (hs : Listing s) (out : t.out = s.out) (nextInst : t.nextInst = s.nextInst)
    (trees : t.trees = s.trees) (current : t.current = s.current) : Listing t where
  kept i := by
    rw [nextInst, trees, State.verdicts, out]
    exact hs.kept i
  current i := by
    rw [current, trees]
    exact hs.current i

/-- Only the instance itself has an entry under its name. -/
theorem conclude (hs : Listing s) (hcons : Consistent s) {i : InstId} {shown : Bool}
    (hi : s.current = some i) : Listing ((Act.conclude i shown).apply s) where
  kept j hj := by
    rw [Concluded.verdicts_conclude]
    rcases hs.kept j hj with hmem | hmem
    · cases shown with
      | false => exact .inl hmem
      | true =>
        by_cases hne : j = i
        · exact .inr (List.mem_append_right _ (List.mem_singleton.mpr hne))
        · refine .inl (List.mem_map.mpr ⟨_, List.mem_filter.mpr ⟨hcons.entry hmem, ?_⟩, rfl⟩)
          refine decide_eq_true fun hname => hne ?_
          have hentry : (s.name i, i) ∈ s.trees := hcons.entry (hs.current i hi)
          exact congrArg Prod.snd
            (List.inj_on_of_nodup_map hcons.keys (hcons.entry hmem) hentry hname)
    · exact .inr (List.mem_append_left _ hmem)
  current j hj := absurd hj.symm (Option.some_ne_none j)

theorem submit (hs : Listing s) (name : String) (l : Label) (hnone : s.trees.lookup name = none) :
    Listing ((Act.submit name l).apply s) := by
  have htrees : ((Act.submit name l).apply s).trees = s.trees ++ [(name, s.nextInst)] := by
    simp [Act.apply, State.submit, hnone]
  refine ⟨fun i hi => ?_, fun i hi => ?_⟩
  · rw [htrees, List.map_append]
    rcases Nat.lt_succ_iff_lt_or_eq.mp hi with hi | rfl
    · exact (hs.kept i hi).imp_left (List.mem_append_left _)
    · exact .inl (List.mem_append_right _ (List.mem_singleton_self _))
  · rw [htrees, List.map_append]
    exact List.mem_append_left _ (hs.current i hi)

theorem act (hs : Listing s) (hcons : Consistent s) (hcon : Concluded s) (a : Act)
    (ha : a.Allowed False s) (fresh : ∀ name l, a = .submit name l → s.trees.lookup name = none) :
    Listing (a.apply s) := by
  cases a with
  | start i =>
    refine ⟨hs.kept, fun j hj => ?_⟩
    cases hj
    exact ha.2.2.1
  | conclude i shown => exact hs.conclude hcons ha.2.1
  | verdict i =>
    obtain ⟨hi, hnone⟩ := ha.2
    exact absurd (hcon.named i hi) (Consistent.lookup_none_iff.mp (hnone.resolve_left id))
  | drop name => exact ha.2.elim
  | submit name l => exact hs.submit name l (fresh name l rfl)
  | _ => exact hs.frame rfl rfl rfl rfl

theorem init (env : Env) (config : Config) : Listing (State.init env config) :=
  ⟨fun i hi => absurd hi (Nat.not_lt_zero i), fun i h => absurd h.symm (Option.some_ne_none i)⟩

theorem step (hs : Listing s) (hcons : Consistent s) (hcon : Concluded s) (clear : ev.Clear s)
    (fresh : ev.Fresh s) (h : Step s ev t) : Listing t := by
  have hpath : Path (Act.Caused False ev s) s t := h.path hcons (.inr clear)
  have key : Listing t ∧ Concluded t ∧ Consistent t :=
    hpath.invariant
      (I := fun u => Listing u ∧ Concluded u ∧ Consistent u)
      (fun _ _ hq hu => ⟨hu.1.quiet hq, hu.2.1.quiet hq, hu.2.2.quiet hq⟩)
      (fun a u ha hu => by
        refine ⟨hu.1.act hu.2.2 hu.2.1 a ha.1 fun name l he => ?_, hu.2.1.act hu.2.2 a ha.1,
          hu.2.2.act a ha.1⟩
        subst he
        obtain ⟨rfl, hsub⟩ := ha.2
        exact fresh name hsub) ⟨hs, hcon, hcons⟩
  exact key.1

end Listing

namespace State

/-- The instance waits for its turn. -/
def Pending (s : State) (i : InstId) : Prop := i ∈ s.trees.map Prod.snd ∧ s.current ≠ some i

/-- The instance is pending, it is the current one, or its verdict has been printed, and
only one of these. -/
def Accounted (s : State) (i : InstId) : Prop :=
  s.Pending i ∧ i ∉ s.verdicts ∨ s.current = some i ∧ i ∉ s.verdicts ∨
    i ∈ s.verdicts ∧ ¬ s.Pending i ∧ s.current ≠ some i

end State

/-- As long as names are not used again and conclusions succeed, no submission is lost. -/
theorem submissions_accounted {env : Env} {config : Config} {s : State}
    (h : Turns (fun s ev => ev.Fresh s ∧ ev.Clear s) (State.init env config) s) :
    ∀ i, i < s.nextInst → s.Accounted i := by
  have key : Listing s ∧ Concluded s ∧ Consistent s := h.invariant
    (I := fun s => Listing s ∧ Concluded s ∧ Consistent s)
    (fun s ev t hs hG hstep => ⟨hs.1.step hs.2.2 hs.2.1 hG.2 hG.1 hstep,
      hs.2.1.step hs.2.2 hG.2 hstep, hs.2.2.step hstep⟩)
    ⟨.init env config, .init env config, .init env config⟩
  obtain ⟨hs, hcon, _⟩ := key
  intro i hi
  by_cases hv : i ∈ s.verdicts
  · obtain ⟨_, hout, hcur⟩ := hcon.printed i hv
    exact .inr (.inr ⟨hv, fun h => hout h.1, hcur⟩)
  · by_cases hc : s.current = some i
    · exact .inr (.inl ⟨hc, hv⟩)
    · exact .inl ⟨⟨(hs.kept i hi).resolve_right hv, hc⟩, hv⟩

/-- The name that is submitted. -/
def Event.submitted (s : State) : Event → Option String
  | .message x header (some text) =>
    (header.lookup Constant.name).filter fun name => s.kind x ≠ .solver ∧
      header.lookup Constant.command = some Constant.solve ∧
      (parse s.world.env s.heap name text).isSome = true
  | _ => none

theorem Event.mem_submitted {name : String} : name ∈ ev.submitted s ↔ ev.Submits s name := by
  constructor
  · intro h
    cases ev with
    | message x header payload =>
      cases payload with
      | none => exact absurd h (Option.not_mem_none _)
      | some text =>
        obtain ⟨hname, hc⟩ := Option.filter_eq_some_iff.mp h
        obtain ⟨hkind, hcommand, hparse⟩ := of_decide_eq_true hc
        exact ⟨x, header, text, rfl, hkind, hcommand, hname, hparse⟩
    | timeout | accept | closed => exact absurd h (Option.not_mem_none _)
  · rintro ⟨x, header, text, rfl, hkind, hcommand, hname, hparse⟩
    exact Option.filter_eq_some_iff.mpr ⟨hname, decide_eq_true ⟨hkind, hcommand, hparse⟩⟩

instance (s : State) (ev : Event) : Decidable (ev.Fresh s) :=
  decidable_of_iff (∀ name ∈ ev.submitted s, s.trees.lookup name = none) <| by
    simp only [Event.mem_submitted]
    exact Iff.rfl

instance (s : State) (i : InstId) : Decidable (s.Pending i) := inferInstanceAs (Decidable (_ ∧ _))

instance (s : State) (i : InstId) : Decidable (s.Accounted i) :=
  inferInstanceAs (Decidable (_ ∨ _ ∨ _))

/-- A name is used again after its first instance has been solved. -/
def again : List Event :=
  solved ++ [.message 3 [(Constant.command, Constant.solve), (Constant.name, "b.smt2")]
      (some "(assert true)"),
    .message 3 [(Constant.command, Constant.solve), (Constant.name, "a.smt2")]
      (some "(assert false)")]

theorem submissions_accounted_again :
    ∃ s, again.foldlM (guarded (State.turn 1) fun s ev => ev.Fresh s ∧ ev.Clear s)
        (State.init Env.steady {}) = some s ∧
      s.nextInst = 3 ∧ s.verdicts = [0] ∧ s.current = some 1 ∧ s.Pending 2 ∧
      ∀ i, i < s.nextInst → s.Accounted i := by
  obtain ⟨s, h, nextInst, verdicts, current, pending⟩ := exists_of_any (o := again.foldlM
    (guarded (State.turn 1) fun s ev => ev.Fresh s ∧ ev.Clear s) (State.init Env.steady {}))
    (P := fun s => s.nextInst = 3 ∧ s.verdicts = [0] ∧ s.current = some 1 ∧ s.Pending 2)
    (by decide +kernel)
  exact ⟨s, h, nextInst, verdicts, current, pending, submissions_accounted (.of_run (.of_script h))⟩

/-- The second of three instances of one name has not been started when the third
arrives. -/
def overwritten : List Event :=
  .accept "a" :: List.replicate 3 (.message 1
    [(Constant.command, Constant.solve), (Constant.name, "a.smt2")] (some "(assert true)"))

theorem submissions_lost :
    ∃ s, Turns (fun _ _ => True) (State.init Env.steady {}) s ∧ s.config.enableLog = false ∧
      s.nextInst = 3 ∧ s.trees = [("a.smt2", 2)] ∧ s.current = some 0 ∧ s.verdicts = [] ∧
      ¬ s.Accounted 1 := by
  obtain ⟨s, h, lost⟩ := exists_of_any (o := overwritten.foldlM
    (guarded (State.turn 1) fun _ _ => True) (State.init Env.steady {}))
    (P := fun s => s.config.enableLog = false ∧ s.nextInst = 3 ∧ s.trees = [("a.smt2", 2)] ∧
      s.current = some 0 ∧ s.verdicts = [] ∧ ¬ s.Accounted 1) (by decide +kernel)
  exact ⟨s, .of_run (.of_script h), lost⟩

end Smts.Server
