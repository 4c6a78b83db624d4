import Smts.Server.Operations
import Smts.Server.Streams
import Smts.Server.Verdicts

namespace Smts.Server

open Smts.Lib

variable {Model : Type} {sem : String → Set Model} {s t u v : State} {ev : Event} {r : NodeId}
  {outcome : Except Exn Unit}

/-- The root of an SMT tree is made by `submit`. -/
theorem Act.born {a : Act} (hs : Seated s) (ha : a.Enabled s) (hr : s.heap.size ≤ r)
    (hlt : r < (a.apply s).heap.size) (smt : ((a.apply s).heap.label r).cls = .smt) :
    r = s.heap.size ∧ ∃ name l, a = .submit name l := by
  cases a with
  | submit name l => exact ⟨Nat.le_antisymm (Nat.le_of_lt_succ hlt) hr, name, l, rfl⟩
  | ask x n =>
    obtain ⟨hn, hand, -⟩ := hs.placed x n ha
    have hsize : r < (s.heap.ask n).toForest.size := hlt
    rw [Heap.ask_forest hn hand] at hsize
    obtain rfl := Nat.le_antisymm (Nat.le_of_lt_succ hsize) hr
    rw [show ((Act.ask x n).apply s).heap = s.heap.ask n from rfl, Heap.ask_label hn hand,
      Function.update_self] at smt
    cases smt
  | report x n status =>
    have hsize : r < (s.heap.report n status).toForest.size := hlt
    rw [(Heap.sameTree_report s.heap n status).forest] at hsize
    exact absurd hsize (Nat.not_lt.mpr hr)
  | reply x o partitions =>
    obtain ⟨ho, hor, he, _⟩ := hs.getLast_lt ha
    have filled {ps : List String} {g : Heap} (hf : s.heap.Filled o ps g) (hlt : r < g.size)
        (smt : (g.label r).cls = .smt) : False := by
      obtain ⟨i, rfl⟩ := Nat.exists_eq_add_of_le hr
      rw [hf.size] at hlt
      rw [hf.label i (Nat.lt_of_add_lt_add_left hlt)] at smt
      cases smt
    rw [show ((Act.reply x o partitions).apply s).heap = s.heap.reply o partitions from rfl] at hlt smt
    rcases Heap.reply_cases ho hor partitions with ⟨_, hre⟩ | ⟨ps, g, _, hf, ⟨p, _, _, hre⟩ | ⟨_, hre⟩⟩
    · rw [hre] at hlt
      exact absurd hlt (Nat.not_lt.mpr hr)
    · rw [hre] at hlt smt
      exact (filled hf hlt smt).elim
    · rw [hre] at hlt smt
      exact (filled hf hlt smt).elim
  | split root p =>
    obtain ⟨hroot, hand, -⟩ := ha
    obtain ⟨g, hg, hsize, hor, -, -, hf⟩ := split_filled (p := p) hroot hand
    rw [show ((Act.split root p).apply s).heap = (fixedpointPartition p root s.heap).2 from rfl]
      at hlt smt
    rcases Nat.lt_or_ge r g.size with hold | hnew
    · obtain rfl : r = s.heap.size :=
        Nat.le_antisymm (Nat.le_of_lt_succ (Nat.lt_of_lt_of_eq hold hsize)) hr
      rw [hf.grows.label _ hold] at smt
      rw [Heap.isOr, smt] at hor
      cases hor
    · obtain ⟨i, rfl⟩ := Nat.exists_eq_add_of_le hnew
      rw [hf.size] at hlt
      rw [hf.label i (Nat.lt_of_add_lt_add_left hlt)] at smt
      cases smt
  | process n => exact absurd hlt (Nat.not_lt.mpr hr)
  | _ => exact absurd hlt (Nat.not_lt.mpr hr)

theorem opened_submit {name : String} {l : Label} (hs : Seated s) (hl : l.cls = .smt) :
    Opened s.heap.size ((Act.submit name l).apply s) where
  seated := hs.act _ (by simp [Act.Enabled, hl])
  lt := Nat.lt_succ_self _
  smt := by simp [Act.apply, State.submit, Heap.addRoot, hl]
  alone n hn := by
    have hg : s.heap.Grows ((Act.submit name l).apply s).heap := Heap.addRoot_grows l
    rcases Nat.lt_or_ge n s.heap.size with hold | hnew
    · rw [hg.root n hold] at hn
      exact absurd hn (Nat.ne_of_lt (Forest.root_lt_size _ hold))
    · have hpar : ((Act.submit name l).apply s).heap.parent n = none := by
        cases hp : ((Act.submit name l).apply s).heap.parent n with
        | none => rfl
        | some p =>
          have hmem : s.heap.parent n = some p := hp
          exact absurd (s.heap.lt_size hmem) (Nat.not_lt.mpr hnew)
      rwa [Forest.root_of_none _ hpar] at hn
  unknown := by simp [Act.apply, State.submit, Heap.addRoot, Heap.status]

/-- An SMT tree is in order at the end of a path if it was so at the start, or if it has been
opened in between. -/
theorem Path.sober {G : Act → State → Prop} {h : Heap} (path : Path G s t)
    (hG : ∀ a v, G a v → a.Enabled v) (smt : (t.heap.label r).cls = .smt) (hr : r < t.heap.size)
    (truth : ∀ a v w, G a v → h.size ≤ v.heap.size → Quiet (a.apply v) w → Seated w →
      Path G w t → r < v.heap.size → a.Truthful sem r v)
    (hs : Seated s) (hle : h.size ≤ s.heap.size) (old : r < s.heap.size → Sober sem r s) :
    Sober sem r t := by
  induction path using Relation.ReflTransGen.head_induction_on with
  | refl => exact old hr
  | @head u v hacts hrest ih =>
    obtain ⟨a, ha, hq⟩ := hacts
    have hen := hG a u ha
    have hseat := (hs.act a hen).quiet hq
    have hg : u.heap.Grows v.heap :=
      (hs.grows a hen).trans (.of_eq hq.heap.forest hq.heap.label)
    refine ih hseat (Nat.le_trans hle hg.size) fun hv => ?_
    rcases Nat.lt_or_ge r u.heap.size with hold | hnew
    · exact ((old hold).act a hen (truth a u v ha hle hq hseat hrest hold)).quiet hq
    · have hlabel : ((a.apply u).heap.label r).cls = .smt := by
        rw [← hq.heap.label, ← (Path.grows hG hrest hseat).2.label r hv]
        exact smt
      have hlt : r < (a.apply u).heap.size := by
        rw [hq.heap.forest] at hv
        exact hv
      obtain ⟨rfl, name, l, rfl⟩ := Act.born hs hen hnew hlt hlabel
      have hl : l.cls = .smt := by simpa [Act.apply, State.submit, Heap.addRoot] using hlabel
      exact (opened_submit hs hl).sober.quiet hq

theorem Receipt.tended {y : SockId} (h : Receipt ev y s t) : s.heap.Tended t.heap := by
  cases h with
  | calm h =>
    cases h with
    | rest h => exact .of_eq h.forest h.label
    | print | write => exact .refl _
  | tree _ _ heap => exact heap
  | gone _ _ rest => exact .of_eq rest.forest rest.label
  | born rest => exact .of_eq rest.forest rest.label

theorem Intake.tended (h : Intake ev s u) : s.heap.Tended u.heap := by
  obtain ⟨-, trail, -, -⟩ := h
  induction trail with
  | refl => exact .refl _
  | tail _ hstep ih => exact ih.trans hstep.tended

/-- A message of a solver is right about a tree. -/
def Event.Right (sem : String → Set Model) (r : NodeId) (ev : Event) (s : State) : Prop :=
  ∀ a : Act, (∃ x n status, a = .report x n status) ∨ (∃ x o partitions, a = .reply x o partitions) →
    a.Heard ev s s → a.Truthful sem r s

theorem Intake.sober (h : Intake ev s u) (hs : Seated s) (smt : (u.heap.label r).cls = .smt)
    (hr : r < u.heap.size) (right : r < s.heap.size → ev.Right sem r s)
    (old : r < s.heap.size → Sober sem r s) : Sober sem r u := by
  refine h.path.sober (h := s.heap) (fun _ _ ha => ha.1.1.1) smt hr ?_ hs (Nat.le_refl _) old
  intro a v w ha hle hq hw hrest hv
  have hreceived := ha.1.2
  cases a with
  | report x n status =>
    obtain ⟨rfl, -⟩ := hreceived
    exact right hv _ (.inl ⟨x, n, status, rfl⟩) ha
  | reply x o partitions =>
    obtain ⟨rfl, -⟩ := hreceived
    exact right hv _ (.inr ⟨x, o, partitions, rfl⟩) ha
  | split root p =>
    -- a partitioning at once would leave a new node below the root
    rintro rfl
    obtain ⟨hroot, hand, -⟩ := ha.1.1.1
    obtain ⟨g, hg, hsize, hor, hch, -, hf⟩ := split_filled (p := p) hroot hand
    have later : g.Grows u.heap := (hf.grows.trans (.of_eq hq.heap.forest hq.heap.label)).trans
      (Path.grows (fun _ _ ha => ha.1.1.1) hrest hw).2
    have hmem : v.heap.size ∈ u.heap.children root :=
      (later.children root).subset (by simp [hch])
    have hold := h.tended.smt root smt _ hmem
    exact absurd (Forest.mem_lt_size hold) (Nat.not_lt.mpr hle)
  | _ => trivial

theorem Phases.sober (h : Phases ev outcome s u v t) (hs : Consistent s)
    (smt : (t.heap.label r).cls = .smt) (hr : r < t.heap.size)
    (right : r < s.heap.size → ev.Right sem r s) (old : r < s.heap.size → Sober sem r s) :
    Sober sem r t := by
  have hu : Consistent u := hs.path (fun _ _ ha => ha.1.1) h.intake.path
  refine h.path.sober (h := u.heap) (fun _ _ ha => ha.1.1) smt hr ?_ hu.seated (Nat.le_refl _)
    fun hlt => ?_
  · intro a v w ha _ _ _ _ _
    have hinner := ha.2
    cases a with
    | report | reply | split => exact hinner.elim
    | _ => trivial
  · refine h.intake.sober hs.seated ?_ hlt right old
    rw [← (Path.grows (fun _ _ ha => ha.1.1) h.path hu.seated).2.label r hlt]
    exact smt

theorem Phases.persists (h : Phases ev outcome s u v t) : s.heap.Persists t.heap := by
  refine h.intake.tended.toPersists.trans ((deeds_persist h.deeds).trans ?_)
  rcases h.last with rfl | ⟨_, -, hf⟩
  · exact .refl _
  · exact .of_eq hf.rest.1 hf.rest.2.1

/-- The verdicts that are printed are those that the trees hold. -/
structure Speaks (s t : State) : Prop where
  status : ∀ n, n < s.heap.size → t.heap.status n = s.heap.status n
  root : ∀ i, t.root i = s.root i
  out : ∀ line ∈ t.out, line ∈ s.out ∨ line.verdict? = none ∨
    ∃ i filename runtime status, line = .verdict i status filename runtime ∧
      (s.root i < s.heap.size → status = s.heap.status (s.root i))

namespace Speaks

theorem rest (status : ∀ n, t.heap.status n = s.heap.status n) (root : ∀ i, t.root i = s.root i)
    (out : t.out = s.out) : Speaks s t :=
  ⟨fun n _ => status n, root, fun _ hl => .inl (out ▸ hl)⟩

theorem print {line : Output} (h : line.verdict? = none) :
    Speaks s { s with out := s.out ++ [line] } where
  status _ _ := rfl
  root _ := rfl
  out l hl := (List.mem_append.mp hl).imp_right fun hl => by
    obtain rfl := List.mem_singleton.mp hl
    exact .inl h

theorem trans (h : Speaks s t) (hsize : s.heap.size ≤ t.heap.size) (g : Speaks t u) :
    Speaks s u where
  status n hn := (g.status n (Nat.lt_of_lt_of_le hn hsize)).trans (h.status n hn)
  root i := (g.root i).trans (h.root i)
  out l hl := by
    rcases g.out l hl with hl | hl | ⟨i, filename, runtime, status, rfl, hst⟩
    · exact h.out l hl
    · exact .inr (.inl hl)
    · refine .inr (.inr ⟨i, filename, runtime, status, rfl, fun hlt => ?_⟩)
      rw [h.root i] at hst
      rw [hst (Nat.lt_of_lt_of_le hlt hsize), h.status _ hlt]

theorem of_deed (h : Deed s t) : Speaks s t := by
  cases h with
  | calm h =>
    cases h with
    | rest h => exact rest h.status h.root h.out
    | print h => exact print h
    | write => exact rest (fun _ => rfl) (fun _ => rfl) rfl
  | verdict i filename runtime =>
    refine ⟨fun _ _ => rfl, fun _ => rfl, fun l hl => (List.mem_append.mp hl).imp_right fun hl => ?_⟩
    exact .inr ⟨i, filename, runtime, _, List.mem_singleton.mp hl, fun _ => rfl⟩
  | stop | solve | move | ask => exact rest (fun _ => rfl) (fun _ => rfl) rfl
  | grow _ status => exact ⟨status, fun _ => rfl, fun _ hl => .inl hl⟩

theorem of_deeds (h : Relation.ReflTransGen Deed s t) : Speaks s t := by
  induction h with
  | refl => exact rest (fun _ => rfl) (fun _ => rfl) rfl
  | tail hd hstep ih => exact ih.trans (deeds_persist hd).evolves.size (of_deed hstep)

end Speaks

theorem Phases.speaks (h : Phases ev outcome s u v t) : Speaks u t := by
  have hd := Speaks.of_deeds h.deeds
  rcases h.last with rfl | ⟨_, -, hf⟩
  · exact hd
  · obtain ⟨-, -, status, -, out, root, -⟩ := hf.rest
    exact hd.trans (deeds_persist h.deeds).evolves.size (.rest status root out)

/-- No verdict is printed up to the call of `entrust`. -/
theorem Intake.out (h : Intake ev s u) : ∀ line ∈ u.out, line ∈ s.out ∨ line.verdict? = none := by
  obtain ⟨-, trail, -, -⟩ := h
  induction trail with
  | refl => exact fun _ hl => .inl hl
  | @tail v w _ hstep ih =>
    intro line hl
    have same (out : w.out = v.out) : line ∈ s.out ∨ line.verdict? = none := ih line (out ▸ hl)
    cases hstep with
    | calm h =>
      cases h with
      | rest h => exact same h.out
      | print h =>
        rcases List.mem_append.mp hl with hl | hl
        · exact ih line hl
        · exact .inr (List.mem_singleton.mp hl ▸ h)
      | write => exact same rfl
    | tree _ _ _ _ out => exact same out
    | gone _ _ rest => exact same rest.out
    | born rest => exact same rest.out

/-- What holds of the instances that there are. -/
structure Entered (s t : State) : Prop where
  nextInst : s.nextInst ≤ t.nextInst
  root : ∀ i, i < s.nextInst → t.root i = s.root i
  printed : (∀ i ∈ s.verdicts, i < s.nextInst) → ∀ i ∈ t.verdicts, i < t.nextInst

theorem Entered.of_path {G : Act → State → Prop} {hindered : Prop} (h : Path G s t)
    (hG : ∀ a v, G a v → a.Allowed hindered v) (hs : Consistent s) : Entered s t := by
  have key : Entered s t ∧ Consistent t := by
    refine h.invariant (I := fun u => Entered s u ∧ Consistent u) (fun u v hq hu => ?_)
      (fun a u ha hu => ?_) ⟨⟨Nat.le_refl _, fun _ _ => rfl, fun h => h⟩, hs⟩
    · refine ⟨⟨?_, fun i hi => (hq.root i).trans (hu.1.root i hi), fun hp => ?_⟩, hu.2.quiet hq⟩
      · rw [hq.nextInst]
        exact hu.1.nextInst
      · rw [hq.verdicts, hq.nextInst]
        exact hu.1.printed hp
    · obtain ⟨hu, hcons⟩ := hu
      have hallowed := hG a u ha
      refine ⟨?_, hcons.act a hallowed⟩
      have same (nextInst : (a.apply u).nextInst = u.nextInst)
          (root : ∀ i, (a.apply u).root i = u.root i)
          (verdicts : (a.apply u).verdicts = u.verdicts) : Entered s (a.apply u) := by
        refine ⟨by rw [nextInst]; exact hu.nextInst, fun i hi => (root i).trans (hu.root i hi), ?_⟩
        rw [nextInst, verdicts]
        exact hu.printed
      cases a with
      | submit name l =>
        refine ⟨Nat.le_succ_of_le hu.nextInst, fun i hi => ?_, fun hp i hi =>
          Nat.lt_succ_of_lt (hu.printed hp i hi)⟩
        rw [← hu.root i hi]
        simp [Act.apply, State.submit, State.root,
          Nat.ne_of_lt (Nat.lt_of_lt_of_le hi hu.nextInst)]
      | conclude i shown =>
        refine ⟨hu.nextInst, hu.root, fun hp j hj => ?_⟩
        rw [Concluded.verdicts_conclude] at hj
        rcases List.mem_append.mp hj with hj | hj
        · exact hu.printed hp j hj
        · cases shown with
          | false => exact absurd hj List.not_mem_nil
          | true =>
            obtain rfl := List.mem_singleton.mp hj
            exact hcons.current j hallowed.2.1
      | verdict i =>
        refine ⟨hu.nextInst, hu.root, fun hp j hj => ?_⟩
        have hout : ((Act.verdict i).apply u).verdicts = u.verdicts ++ [i] := by
          simp [State.verdicts, Act.apply, State.print, Output.verdict?]
        rw [hout] at hj
        rcases List.mem_append.mp hj with hj | hj
        · exact hu.printed hp j hj
        · obtain rfl := List.mem_singleton.mp hj
          exact hcons.current j hallowed.2.1
      | _ => exact same rfl (fun _ => rfl) rfl
  exact key.1

theorem Phases.nextInst (h : Phases ev outcome s u v t) : t.nextInst = u.nextInst := by
  refine h.path.invariant (I := fun w => w.nextInst = u.nextInst)
    (fun _ _ hq hw => hq.nextInst.trans hw) (fun a w ha hw => ?_) rfl
  have hinner := ha.2
  cases a with
  | submit => exact hinner.elim
  | _ => exact hw

/-- In the SMT trees all statuses are right, and so is every verdict that was printed. -/
structure Upright (sem : List String → Set Model) (s : State) : Prop where
  trees : ∀ r, r < s.heap.size → s.heap.Readable r → Sober (fun text => sem (body text)) r s
  printed : ∀ i ∈ s.verdicts, i < s.nextInst
  answers : ∀ i status filename runtime, .verdict i status filename runtime ∈ s.out →
    s.heap.Readable (s.root i) →
    Verdict status (s.heap.formula (fun text => sem (body text)) (s.root i))

namespace Upright

variable {sem : List String → Set Model}

theorem init (env : Env) (config : Config) : Upright sem (State.init env config) where
  trees _ hr := absurd hr (Nat.not_lt_zero _)
  printed _ hi := absurd hi List.not_mem_nil
  answers _ _ _ _ hl := absurd hl List.not_mem_nil

theorem verdicts_of_mem {i : InstId} {status : SolveStatus} {filename : Option String}
    {runtime : Option Time} (h : .verdict i status filename runtime ∈ s.out) : i ∈ s.verdicts :=
  List.mem_filterMap.mpr ⟨_, h, rfl⟩

/-- A turn keeps this up, as long as solvers are right in what they report. -/
theorem step (hs : Upright sem s) (hcons : Consistent s) (h : Step s ev t)
    (right : ∀ r, s.heap.Readable r → ev.Right (fun text => sem (body text)) r s) :
    Upright sem t := by
  obtain ⟨outcome, hends⟩ := h.ends
  obtain ⟨u, v, hphases⟩ := hends.phases hcons
  have hu : Consistent u := hcons.path (fun _ _ ha => ha.1.1) hphases.intake.path
  have ht : Consistent t := hcons.step h
  have path : Path (Act.Caused True ev s) s t := h.path hcons (.inl trivial)
  have hg : s.heap.Grows t.heap := (Path.grows (fun _ _ ha => ha.1.1) path hcons.seated).2
  have hgu : u.heap.Grows t.heap := (Path.grows (fun _ _ ha => ha.1.1) hphases.path hu.seated).2
  have entered : Entered s t := .of_path path (fun _ _ ha => ha.1) hcons
  have trees (r : NodeId) (hr : r < t.heap.size) (hread : t.heap.Readable r) :
      Sober (fun text => sem (body text)) r t :=
    hphases.sober hcons hread.smt hr
      (fun hlt => right r (hphases.persists.readable hlt hread))
      fun hlt => hs.trees r hlt (hphases.persists.readable hlt hread)
  refine ⟨trees, entered.printed hs.printed, fun i status filename runtime hl hread => ?_⟩
  have speaks := hphases.speaks
  have hit : i < t.nextInst := entered.printed hs.printed i (verdicts_of_mem hl)
  have old (hl : .verdict i status filename runtime ∈ s.out) :
      Verdict status (t.heap.formula (fun text => sem (body text)) (t.root i)) := by
    have hi := hs.printed i (verdicts_of_mem hl)
    have hlt := (hcons.opened i hi).1.1
    rw [entered.root i hi] at hread ⊢
    rw [hg.formula hlt]
    exact hs.answers i status filename runtime hl (hphases.persists.readable hlt hread)
  rcases speaks.out _ hl with hl | hl | ⟨j, _, _, _, he, hst⟩
  · rcases hphases.intake.out _ hl with hl | hl
    · exact old hl
    · cases hl
  · cases hl
  · cases he
    have hiu : i < u.nextInst := hphases.nextInst ▸ hit
    have hlt := (hu.opened i hiu).1.1
    have hroot := speaks.root i
    rw [hst hlt, ← speaks.status _ hlt, ← hroot]
    obtain ⟨⟨hlt, hand, -⟩, hpar⟩ := ht.opened i hit
    exact (trees _ hlt hread).sound.verdict _ (Forest.root_of_none _ hpar) hand

end Upright

end Smts.Server
