import Mathlib.Data.List.Induction
import Smts.Server.SolverLaws
import Smts.Server.TreeLaws

namespace Smts.Server

open Smts.Lib Smts.Lib.Prog

/-- A status report: the solver, its node and the status. -/
structure StatusReport where
  solver : SockId
  node : NodeId
  status : SolveStatus

namespace Heap

/-- The least set with the nodes that are reported unsat and the nodes all of whose partitions
are in it. -/
inductive Refuted (h : Heap) (reports : List StatusReport) : NodeId → Prop
  | reported {e : StatusReport} (he : e ∈ reports) (hunsat : e.status = .unsat) :
      Refuted h reports e.node
  | partitions {q o : NodeId} (hand : h.isAnd q = true) (ho : o ∈ h.children q)
      (hne : h.children o ≠ []) (hall : ∀ c ∈ h.children o, Refuted h reports c) :
      Refuted h reports q

variable {h g : Heap} {reports done : List StatusReport} {r n m x k : Nat} {st : SolveStatus}

theorem Refuted.mono (hsub : ∀ e ∈ done, e.status = .unsat → e ∈ reports)
    (hn : Refuted h done n) : Refuted h reports n := by
  induction hn with
  | reported he hunsat => exact .reported (hsub _ he hunsat) hunsat
  | partitions hand ho hne _ ih => exact .partitions hand ho hne ih

section Same

theorem SameTree.truthyParent (hg : SameTree h g) : g.truthyParent n = h.truthyParent n := by
  rw [Heap.truthyParent, Heap.truthyParent, hg.forest]

theorem SameTree.isAnd (hg : SameTree h g) : g.isAnd n = h.isAnd n := isAnd_congr hg.label

theorem SameTree.isOr (hg : SameTree h g) : g.isOr n = h.isOr n := by
  rw [Heap.isOr, Heap.isOr, hg.label]

theorem truthyParent_attached (ha : h.Attached n) : h.truthyParent n = h.parent n := by
  cases hp : h.parent n with
  | none => exact truthyParent_of_none hp
  | some p => exact truthyParent_of_mem (ha.mem_of_parent hp)

theorem reaches_none (hp : h.parent n = none) : h.Reaches m n ↔ m = n := by
  constructor
  · intro hr
    rcases hr.parent_cases with he | ⟨p, hp', -⟩
    · exact he
    · rw [hp] at hp'
      cases hp'
  · rintro rfl
    exact Forest.Reaches.refl m

theorem reaches_some {p : Nat} (ha : h.Attached n) (hp : h.parent n = some p) :
    h.Reaches m n ↔ m = n ∨ h.Reaches m p := by
  constructor
  · intro hr
    by_cases he : m = n
    · exact .inl he
    · exact .inr (hr.parent_of_ne hp he).1
  · rintro (rfl | hr)
    · exact Forest.Reaches.refl m
    · exact hr.child (ha.mem_of_parent hp)

end Same

section Setting

/-- Setting a status in the tree: upwards to the root if it is `sat`, and through the nodes
whose partitions all have it. -/
theorem setStatusAux_attached (hg : SameTree h g) (ha : h.Attached n) :
    setStatusAux st (k + 1) g n =
      match h.parent n with
      | none => g.modify n fun a => { a with status := st }
      | some p =>
        if h.isOr n = true ∨ st = .sat ∨
            ∀ c ∈ h.children p, (g.modify n fun a => { a with status := st }).status c = st then
          setStatusAux st k (g.modify n fun a => { a with status := st }) p
        else g.modify n fun a => { a with status := st } := by
  have hw : SameTree h (g.modify n fun a => { a with status := st }) := hg.write n
  simp only [setStatusAux, hw.isAnd, hw.truthyParent, truthyParent_attached ha, hw.forest]
  cases hor : h.isOr n with
  | true =>
    have hand : h.isAnd n = false := by simp [Heap.isAnd, hor]
    cases h.parent n with
    | none => simp [hand]
    | some p => simp [hand]
  | false =>
    have hand : h.isAnd n = true := by simp [Heap.isAnd, hor]
    cases h.parent n with
    | none => simp [hand]
    | some p => simp [hand]

theorem status_setStatusAux_self (st : SolveStatus) (k : Nat) (h : Heap) (n : NodeId) :
    (setStatusAux st k h n).status n = st := by
  have hwrite : (h.modify n fun a => { a with status := st }).status n = st := by
    rw [modify_status, if_pos rfl]
  have hkeep (k : Nat) (p : NodeId) :
      (setStatusAux st k (h.modify n fun a => { a with status := st }) p).status n = st := by
    refine setStatusAux_rule (P := fun g => g.status n = st) (J := fun _ => True)
      (fun g m hg _ => ?_) (fun _ _ _ _ _ _ _ _ => trivial) (fun _ _ _ _ _ _ _ => trivial) k _ p
      hwrite trivial
    rw [modify_status]
    split
    · rfl
    · exact hg
  cases k with
  | zero => exact hwrite
  | succ k =>
    simp only [setStatusAux]
    split
    · split
      · exact hwrite
      · split
        · exact hkeep _ _
        · exact hwrite
    · split
      · exact hwrite
      · exact hkeep _ _

/-- `sat` is set on the node and on everything above it, and nowhere else. -/
theorem status_setStatusAux_sat (hg : SameTree h g) (ha : h.Attached n) (hk : n ≤ k) (m : Nat) :
    (h.Reaches m n → (setStatusAux .sat k g n).status m = .sat) ∧
      (¬ h.Reaches m n → (setStatusAux .sat k g n).status m = g.status m) := by
  induction k generalizing g n with
  | zero =>
    have hp : h.parent n = none := by
      cases hp : h.parent n with
      | none => rfl
      | some p => exact absurd (h.parent_lt hp) (by omega)
    rw [setStatusAux, modify_status, reaches_none hp]
    exact ⟨fun he => if_pos he, fun he => if_neg he⟩
  | succ k ih =>
    rw [setStatusAux_attached hg ha]
    cases hp : h.parent n with
    | none =>
      simp only [modify_status, reaches_none hp]
      exact ⟨fun he => if_pos he, fun he => if_neg he⟩
    | some p =>
      have hlt := h.parent_lt hp
      obtain ⟨habove, helse⟩ := ih (hg.write n) (ha.parent hp) (by omega)
      simp only [or_true, true_or, if_true, reaches_some ha hp, not_or]
      refine ⟨fun hm => ?_, fun hm => ?_⟩
      · by_cases hmp : h.Reaches m p
        · exact habove hmp
        · rw [helse hmp, modify_status, if_pos (hm.resolve_right hmp)]
      · rw [helse hm.2, modify_status, if_neg hm.1]

/-- What is unsat stays unsat. -/
theorem status_setStatusAux_keep (hm : g.status m = .unsat) :
    (setStatusAux .unsat k g n).status m = .unsat := by
  refine setStatusAux_rule (P := fun g => g.status m = .unsat) (J := fun _ => True)
    (fun g n hg _ => ?_) (fun _ _ _ _ _ _ _ _ => trivial) (fun _ _ _ _ _ _ _ => trivial) k g n
    hm trivial
  rw [modify_status]
  split
  · rfl
  · exact hg

end Setting

section Closed

/-- A node of the tree whose partitions are all unsat is unsat, for the pairs of a node and
its OR node in `X`. -/
def ClosedOn (h : Heap) (r : Nat) (X : Nat → Nat → Prop) (status : NodeId → SolveStatus) : Prop :=
  ∀ q o, h.Reaches r q → h.isAnd q = true → o ∈ h.children q → h.children o ≠ [] → X q o →
    (∀ c ∈ h.children o, status c = .unsat) → status q = .unsat

variable {X Y : Nat → Nat → Prop} {σ τ : NodeId → SolveStatus}

theorem ClosedOn.weaken (hc : ClosedOn h r X σ)
    (hY : ∀ q o, o ∈ h.children q → Y q o → (∀ c ∈ h.children o, σ c = .unsat) → X q o) :
    ClosedOn h r Y σ :=
  fun q o hq hand ho hne hy hall => hc q o hq hand ho hne (hY q o ho hy hall) hall

/-- The statuses of the OR nodes do not matter. -/
theorem ClosedOn.congr (hc : ClosedOn h r X σ) (heq : ∀ m, h.isAnd m = true → τ m = σ m) :
    ClosedOn h r X τ := by
  intro q o hq hand ho hne hx hall
  rw [heq q hand]
  refine hc q o hq hand ho hne hx fun c hc => ?_
  have hcand : h.isAnd c = true := by
    rw [isAnd_of_parent (h.parent_of_mem hc), isOr_of_parent (h.parent_of_mem ho), hand]
  rw [← heq c hcand]
  exact hall c hc

theorem ClosedOn.write (hc : ClosedOn h r (fun q o => q ≠ n ∧ n ∉ h.children o) g.status) :
    ClosedOn h r (fun _ o => n ∉ h.children o)
      (g.modify n fun a => { a with status := .unsat }).status := by
  intro q o hq hand ho hne hx hall
  rw [modify_status]
  split
  · rfl
  · next hqn =>
    refine hc q o hq hand ho hne ⟨hqn, hx⟩ fun c hco => ?_
    have hall' := hall c hco
    rwa [modify_status, if_neg (by rintro rfl; exact hx hco)] at hall'

theorem status_write_or (st : SolveStatus) {o m : Nat} (hor : h.isOr o = true) (hand : h.isAnd m = true) :
    (g.modify o fun a => { a with status := st }).status m = g.status m := by
  rw [modify_status, if_neg]
  rintro rfl
  rw [isAnd_iff, hor] at hand
  cases hand

/-- Setting a node unsat restores the closure around it. -/
theorem closed_setStatusAux (hroot : h.parent r = none) (hg : SameTree h g) (hr : h.Reaches r n)
    (hn : h.isAnd n = true) (hk : n ≤ k)
    (hc : ClosedOn h r (fun q o => q ≠ n ∧ n ∉ h.children o) g.status) :
    ClosedOn h r (fun _ _ => True) (setStatusAux .unsat k g n).status := by
  induction k using Nat.strongRecOn generalizing g n with
  | ind k ih =>
    have ha : h.Attached n := (Forest.attached_of_none hroot).below hr
    have hw := hc.write
    have hnone (hp : h.parent n = none) : ClosedOn h r (fun _ _ => True)
        (g.modify n fun a => { a with status := .unsat }).status :=
      hw.weaken fun q o _ _ _ hno => by
        rw [h.parent_of_mem hno] at hp
        cases hp
    cases k with
    | zero =>
      refine hnone ?_
      cases hp : h.parent n with
      | none => rfl
      | some p => exact absurd (h.parent_lt hp) (by omega)
    | succ k =>
      rw [setStatusAux_attached hg ha]
      cases hp : h.parent n with
      | none => exact hnone hp
      | some o =>
        have hlt := h.parent_lt hp
        have hor : h.isOr o = true := by rw [← isAnd_of_parent hp, hn]
        have hnor : ¬ h.isOr n = true := by rw [isAnd_iff.mp hn]; exact Bool.false_ne_true
        have hro : h.Reaches r o := by
          refine (hr.parent_of_ne hp ?_).1
          rintro rfl
          rw [hroot] at hp
          cases hp
        simp only [hnor, reduceCtorEq, false_or]
        split
        · next hall =>
          -- the OR node above is set next, and then its parent
          have hw' := hw.congr fun m => status_write_or
            (g := g.modify n fun a => { a with status := .unsat }) (o := o) .unsat hor
          have honly {o' : Nat} (hno : n ∈ h.children o') : o' = o := by
            rw [h.parent_of_mem hno, Option.some.injEq] at hp
            exact hp
          have htop (hpo : h.parent o = none) : ClosedOn h r (fun _ _ => True)
              ((g.modify n fun a => { a with status := .unsat }).modify o
                fun a => { a with status := .unsat }).status :=
            hw'.weaken fun q o' ho _ _ hno => by
              rw [honly hno] at ho
              rw [h.parent_of_mem ho] at hpo
              cases hpo
          cases k with
          | zero =>
            refine htop ?_
            cases hpo : h.parent o with
            | none => rfl
            | some q => exact absurd (h.parent_lt hpo) (by omega)
          | succ k =>
            rw [setStatusAux_attached (hg.write n) (ha.parent hp)]
            cases hpo : h.parent o with
            | none => exact htop hpo
            | some q =>
              have hlt' := h.parent_lt hpo
              have hrq : h.Reaches r q := by
                refine (hro.parent_of_ne hpo ?_).1
                rintro rfl
                rw [hroot] at hpo
                cases hpo
              simp only [hor, true_or, if_true]
              refine ih k (by omega) ((hg.write n).write o) hrq
                (by rw [← isOr_of_parent hpo, hor]) (by omega) ?_
              refine hw'.weaken fun q' o' ho hy _ hno => hy.1 ?_
              rw [honly hno] at ho
              rw [h.parent_of_mem ho, Option.some.injEq] at hpo
              exact hpo
        · next hall =>
          refine hw.weaken fun q o' _ _ hall' hno => hall ?_
          rw [h.parent_of_mem hno, Option.some.injEq] at hp
          exact hp ▸ hall'

end Closed

section Consistent

/-- Only nodes in `B` are unsat, and the nodes that are sat are those of `σ`. -/
structure Consistent (h : Heap) (r : Nat) (B : Nat → Prop) (σ : NodeId → SolveStatus)
    (g : Heap) : Prop where
  same : SameTree h g
  unsat : ∀ m, h.Reaches r m → h.isAnd m = true → g.status m = .unsat → B m
  sat : ∀ m, h.Reaches r m → h.isAnd m = true → (g.status m = .sat ↔ σ m = .sat)

variable {B : Nat → Prop} {σ : NodeId → SolveStatus}

theorem reaches_parent {p : Nat} (hroot : h.parent r = none) (hr : h.Reaches r n)
    (hp : h.parent n = some p) : h.Reaches r p := by
  refine (hr.parent_of_ne hp ?_).1
  rintro rfl
  rw [hroot] at hp
  cases hp

/-- A node all of whose partitions are in `B` is in `B`. -/
def Upward (h : Heap) (B : Nat → Prop) : Prop :=
  ∀ q o, h.isAnd q = true → o ∈ h.children q → h.children o ≠ [] → (∀ c ∈ h.children o, B c) → B q

theorem Consistent.setStatus (hg : Consistent h r B σ g) (hroot : h.parent r = none)
    (hup : Upward h B) (hB : ∀ m, h.Reaches r m → h.isAnd m = true → B m → σ m ≠ .sat)
    (hr : h.Reaches r n) (hn : B n) (hand : h.isAnd n = true) :
    Consistent h r B σ (g.setStatus n .unsat) := by
  refine setStatus_rule .unsat (P := Consistent h r B σ) (J := fun n => h.Reaches r n ∧
    (h.isAnd n = true → B n) ∧ ∀ q, h.isOr n = true → h.parent n = some q → B q) ?_ ?_ ?_ hg
    ⟨hr, fun _ => hn, fun q hor => ?_⟩
  · rintro g n hg ⟨-, hn, -⟩
    refine ⟨hg.same.write n, fun m hm hmand hst => ?_, fun m hm hmand => ?_⟩
    · rw [modify_status] at hst
      split at hst
      · next he => exact he ▸ hn (he ▸ hmand)
      · exact hg.unsat m hm hmand hst
    · rw [modify_status]
      split
      · next he =>
        exact iff_of_false (by simp) (hB m hm hmand (he ▸ hn (he ▸ hmand)))
      · exact hg.sat m hm hmand
  · rintro g n p hg ⟨hr, hn, -⟩ hnand hp hall
    rw [hg.same.isAnd] at hnand
    obtain ⟨hpar, hne⟩ := truthyParent_eq_some.mp ((hg.same.truthyParent).symm.trans hp)
    have hor : h.isOr p = true := by rw [← isAnd_of_parent hpar, hnand]
    have hrp := reaches_parent hroot hr hpar
    refine ⟨hrp, fun hpand => ?_, fun q _ hq => ?_⟩
    · rw [isAnd_iff, hor] at hpand
      cases hpand
    · have ha : h.Attached p := (Forest.attached_of_none hroot).below hrp
      refine hup q p (by rw [← isOr_of_parent hq, hor]) (ha.mem_of_parent hq) hne fun c hc => ?_
      have hcand : h.isAnd c = true := by rw [isAnd_of_parent (h.parent_of_mem hc), hor]
      have hst := hall.resolve_left (by decide) c (by rw [hg.same.forest]; exact hc)
      exact hg.unsat c (hrp.child hc) hcand hst
  · rintro g n p hg ⟨hr, -, hn⟩ hor hp
    rw [hg.same.forest] at hp
    rw [hg.same.isOr] at hor
    refine ⟨reaches_parent hroot hr hp, fun _ => hn p hor hp, fun q hpor => ?_⟩
    rw [← isAnd_of_parent hp, isAnd_iff, hor] at hpor
    cases hpor
  · rw [isAnd_iff, hor] at hand
    cases hand

end Consistent

/-- The statuses of a tree are those that the reports ask for. -/
structure Settled (h : Heap) (r : Nat) (reports : List StatusReport)
    (status : NodeId → SolveStatus) : Prop where
  unsat : ∀ m, h.Reaches r m → h.isAnd m = true →
    (status m = .unsat ↔ ∃ a, h.Reaches a m ∧ h.Refuted reports a)
  sat : ∀ m, h.Reaches r m → h.isAnd m = true →
    (status m = .sat ↔ ∃ e ∈ reports, e.status = .sat ∧ h.Reaches m e.node)

/-- No node that is reported sat lies at or below a refuted node. -/
def Apart (h : Heap) (reports : List StatusReport) : Prop :=
  ∀ e ∈ reports, e.status = .sat → ∀ a, h.Reaches a e.node → ¬ h.Refuted reports a

/-- The reports are about AND nodes of the tree and say sat or unsat. -/
def About (h : Heap) (r : Nat) (reports : List StatusReport) : Prop :=
  ∀ e ∈ reports, h.Reaches r e.node ∧ h.isAnd e.node = true ∧ e.status ≠ .unknown

section Step

variable {e : StatusReport}

theorem Refuted.isAnd (habout : About h r reports) (hn : h.Refuted reports n) :
    h.isAnd n = true := by
  cases hn with
  | reported he _ => exact (habout _ he).2.1
  | partitions hand _ _ _ => exact hand

theorem upward_refuted (habout : About h r reports) :
    Upward h fun m => ∃ a, h.Reaches a m ∧ h.Refuted reports a := by
  intro q o hand ho hne hall
  by_cases hrefuted : ∀ c ∈ h.children o, h.Refuted reports c
  · exact ⟨q, Forest.Reaches.refl q, .partitions hand ho hne hrefuted⟩
  · push Not at hrefuted
    obtain ⟨c, hc, hnot⟩ := hrefuted
    obtain ⟨a, hac, ha⟩ := hall c hc
    have hao := (hac.parent_of_ne (h.parent_of_mem hc) (by rintro rfl; exact hnot ha)).1
    refine ⟨a, (hao.parent_of_ne (h.parent_of_mem ho) ?_).1, ha⟩
    rintro rfl
    have hor := ha.isAnd habout
    rw [isAnd_iff, isOr_of_parent (h.parent_of_mem ho), hand] at hor
    cases hor

theorem Settled.closed (hs : Settled h r reports g.status) (habout : About h r reports) :
    ClosedOn h r (fun _ _ => True) g.status := by
  intro q o hq hand ho hne _ hall
  rw [hs.unsat q hq hand]
  refine upward_refuted habout q o hand ho hne fun c hc => ?_
  have hcand : h.isAnd c = true := by
    rw [isAnd_of_parent (h.parent_of_mem hc), isOr_of_parent (h.parent_of_mem ho), hand]
  exact (hs.unsat c ((hq.child ho).child hc) hcand).mp (hall c hc)

theorem Settled.report_sat (hs : Settled h r done g.status) (hg : SameTree h g)
    (hroot : h.parent r = none) (habout : About h r (done ++ [e]))
    (hapart : Apart h (done ++ [e])) (hsat : e.status = .sat) :
    Settled h r (done ++ [e]) (g.report e.node e.status).status := by
  have he : e ∈ done ++ [e] := by simp
  have ha : h.Attached e.node := (Forest.attached_of_none hroot).below (habout e he).1
  have hset : g.report e.node e.status = g.setStatus e.node .sat := by simp [Heap.report, hsat]
  have hstatus (m : Nat) := status_setStatusAux_sat hg ha (Nat.le_refl _) m
  have hrefuted (a : Nat) : h.Refuted (done ++ [e]) a ↔ h.Refuted done a := by
    refine ⟨fun h => h.mono fun e' he' hun => ?_, fun h => h.mono fun e' he' _ => by simp [he']⟩
    rcases List.mem_append.mp he' with he' | he'
    · exact he'
    · rw [List.mem_singleton.mp he', hsat] at hun
      cases hun
  rw [hset]
  refine ⟨fun m hm hand => ?_, fun m hm hand => ?_⟩
  · by_cases hmn : h.Reaches m e.node
    · rw [Heap.setStatus, (hstatus m).1 hmn]
      refine iff_of_false (by simp) fun hcause => ?_
      obtain ⟨a, ham, hra⟩ := hcause
      exact hapart e he hsat a (ham.trans hmn) hra
    · rw [Heap.setStatus, (hstatus m).2 hmn, hs.unsat m hm hand]
      simp only [hrefuted]
  · by_cases hmn : h.Reaches m e.node
    · rw [Heap.setStatus, (hstatus m).1 hmn]
      exact iff_of_true rfl ⟨e, he, hsat, hmn⟩
    · rw [Heap.setStatus, (hstatus m).2 hmn, hs.sat m hm hand]
      simp [or_and_right, exists_or, hmn]

theorem markUnsat_known (l : List NodeId) :
    (∀ m, g.status m ≠ .unknown → (g.markUnsat l).status m ≠ .unknown) ∧
      ∀ c ∈ l, g.isAnd c = true → (g.markUnsat l).status c ≠ .unknown := by
  induction l generalizing g with
  | nil => exact ⟨fun _ h => h, fun c hc => absurd hc List.not_mem_nil⟩
  | cons c cs ih =>
    rw [markUnsat]
    have hkeep (m : Nat) (hm : g.status m ≠ .unknown) :
        (g.setStatus c .unsat).status m ≠ .unknown := by
      refine setStatus_rule .unsat (P := fun g => g.status m ≠ .unknown) (J := fun _ => True)
        (fun g n hg _ => ?_) (fun _ _ _ _ _ _ _ _ => trivial) (fun _ _ _ _ _ _ _ => trivial)
        hm trivial
      rw [modify_status]
      split
      · exact (fun h => by cases h)
      · exact hg
    split
    · next hunknown =>
      have hself : (g.setStatus c .unsat).status c ≠ .unknown := by
        rw [Heap.setStatus, status_setStatusAux_self]
        exact fun h => by cases h
      refine ⟨fun m hm => ih.1 m (hkeep m hm), fun c' hc' hand => ?_⟩
      rcases List.mem_cons.mp hc' with rfl | hc'
      · exact ih.1 _ hself
      · exact ih.2 c' hc' ((sameTree_setStatus g c .unsat).isAnd.trans hand)
    · next hknown =>
      refine ⟨ih.1, fun c' hc' hand => ?_⟩
      rcases List.mem_cons.mp hc' with rfl | hc'
      · exact ih.1 _ fun hst => hknown ⟨hst, hand⟩
      · exact ih.2 c' hc' hand

/-- Everything below a refuted node is unsat, if that holds for the reported ones. -/
theorem Refuted.unsat_below {σ : NodeId → SolveStatus} (hn : h.Refuted reports n)
    (hr : h.Reaches r n) (single : ∀ q, h.Reaches r q → h.isAnd q = true → (h.children q).length ≤ 1)
    (hclosed : ClosedOn h r (fun _ _ => True) σ)
    (hreported : ∀ e ∈ reports, e.status = .unsat → ∀ m, h.Reaches e.node m → h.isAnd m = true →
      σ m = .unsat) :
    ∀ m, h.Reaches n m → h.isAnd m = true → σ m = .unsat := by
  induction hn with
  | reported he hunsat => exact hreported _ he hunsat
  | @partitions q o hand ho hne hall ih =>
    have hor : h.isOr o = true := by rw [isOr_of_parent (h.parent_of_mem ho), hand]
    have hro := hr.child ho
    intro m hqm hmand
    rcases Relation.ReflTransGen.cases_head hqm with rfl | ⟨o', ho', hom⟩
    · refine hclosed q o hr hand ho hne trivial fun c hc => ?_
      exact ih c hc (hro.child hc) c (Forest.Reaches.refl c)
        (by rw [isAnd_of_parent (h.parent_of_mem hc), hor])
    · obtain rfl : o' = o := by
        have hlen := single q hr hand
        match hch : h.children q, hlen, ho, ho' with
        | [a], _, ho, ho' => rw [List.mem_singleton.mp ho', List.mem_singleton.mp ho]
      rcases Relation.ReflTransGen.cases_head hom with rfl | ⟨c, hc, hcm⟩
      · rw [isAnd_iff, hor] at hmand
        cases hmand
      · exact ih c hc (hro.child hc) m hcm hmand

theorem Settled.report_unsat (hs : Settled h r done g.status) (hg : SameTree h g)
    (hroot : h.parent r = none) (habout : About h r (done ++ [e]))
    (single : ∀ q, h.Reaches r q → h.isAnd q = true → (h.children q).length ≤ 1)
    (hapart : Apart h (done ++ [e])) (hunsat : e.status = .unsat) :
    Settled h r (done ++ [e]) (g.report e.node e.status).status := by
  have he : e ∈ done ++ [e] := by simp
  obtain ⟨hr, hand, -⟩ := habout e he
  have hup := upward_refuted habout
  have hB : ∀ m, h.Reaches r m → h.isAnd m = true →
      (∃ a, h.Reaches a m ∧ h.Refuted (done ++ [e]) a) → g.status m ≠ .sat := by
    rintro m hm hmand ⟨a, ham, ha⟩ hsat
    obtain ⟨e', he', hsat', hme'⟩ := (hs.sat m hm hmand).mp hsat
    exact hapart e' (List.mem_append_left _ he') hsat' a (ham.trans hme') ha
  have hn : ∃ a, h.Reaches a e.node ∧ h.Refuted (done ++ [e]) a :=
    ⟨e.node, Forest.Reaches.refl _, .reported he hunsat⟩
  have hstart : Consistent h r (fun m => ∃ a, h.Reaches a m ∧ h.Refuted (done ++ [e]) a)
      g.status g := by
    refine ⟨hg, fun m hm hmand hst => ?_, fun _ _ _ => Iff.rfl⟩
    obtain ⟨a, ham, ha⟩ := (hs.unsat m hm hmand).mp hst
    exact ⟨a, ham, ha.mono fun e' he' _ => List.mem_append_left _ he'⟩
  have hset := hstart.setStatus hroot hup hB hr hn hand
  have hclosed := closed_setStatusAux hroot hg hr hand (Nat.le_refl _)
    ((hs.closed fun e' he' => habout e' (List.mem_append_left _ he')).weaken
      fun _ _ _ _ _ => trivial)
  have hall : (g.setStatus e.node .unsat).all e.node = h.all e.node := all_congr hset.same.forest _
  have hreport : g.report e.node e.status =
      (g.setStatus e.node .unsat).markUnsat (h.all e.node) := by
    simp only [Heap.report, hunsat, if_true, hall]
  rw [hreport]
  obtain ⟨hfinal, hfinalClosed, hkeep⟩ := markUnsat_rule (h := g.setStatus e.node .unsat)
    (l := h.all e.node)
    (P := fun g' => Consistent h r (fun m => ∃ a, h.Reaches a m ∧ h.Refuted (done ++ [e]) a)
      g.status g' ∧ ClosedOn h r (fun _ _ => True) g'.status ∧
      ∀ m, g.status m = .unsat → g'.status m = .unsat)
    (fun g' c hg' hc _ hcand => by
      have hnc := mem_all.mp hc
      rw [hg'.1.same.isAnd] at hcand
      refine ⟨hg'.1.setStatus hroot hup hB (hr.trans hnc) ?_ hcand, ?_, ?_⟩
      · exact ⟨e.node, hnc, .reported he hunsat⟩
      · exact closed_setStatusAux hroot hg'.1.same (hr.trans hnc) hcand (Nat.le_refl _)
          (hg'.2.1.weaken fun _ _ _ _ _ => trivial)
      · exact fun m hm => status_setStatusAux_keep (hg'.2.2 m hm))
    ⟨hset, hclosed, fun m hm => status_setStatusAux_keep hm⟩
  have hknown := (markUnsat_known (g := g.setStatus e.node .unsat) (h.all e.node)).2
  refine ⟨fun m hm hmand => ⟨hfinal.unsat m hm hmand, fun hcause => ?_⟩,
    fun m hm hmand => ?_⟩
  · obtain ⟨a, ham, ha⟩ := hcause
    have hra : h.Reaches r a := by
      rcases hm.total ham with hra | har
      · exact hra
      · rw [(reaches_none hroot).mp har]
        exact Forest.Reaches.refl r
    refine ha.unsat_below hra single hfinalClosed (fun e' he' hun m' hem' hmand' => ?_) m ham hmand
    rcases List.mem_append.mp he' with hdone | hlast
    · refine hkeep m' ((hs.unsat m' ((habout e' he').1.trans hem') hmand').mpr ?_)
      exact ⟨e'.node, hem', .reported hdone hun⟩
    · obtain rfl := List.mem_singleton.mp hlast
      have hrm' := hr.trans hem'
      have hne := hknown m' (mem_all.mpr hem') (hset.same.isAnd.trans hmand')
      have hnsat : (((g.setStatus e'.node .unsat).markUnsat (h.all e'.node)).status m') ≠ .sat :=
        fun hst => hB m' hrm' hmand' ⟨e'.node, hem', .reported he hunsat⟩
          ((hfinal.sat m' hrm' hmand').mp hst)
      revert hne hnsat
      cases ((g.setStatus e'.node .unsat).markUnsat (h.all e'.node)).status m' <;> simp
  · rw [hfinal.sat m hm hmand, hs.sat m hm hmand]
    simp [or_and_right, exists_or, hunsat]

theorem Apart.init (h' : Apart h (done ++ [e])) : Apart h done :=
  fun e' he' hsat a hr ha => h' e' (List.mem_append_left _ he') hsat a hr
    (ha.mono fun _ he'' _ => List.mem_append_left _ he'')

theorem sameTree_reports (h : Heap) (reports : List StatusReport) :
    SameTree h (reports.foldl (fun g e => g.report e.node e.status) h) := by
  induction reports using List.reverseRecOn with
  | nil => exact .refl h
  | append_singleton done e ih =>
    rw [List.foldl_append]
    exact ih.trans (sameTree_report _ _ _)

/-- The reports settle the tree, one after the other. -/
theorem settled_reports (hroot : h.parent r = none)
    (single : ∀ q, h.Reaches r q → h.isAnd q = true → (h.children q).length ≤ 1)
    (unknown : ∀ m, h.Reaches r m → h.isAnd m = true → h.status m = .unknown)
    (habout : About h r reports) (hapart : Apart h reports) :
    Settled h r reports (reports.foldl (fun g e => g.report e.node e.status) h).status := by
  induction reports using List.reverseRecOn with
  | nil =>
    refine ⟨fun m hm hand => ?_, fun m hm hand => ?_⟩
    · rw [List.foldl_nil, unknown m hm hand]
      refine iff_of_false (fun h => by cases h) fun ⟨a, ham, ha⟩ => ?_
      have hempty (n : Nat) : ¬ Refuted h [] n := by
        intro hn
        induction hn with
        | reported he _ => exact absurd he List.not_mem_nil
        | partitions _ _ hne _ ih =>
          obtain ⟨c, hc⟩ := List.exists_mem_of_ne_nil _ hne
          exact ih c hc
      exact hempty a ha
    · rw [List.foldl_nil, unknown m hm hand]
      exact iff_of_false (fun h => by cases h) fun ⟨e, he, _⟩ => absurd he List.not_mem_nil
  | append_singleton done e ih =>
    have hs := ih (fun e' he' => habout e' (List.mem_append_left _ he')) hapart.init
    have hg := sameTree_reports h done
    rw [List.foldl_append]
    have hknown := (habout e (by simp)).2.2
    cases hst : e.status with
    | unknown => exact absurd hst hknown
    | sat => exact hs.report_sat hg hroot habout hapart hst
    | unsat => exact hs.report_unsat hg hroot habout single hapart hst

end Step

end Heap

theorem wp_readStatus_heap {s : State} {x : SockId} {n : NodeId} {status : SolveStatus} :
    wp (Solver.readStatus x n status) (fun _ t => t.heap = s.heap.report n status)
      (fun _ _ => False) s := by
  rw [Solver.readStatus, wp_bind, wp_modifySolver, wp_bind, wp_modifyHeap, wp_when]
  refine ⟨fun hu => ?_, fun hu => ?_⟩
  · rw [wp_bind, wp_gets]
    refine Solver.wp_markUnsat ?_
    simp only [Heap.report, if_pos hu]
  · simp only [Heap.report, if_neg hu]

theorem wp_readStatuses {s : State} (reports : List StatusReport) :
    wp (forEach (fun e => Solver.readStatus e.solver e.node e.status) reports)
      (fun _ t => t.heap = reports.foldl (fun g e => g.report e.node e.status) s.heap)
      (fun _ _ => False) s := by
  induction reports generalizing s with
  | nil => rfl
  | cons e reports ih =>
    rw [forEach, wp_bind]
    refine wp_mono wp_readStatus_heap (fun _ t ht => ?_) fun _ _ h => h
    rw [List.foldl_cons, ← ht]
    exact ih

/-- In whatever order the reports come in, an AND node ends up unsat if it lies at or below a
refuted node, sat if it lies at or above a node that was reported sat, and unknown otherwise. -/
theorem statuses_closure (s : State) (r : NodeId) (hroot : s.heap.parent r = none)
    (single : ∀ q, s.heap.Reaches r q → s.heap.isAnd q = true → (s.heap.children q).length ≤ 1)
    (unknown : ∀ m, s.heap.Reaches r m → s.heap.isAnd m = true → s.heap.status m = .unknown)
    (reports : List StatusReport) (habout : s.heap.About r reports)
    (hapart : s.heap.Apart reports) :
    ∃ t, forEach (fun e => Solver.readStatus e.solver e.node e.status) reports s = (.ok (), t) ∧
      ∀ m, s.heap.Reaches r m → s.heap.isAnd m = true →
        (t.heap.status m = .unsat ↔ ∃ a, s.heap.Reaches a m ∧ s.heap.Refuted reports a) ∧
        (t.heap.status m = .sat ↔ ∃ e ∈ reports, e.status = .sat ∧ s.heap.Reaches m e.node) ∧
        (t.heap.status m = .unknown ↔ (¬ ∃ a, s.heap.Reaches a m ∧ s.heap.Refuted reports a) ∧
          ¬ ∃ e ∈ reports, e.status = .sat ∧ s.heap.Reaches m e.node) := by
  have hsettled := Heap.settled_reports hroot single unknown habout hapart
  rcases hrun : forEach (fun e => Solver.readStatus e.solver e.node e.status) reports s
    with ⟨e | a, t⟩
  · exact (wp_error (wp_readStatuses reports) hrun).elim
  · have hheap := wp_ok (wp_readStatuses reports) hrun
    rw [← hheap] at hsettled
    refine ⟨t, hrun, fun m hm hand => ?_⟩
    have hunsat := hsettled.unsat m hm hand
    have hsat := hsettled.sat m hm hand
    refine ⟨hunsat, hsat, ?_⟩
    rw [← hunsat, ← hsat]
    cases t.heap.status m <;> simp

/-- A root with two partitions. -/
def halved : State where
  world := { env := Env.steady }
  heap := ((Heap.empty.addRoot { cls := .smt, smt := "(assert true)", name := "a.smt2" }).2.ask
    0).reply 1 (some ["x", "(not x)"])

/-- Both partitions are refuted, the second one first. -/
def bothUnsat : List StatusReport := [⟨1, 3, .unsat⟩, ⟨2, 2, .unsat⟩]

theorem halved_reaches {m : NodeId} (h : halved.heap.Reaches 0 m) : m ∈ [0, 1, 2, 3] := by
  have hall : halved.heap.all 0 = [0, 1, 2, 3] := by decide +kernel
  exact hall ▸ Heap.mem_all.mpr h

theorem statuses_closure_halved :
    ∃ t, forEach (fun e => Solver.readStatus e.solver e.node e.status) bothUnsat halved =
      (.ok (), t) ∧ t.heap.status 0 = .unsat := by
  have hreach {m : NodeId} (hm : m ∈ halved.heap.all 0) : halved.heap.Reaches 0 m :=
    Heap.mem_all.mp hm
  obtain ⟨t, hrun, hstatus⟩ := statuses_closure halved 0 (by decide +kernel)
    (fun q hq => (by decide +kernel : ∀ q ∈ [0, 1, 2, 3], halved.heap.isAnd q = true →
      (halved.heap.children q).length ≤ 1) q (halved_reaches hq))
    (fun q hq _ => (by decide +kernel : ∀ q ∈ [0, 1, 2, 3], halved.heap.status q = .unknown) q
      (halved_reaches hq))
    bothUnsat
    (by
      intro e he
      rcases List.mem_cons.mp he with rfl | he
      · exact ⟨hreach (by decide +kernel), by decide +kernel, by decide⟩
      · obtain rfl := List.mem_singleton.mp he
        exact ⟨hreach (by decide +kernel), by decide +kernel, by decide⟩)
    (by
      intro e he hsat
      rcases List.mem_cons.mp he with rfl | he
      · cases hsat
      · obtain rfl := List.mem_singleton.mp he
        cases hsat)
  refine ⟨t, hrun, ((hstatus 0 (hreach (by decide +kernel)) (by decide +kernel)).1).mpr ?_⟩
  have hrefuted : ∀ c ∈ halved.heap.children 1, halved.heap.Refuted bothUnsat c := by
    have hchildren : halved.heap.children 1 = [2, 3] := by decide +kernel
    rw [hchildren]
    intro c hc
    rcases List.mem_cons.mp hc with rfl | hc
    · exact .reported (e := ⟨2, 2, .unsat⟩) (by simp [bothUnsat]) rfl
    · obtain rfl := List.mem_singleton.mp hc
      exact .reported (e := ⟨1, 3, .unsat⟩) (by simp [bothUnsat]) rfl
  exact ⟨0, Lib.Forest.Reaches.refl 0, .partitions (by decide +kernel) (o := 1) (by decide +kernel)
    (by decide +kernel) hrefuted⟩

end Smts.Server
