import Smts.Server.Clearing
import Smts.Server.Shape

namespace Smts.Server

open Smts.Lib Smts.Lib.Prog

/-- Nodes that are unknown have no partition that is sat. -/
def Heap.Unsettled (h : Heap) : Prop :=
  ∀ n o c, h.isAnd n = true → o ∈ h.children n → c ∈ h.children o → h.status n = .unknown →
    h.status c ≠ .sat

/-- Nodes that are unknown and have partitions have one that is unknown, for the pairs of a node
and its OR node in `X`. -/
def Heap.Pending (h : Heap) (X : NodeId → NodeId → Prop) : Prop :=
  ∀ n o, h.isAnd n = true → o ∈ h.children n → h.children o ≠ [] → X n o →
    h.status n = .unknown → ∃ c ∈ h.children o, h.status c = .unknown

/-- There is always work left below a node that is unknown: one that has been processed has
partitions, and one of its partitions is unknown. -/
structure Heap.Viable (h : Heap) : Prop where
  single : ∀ n, n < h.size → h.isAnd n = true → h.len n ≤ 1
  parted : ∀ n, n < h.size → h.isAnd n = true → (h.attrs n).processed = true →
    h.status n = .unknown → ∃ o ∈ h.children n, h.children o ≠ []
  unsettled : h.Unsettled
  pending : h.Pending fun _ _ => True

section Statuses

variable {h g : Heap} {n m k : Nat} {st : SolveStatus}

theorem Heap.status_write (h : Heap) (n m : NodeId) (st : SolveStatus) :
    (h.modify n fun a => { a with status := st }).status m = if m = n then st else h.status m := by
  rw [Heap.modify_status]

theorem Heap.Unsettled.unsat (hu : h.Unsettled) (n : NodeId) :
    (h.modify n fun a => { a with status := .unsat }).Unsettled := by
  intro q o c hq ho hc hst
  simp only [Heap.status_write] at hst ⊢
  split at hst
  · cases hst
  · split
    · decide
    · exact hu q o c hq ho hc hst

theorem Heap.isAnd_partition {o c : NodeId} (hand : h.isAnd n = true) (ho : o ∈ h.children n)
    (hc : c ∈ h.children o) : h.isAnd c = true := by
  rw [Heap.isAnd_of_parent (h.parent_of_mem hc), Heap.isOr_of_parent (h.parent_of_mem ho), hand]

/-- The statuses of the OR nodes do not matter. -/
theorem Heap.Pending.writeOr {X : NodeId → NodeId → Prop} {p : NodeId} (hp : h.Pending X)
    (hor : h.isOr p = true) (st : SolveStatus) :
    (h.modify p fun a => { a with status := st }).Pending X := by
  intro q o hq ho hne hx hst
  rw [Heap.status_write_or st hor hq] at hst
  obtain ⟨c, hc, hstc⟩ := hp q o hq ho hne hx hst
  exact ⟨c, hc, by rwa [Heap.status_write_or st hor (Heap.isAnd_partition hq ho hc)]⟩

theorem Heap.Unsettled.writeOr {p : NodeId} (hu : h.Unsettled) (hor : h.isOr p = true)
    (st : SolveStatus) : (h.modify p fun a => { a with status := st }).Unsettled := by
  intro q o c hq ho hc hst
  rw [Heap.status_write_or st hor hq] at hst
  rw [Heap.status_write_or st hor (Heap.isAnd_partition hq ho hc)]
  exact hu q o c hq ho hc hst

/-- Only the parent of the node that becomes unsat may be left without work. -/
theorem Heap.Pending.unsat (hp : h.Pending fun q o => q ≠ n ∧ n ∉ h.children o) :
    (h.modify n fun a => { a with status := .unsat }).Pending fun _ o => n ∉ h.children o := by
  intro q o hq ho hne hx hst
  rw [Heap.status_write] at hst
  split at hst
  · cases hst
  · next hqn =>
    obtain ⟨c, hc, hstc⟩ := hp q o hq ho hne ⟨hqn, hx⟩ hst
    refine ⟨c, hc, ?_⟩
    rwa [Heap.status_write, if_neg (by rintro rfl; exact hx hc)]

theorem Heap.Pending.weaken {X Y : NodeId → NodeId → Prop} (hp : h.Pending X)
    (hY : ∀ q o, o ∈ h.children q → Y q o → X q o) : h.Pending Y :=
  fun q o hq ho hne hy => hp q o hq ho hne (hY q o ho hy)

theorem Heap.Unsettled.setUnsat (hu : h.Unsettled) (k n : Nat) :
    (setStatusAux .unsat k h n).Unsettled :=
  setStatusAux_rule (P := Unsettled) (J := fun _ => True) (fun _ m hg _ => hg.unsat m)
    (fun _ _ _ _ _ _ _ _ => trivial) (fun _ _ _ _ _ _ _ => trivial) k h n hu trivial

/-- Setting a node unsat goes on upwards until the parent has work left. -/
theorem Heap.Pending.setUnsat (hu : h.Unsettled) (ha : h.Attached n) (hand : h.isAnd n = true)
    (hk : n ≤ k) (hp : h.Pending fun q o => q ≠ n ∧ n ∉ h.children o) :
    (setStatusAux .unsat k h n).Pending fun _ _ => True := by
  induction k using Nat.strongRecOn generalizing h n with
  | ind k ih =>
    have hw := hp.unsat
    have hwu := hu.unsat n
    have hnone (hpar : h.parent n = none) :
        (h.modify n fun a => { a with status := .unsat }).Pending fun _ _ => True :=
      hw.weaken fun q o _ _ hno => by
        have hno' := h.parent_of_mem hno
        rw [hpar] at hno'
        cases hno'
    cases k with
    | zero =>
      refine hnone ?_
      cases hpar : h.parent n with
      | none => rfl
      | some p => exact absurd (h.parent_lt hpar) (by omega)
    | succ k =>
      rw [setStatusAux_attached (SameTree.refl h) ha]
      cases hpar : h.parent n with
      | none => exact hnone hpar
      | some o =>
        have hlt := h.parent_lt hpar
        have hor : h.isOr o = true := by rw [← isAnd_of_parent hpar, hand]
        have hnor : ¬ h.isOr n = true := by rw [isAnd_iff.mp hand]; exact Bool.false_ne_true
        have honly {o' : Nat} (hno : n ∈ h.children o') : o' = o := by
          have hno' := h.parent_of_mem hno
          rw [hpar, Option.some.injEq] at hno'
          exact hno'.symm
        simp only [hnor, reduceCtorEq, false_or]
        split
        · have hw' := hw.writeOr hor .unsat
          have hwu' := hwu.writeOr hor .unsat
          have htop (hpo : h.parent o = none) :
              ((h.modify n fun a => { a with status := .unsat }).modify o
                fun a => { a with status := .unsat }).Pending fun _ _ => True :=
            hw'.weaken fun q o' ho _ hno => by
              have ho' := h.parent_of_mem (honly hno ▸ ho)
              rw [hpo] at ho'
              cases ho'
          cases k with
          | zero =>
            refine htop ?_
            cases hpo : h.parent o with
            | none => rfl
            | some q => exact absurd (h.parent_lt hpo) (by omega)
          | succ k =>
            have ha' : (h.modify n fun a => { a with status := .unsat }).Attached o :=
              ha.parent hpar
            rw [setStatusAux_attached (SameTree.refl _) ha']
            simp only [Heap.modify_toForest]
            cases hpo : h.parent o with
            | none => exact htop hpo
            | some q =>
              have hlt' := h.parent_lt hpo
              have hor' : (h.modify n fun a => { a with status := .unsat }).isOr o = true := hor
              simp only [hor', true_or, if_true]
              refine ih k (by omega) hwu' (ha.parent hpar |>.parent hpo) ?_ (by omega) ?_
              · exact (isOr_of_parent hpo).symm.trans hor
              · refine hw'.weaken fun q' o' ho hy hno => hy.1 ?_
                have ho' := h.parent_of_mem (honly hno ▸ ho)
                rw [hpo, Option.some.injEq] at ho'
                exact ho'.symm
        · next hall =>
          -- a partition next to the node is not unsat, and not sat either
          intro q o' hq ho hne _ hst
          by_cases hno : n ∈ h.children o'
          · rw [honly hno] at ho hne ⊢
            obtain ⟨c, hc, hstc⟩ : ∃ c ∈ h.children o, ¬ _ := by simpa using hall
            refine ⟨c, hc, ?_⟩
            have hsat := hwu q o c hq ho hc hst
            cases hcst : (h.modify n fun a => { a with status := .unsat }).status c with
            | unknown => rfl
            | sat => exact absurd hcst hsat
            | unsat => exact absurd hcst hstc
          · exact hw q o' hq ho hne hno hst

theorem Heap.Viable.children_eq {q o : Nat} (hv : h.Viable) (hq : h.isAnd q = true)
    (ho : o ∈ h.children q) : h.children q = [o] := by
  have hlen := hv.single q (Nat.lt_trans (h.lt_of_mem ho) (h.mem_lt_size ho)) hq
  obtain ⟨a, hone⟩ := List.length_eq_one_iff.mp
    (Nat.le_antisymm hlen (List.length_pos_iff.mpr (List.ne_nil_of_mem ho)))
  rw [hone, List.mem_singleton] at ho
  rw [hone, ho]

/-- Statuses change, and nodes that become unknown have partitions. -/
theorem Heap.Viable.restate (hv : h.Viable) (hg : SameTree h g)
    (parted : ∀ q, h.isAnd q = true → g.status q = .unknown →
      h.status q = .unknown ∨ ∃ o ∈ h.children q, h.children o ≠ [])
    (unsettled : g.Unsettled) (pending : g.Pending fun _ _ => True) : g.Viable where
  single q := by
    rw [hg.forest, hg.isAnd, Heap.len, hg.forest]
    exact hv.single q
  parted q hlt hq hproc hst := by
    rw [hg.forest] at hlt ⊢
    rw [hg.isAnd] at hq
    rw [hg.processed] at hproc
    exact (parted q hq hst).elim (hv.parted q hlt hq hproc) id
  unsettled := unsettled
  pending := pending

/-- Every node above one that is set to sat is set to sat. -/
theorem Heap.Viable.setSat (hv : h.Viable) (ha : h.Attached n) : (h.setStatus n .sat).Viable := by
  have hstatus (m : Nat) := status_setStatusAux_sat (SameTree.refl h) ha (Nat.le_refl n) m
  have hsame := sameTree_setStatus h n .sat
  have hold {q : Nat} (hst : (h.setStatus n .sat).status q = .unknown) :
      ¬ h.Reaches q n ∧ h.status q = .unknown := by
    by_cases hq : h.Reaches q n
    · rw [Heap.setStatus, (hstatus q).1 hq] at hst
      cases hst
    · exact ⟨hq, (hstatus q).2 hq ▸ hst⟩
  have hbelow {q o c : Nat} (hq : ¬ h.Reaches q n) (ho : o ∈ h.children q) (hc : c ∈ h.children o) :
      (h.setStatus n .sat).status c = h.status c :=
    (hstatus c).2 fun hr => hq (((Forest.Reaches.of_mem ho).child hc).trans hr)
  refine hv.restate hsame (fun q _ hst => .inl (hold hst).2) (fun q o c hq ho hc hst => ?_)
    fun q o hq ho hne hx hst => ?_
  · rw [hsame.forest] at ho hc
    rw [hsame.isAnd] at hq
    rw [hbelow (hold hst).1 ho hc]
    exact hv.unsettled q o c hq ho hc (hold hst).2
  · simp only [hsame.forest] at ho hne ⊢
    rw [hsame.isAnd] at hq
    obtain ⟨c, hc, hstc⟩ := hv.pending q o hq ho hne hx (hold hst).2
    exact ⟨c, hc, (hbelow (hold hst).1 ho hc).trans hstc⟩

theorem Heap.Viable.setUnsat (hv : h.Viable) (ha : h.Attached n) (hand : h.isAnd n = true) :
    (h.setStatus n .unsat).Viable := by
  refine hv.restate (sameTree_setStatus h n .unsat) (fun q _ hst => .inl ?_)
    (hv.unsettled.setUnsat n n) (Pending.setUnsat hv.unsettled ha hand (Nat.le_refl n)
      (hv.pending.weaken fun _ _ _ _ => trivial))
  refine setStatus_rule .unsat (P := fun g => g.status q = .unknown → h.status q = .unknown)
    (J := fun _ => True) (fun g m hg _ hw => ?_) (fun _ _ _ _ _ _ _ _ => trivial)
    (fun _ _ _ _ _ _ _ => trivial) id trivial hst
  rw [Heap.status_write] at hw
  split at hw
  · cases hw
  · exact hg hw

/-- A node that is unknown, or whose partitions all are, is set to unknown. -/
theorem Heap.Viable.writeUnknown (hv : h.Viable) (hn : h.status n = .unknown ∨
      ∃ o, h.children n = [o] ∧ h.children o ≠ [] ∧ ∀ c ∈ h.children o, h.status c = .unknown) :
    (h.modify n fun a => { a with status := .unknown }).Viable := by
  have hpartition {o : Nat} (ho : o ∈ h.children n) (hne : h.status n ≠ .unknown) :
      h.children o ≠ [] ∧ ∀ c ∈ h.children o, h.status c = .unknown := by
    obtain ⟨o', ho', hall⟩ := hn.resolve_left hne
    rw [ho', List.mem_singleton] at ho
    exact ho ▸ hall
  have hstatus {m : Nat} (hm : h.status m = .unknown) :
      (h.modify n fun a => { a with status := .unknown }).status m = .unknown := by
    rw [Heap.status_write]
    split
    · rfl
    · exact hm
  refine hv.restate ((SameTree.refl h).write n) (fun q _ hst => ?_) (fun q o c hq ho hc hst => ?_)
    fun q o hq ho hne hx hst => ?_
  · rw [Heap.status_write] at hst
    split at hst
    · next hqn =>
      refine hn.imp (fun hu => hqn ▸ hu) ?_
      rintro ⟨o, ho, hne, _⟩
      exact ⟨o, by rw [hqn, ho]; exact List.mem_singleton_self o, hne⟩
    · exact .inl hst
  · by_cases hu : h.status q = .unknown
    · rw [Heap.status_write]
      split
      · decide
      · exact hv.unsettled q o c hq ho hc hu
    · obtain rfl : q = n := by
        by_contra hqn
        rw [Heap.status_write, if_neg hqn] at hst
        exact hu hst
      rw [hstatus ((hpartition ho hu).2 c hc)]
      decide
  · by_cases hu : h.status q = .unknown
    · obtain ⟨c, hc, hstc⟩ := hv.pending q o hq ho hne hx hu
      exact ⟨c, hc, hstatus hstc⟩
    · obtain rfl : q = n := by
        by_contra hqn
        rw [Heap.status_write, if_neg hqn] at hst
        exact hu hst
      obtain ⟨hne', hall⟩ := hpartition ho hu
      obtain ⟨c, hc⟩ := List.exists_mem_of_ne_nil _ hne'
      exact ⟨c, hc, hstatus (hall c hc)⟩

theorem Heap.Viable.writeOr (hv : h.Viable) (hor : h.isOr n = true) (st : SolveStatus) :
    (h.modify n fun a => { a with status := st }).Viable :=
  hv.restate ((SameTree.refl h).write n)
    (fun _ hq hst => .inl ((Heap.status_write_or st hor hq).symm.trans hst))
    (hv.unsettled.writeOr hor st) (hv.pending.writeOr hor st)

/-- A node is set to unknown along with the nodes above it all of whose partitions are. -/
theorem Heap.Viable.setUnknownAux (hv : h.Viable) (ha : h.Attached n) (hand : h.isAnd n = true)
    (hk : n ≤ k) (hn : h.status n = .unknown ∨
      ∃ o, h.children n = [o] ∧ h.children o ≠ [] ∧ ∀ c ∈ h.children o, h.status c = .unknown) :
    (setStatusAux .unknown k h n).Viable := by
  induction k using Nat.strongRecOn generalizing h n with
  | ind k ih =>
    have hw := hv.writeUnknown hn
    cases k with
    | zero => exact hw
    | succ k =>
      rw [setStatusAux_attached (SameTree.refl h) ha]
      cases hpar : h.parent n with
      | none => exact hw
      | some o =>
        have hlt := h.parent_lt hpar
        have hor : h.isOr o = true := by rw [← isAnd_of_parent hpar, hand]
        have hnor : ¬ h.isOr n = true := by rw [isAnd_iff.mp hand]; exact Bool.false_ne_true
        simp only [hnor, reduceCtorEq, false_or]
        split
        · next hall =>
          have hw' := hw.writeOr hor .unknown
          cases k with
          | zero => exact hw'
          | succ k =>
            have ha' : (h.modify n fun a => { a with status := .unknown }).Attached o :=
              ha.parent hpar
            rw [setStatusAux_attached (SameTree.refl _) ha']
            simp only [Heap.modify_toForest]
            cases hpo : h.parent o with
            | none => exact hw'
            | some q =>
              have hlt' := h.parent_lt hpo
              have hor' : (h.modify n fun a => { a with status := .unknown }).isOr o = true := hor
              simp only [hor', true_or, if_true]
              have hq : h.isAnd q = true := (isOr_of_parent hpo).symm.trans hor
              have hmem : o ∈ h.children q := (ha.parent hpar).mem_of_parent hpo
              have hone : h.children q = [o] := hv.children_eq hq hmem
              refine ih k (by omega) hw' (ha.parent hpar |>.parent hpo) hq (by omega)
                (.inr ⟨o, hone, List.ne_nil_of_mem (ha.mem_of_parent hpar), fun c hc => ?_⟩)
              rw [Heap.status_write_or .unknown hor' (Heap.isAnd_partition hq hmem hc)]
              exact hall c hc
        · exact hw

theorem Heap.Viable.setUnknown (hv : h.Viable) (ha : h.Attached n) (hand : h.isAnd n = true)
    (hn : h.status n = .unknown) : (h.setStatus n .unknown).Viable :=
  hv.setUnknownAux ha hand (Nat.le_refl n) (.inl hn)

theorem Heap.Viable.report (hv : h.Viable) (ha : h.Attached n) (hand : h.isAnd n = true)
    (hst : st = .unknown → h.status n = .unknown) : (h.report n st).Viable := by
  cases st with
  | unknown => exact hv.setUnknown ha hand (hst rfl)
  | sat => exact hv.setSat ha
  | unsat =>
    refine (Heap.markUnsat_rule (P := fun g => SameTree h g ∧ g.Viable) (fun g c hg hc _ hcand => ?_)
      ⟨sameTree_setStatus h n .unsat, hv.setUnsat ha hand⟩).2
    refine ⟨hg.1.trans (sameTree_setStatus g c .unsat), hg.2.setUnsat ?_ hcand⟩
    rw [Heap.all_congr (sameTree_setStatus h n .unsat).forest] at hc
    rw [hg.1.forest]
    exact ha.below (Heap.mem_all.mp hc)

end Statuses

section Trees

variable {h g : Heap} {n o : NodeId}

theorem Heap.Viable.extend (hv : h.Viable) (hg : h.Sprouts g) : g.Viable := by
  have hunknown {c : Nat} (hc : h.size ≤ c) (hlt : c < g.size) : g.status c = .unknown := by
    rw [Heap.status, (hg.new c hc hlt).1]
  have hfilled {q o : Nat} (hq : g.isAnd q = true) (ho : o ∈ g.children q) (hne : g.children o ≠ []) :
      (q < h.size ∧ h.isAnd q = true ∧ o ∈ h.children q ∧ g.children o = h.children o) ∨
        ∀ c ∈ g.children o, g.status c = .unknown := by
    rcases hg.children o with hsame | hnew
    · refine .inl ?_
      have hlt : o < h.size := by
        by_contra hle
        exact hne (hsame.trans (Forest.children_of_size_le (Nat.not_lt.mp hle)))
      have hltq : q < h.size := Nat.lt_trans (g.lt_of_mem ho) hlt
      refine ⟨hltq, (hg.grows.isAnd hltq).symm.trans hq, ?_, hsame⟩
      rcases hg.children q with hsame' | hnew'
      · exact hsame' ▸ ho
      · exact absurd hlt (Nat.not_lt.mpr (hnew' o ho))
    · exact .inr fun c hc => hunknown (hnew c hc) (g.mem_lt_size hc)
  constructor
  · intro m hm hand
    by_cases hlt : m < h.size
    · have hand' := (hg.grows.isAnd hlt).symm.trans hand
      exact Nat.le_trans (hg.len m hlt hand') (Nat.max_le.mpr ⟨hv.single m hlt hand', Nat.le_refl 1⟩)
    · rw [Heap.len, (hg.new m (Nat.not_lt.mp hlt) hm).2 hand]
      exact Nat.zero_le 1
  · intro q hlt' hq hproc hst
    by_cases hlt : q < h.size
    · rw [hg.processed q hlt] at hproc
      rw [hg.status q hlt] at hst
      obtain ⟨o, ho, hne⟩ := hv.parted q hlt ((hg.grows.isAnd hlt).symm.trans hq) hproc hst
      exact ⟨o, (hg.grows.children q).subset ho,
        fun he => hne (List.prefix_nil.mp (he ▸ hg.grows.children o))⟩
    · rw [(hg.new q (Nat.not_lt.mp hlt) hlt').1] at hproc
      cases hproc
  · intro q o c hq ho hc hst
    rcases hfilled hq ho (List.ne_nil_of_mem hc) with ⟨hlt, hq', ho', hsame⟩ | hall
    · rw [hsame] at hc
      rw [hg.status q hlt] at hst
      rw [hg.status c (h.mem_lt_size hc)]
      exact hv.unsettled q o c hq' ho' hc hst
    · rw [hall c hc]
      decide
  · intro q o hq ho hne hx hst
    rcases hfilled hq ho hne with ⟨hlt, hq', ho', hsame⟩ | hall
    · rw [hsame] at hne ⊢
      rw [hg.status q hlt] at hst
      obtain ⟨c, hc, hstc⟩ := hv.pending q o hq' ho' hne hx hst
      exact ⟨c, hc, (hg.status c (h.mem_lt_size hc)).trans hstc⟩
    · obtain ⟨c, hc⟩ := List.exists_mem_of_ne_nil _ hne
      exact ⟨c, hc, hall c hc⟩

theorem Heap.Viable.congr (hv : h.Viable) (hg : h.Alike g) : g.Viable where
  single m := by
    rw [hg.forest, Heap.isAnd_congr hg.label, Heap.len, hg.forest]
    exact hv.single m
  parted m := by
    rw [hg.forest, hg.processed, hg.status, Heap.isAnd_congr hg.label]
    exact hv.parted m
  unsettled q o c := by
    rw [hg.forest, hg.status, hg.status, Heap.isAnd_congr hg.label]
    exact hv.unsettled q o c
  pending q o := by
    simp only [hg.forest, hg.status, Heap.isAnd_congr hg.label]
    exact hv.pending q o

theorem Heap.Viable.process (hv : h.Viable)
    (hn : h.status n ≠ .unknown ∨ ∃ o ∈ h.children n, h.children o ≠ []) :
    (h.modify n fun a => { a with processed := true }).Viable := by
  have hstatus (m : NodeId) :
      (h.modify n fun a => { a with processed := true }).status m = h.status m := by
    rw [Heap.modify_status]
    split
    · next hm => rw [hm]; rfl
    · rfl
  constructor
  · exact hv.single
  · intro q hlt hq hproc hst
    rw [hstatus] at hst
    rw [Heap.modify_attrs] at hproc
    split at hproc
    · next hqn => exact hqn ▸ hn.resolve_left fun hne => hne (hqn ▸ hst)
    · exact hv.parted q hlt hq hproc hst
  · intro q o c hq ho hc hst
    rw [hstatus] at hst ⊢
    exact hv.unsettled q o c hq ho hc hst
  · intro q o hq ho hne hx hst
    simp only [hstatus] at hst ⊢
    exact hv.pending q o hq ho hne hx hst

end Trees

section Actions

variable {s t : State} {hindered : Prop} {i : InstId} {G : Act → State → Prop}

/-- An unknown status is only reported of a node that is unknown. -/
def Act.Prompt : Act → State → Prop
  | .report _ n status, s => status = .unknown → s.heap.status n = .unknown
  | _, _ => True

theorem Heap.Viable.act (hv : s.heap.Viable) (hseat : Seated s) (a : Act)
    (ha : a.Allowed hindered s) (hp : a.Prompt s) : (a.apply s).heap.Viable := by
  cases a with
  | ask x n =>
    obtain ⟨hlt, hand, _⟩ := hseat.placed x n ha.1
    exact hv.extend (.ask hlt hand ha.2.2.1)
  | report x n status =>
    obtain ⟨_, hand, hatt⟩ := hseat.placed x n ha.1
    exact hv.report hatt hand hp
  | reply x o partitions =>
    obtain ⟨hlt, hor, he, _⟩ := hseat.getLast_lt ha.1
    exact hv.extend (.reply hlt hor he partitions)
  | process n => exact hv.process ha.2
  | submit name l => exact hv.extend (.addRoot _ l)
  | split root p => exact hv.extend (.split ha.1.1 ha.1.2.1 ha.1.2.2.2)
  | _ => exact hv

theorem Heap.Viable.path (hv : s.heap.Viable) (hc : Server.Consistent s)
    (hG : ∀ a u, G a u → a.Allowed hindered u ∧ a.Prompt u) (h : Path G s t) : t.heap.Viable :=
  (h.invariant (I := fun u => Server.Consistent u ∧ u.heap.Viable)
    (fun _ _ hq hu => ⟨hu.1.quiet hq, hu.2.congr hq.heap⟩)
    (fun a u ha hu => ⟨hu.1.act a (hG a u ha).1, hu.2.act hu.1.seated a (hG a u ha).1 (hG a u ha).2⟩)
    ⟨hc, hv⟩).2

theorem Act.Entrusted.prompt {idle : List SockId} {a : Act} {u : State}
    (h : a.Entrusted hindered idle u) : a.Prompt u := by
  cases a with
  | report => exact h.2.elim
  | _ => trivial

/-- There is an active node below every node that is unknown. -/
theorem Heap.Viable.active {h : Heap} {n : NodeId} (hv : h.Viable) (hn : n < h.size)
    (hand : h.isAnd n = true) (hst : h.status n = .unknown) :
    ∃ m, h.Reaches n m ∧ h.status m = .unknown ∧ h.isAnd m = true ∧
      (h.attrs m).processed = false := by
  by_cases hproc : (h.attrs n).processed = true
  · obtain ⟨o, ho, hne⟩ := hv.parted n hn hand hproc hst
    obtain ⟨c, hc, hstc⟩ := hv.pending n o hand ho hne trivial hst
    have hlt : n < c := Nat.lt_trans (h.lt_of_mem ho) (h.lt_of_mem hc)
    obtain ⟨m, hr, hm⟩ :=
      Heap.Viable.active hv (h.mem_lt_size hc) (Heap.isAnd_partition hand ho hc) hstc
    exact ⟨m, ((Forest.Reaches.of_mem ho).child hc).trans hr, hm⟩
  · exact ⟨n, .refl n, hst, hand, by simpa using hproc⟩
termination_by h.size - n
decreasing_by exact Nat.sub_lt_sub_left hn hlt

/-- A node below another one of the same kind is below an OR child of it. -/
theorem Heap.below_partition {h : Heap} {r n : NodeId} (hr : h.Reaches r n) (hne : r ≠ n)
    (hrand : h.isAnd r = true) (hand : h.isAnd n = true) :
    ∃ o ∈ h.children r, h.children o ≠ [] := by
  rcases Relation.ReflTransGen.cases_head hr with he | ⟨o, ho, hon⟩
  · exact absurd he hne
  · refine ⟨o, ho, fun hnil => ?_⟩
    rcases Relation.ReflTransGen.cases_head hon with rfl | ⟨c, hc, _⟩
    · rw [Heap.isAnd_iff, Heap.isOr_of_parent (h.parent_of_mem ho), hrand] at hand
      cases hand
    · rw [hnil] at hc
      cases hc

theorem Heap.Viable.opened (hv : s.heap.Viable) (hs : Solving i s)
    (hroot : s.heap.status (s.root i) = .unknown) : s.Open i := by
  rintro ⟨n, hr, hand, hunsat⟩ childs hchilds
  obtain ⟨_, hrand, _⟩ := (hs.consistent.opened i (hs.consistent.current i hs.current)).1
  have hne : s.root i ≠ n := by
    rintro rfl
    rw [hroot] at hunsat
    cases hunsat
  obtain ⟨o, ho, hno⟩ := Heap.below_partition hr hne hrand hand
  obtain ⟨c, hc, hstc⟩ := hv.pending _ o hrand ho hno trivial hroot
  obtain ⟨m, hcm, hstm, hmand, hm⟩ :=
    hv.active (s.heap.mem_lt_size hc) (Heap.isAnd_partition hrand ho hc) hstc
  rw [Heap.childeren, hv.children_eq hrand ho, Except.ok.injEq] at hchilds
  refine ⟨c, hchilds ▸ List.mem_filter.mpr ⟨hc, by simpa using hstc⟩, ?_⟩
  exact List.ne_nil_of_mem (List.mem_filter.mpr ⟨Heap.mem_all.mpr hcm, by simp [hstm, hmand, hm]⟩)

end Actions

section Turns

variable {s t : State} {ev : Event} {p : Option PNode}

/-- An unknown status is reported of unknown nodes only.  When a partition reply can be read and a
solver may have to be moved to the partitions, the node is unknown and the reply has partitions. -/
def Event.Prompt : Event → State → Prop
  | .message x header payload, s => ∀ n, Solver.Matches s x n header →
      (header.lookup Constant.report = some SolveStatus.unknown.name → s.heap.status n = .unknown) ∧
      (header.lookup Constant.report = some Constant.partitions → (s.solver x).orWaiting ≠ [] →
        s.Spares → ∀ text, payload = some text →
          s.heap.status n = .unknown ∧ Solver.pieces text ≠ [])
  | _, _ => True

theorem Act.Caused.prompt {a : Act} {u : State} (h : a.Caused True ev s u) (hev : ev.Prompt s) :
    a.Prompt u := by
  cases a with
  | report x n status =>
    obtain ⟨rfl, header, payload, rfl, hm, hreport⟩ := h.2
    rintro rfl
    exact (hev n hm).1 hreport
  | _ => trivial

theorem Heap.Viable.turns {env : Env} {config : Config}
    (h : Turns (fun s ev => ev.Prompt s) (State.init env config) s) :
    Server.Consistent s ∧ s.heap.Viable := by
  refine h.invariant (I := fun s => Server.Consistent s ∧ s.heap.Viable)
    (fun u ev v hu hev hstep => ⟨hu.1.step hstep, ?_⟩) ⟨.init env config, ?_⟩
  · have hpath : Path (Act.Caused True ev u) u v := hstep.path hu.1 (.inl trivial)
    exact hu.2.path hu.1 (fun _ _ ha => ⟨ha.1, ha.prompt hev⟩) hpath
  · refine ⟨fun n hn => absurd hn (Nat.not_lt_zero n), fun n hn => absurd hn (Nat.not_lt_zero n), ?_, ?_⟩
    · exact fun n o c _ ho => absurd ho List.not_mem_nil
    · exact fun n o _ ho => absurd ho List.not_mem_nil

/-- After a prompt event the loops of `entrust` have somewhere to send solvers. -/
theorem Event.Prompt.lively (hev : ev.Prompt s) (hc : Server.Consistent s) (hv : s.heap.Viable)
    (h : receive ev s = (.ok (some p), t)) :
    ∃ rounds, ∀ fuel, rounds ≤ fuel → Lively True fuel p t := by
  have runs : Runs (Act.Received True ev s) True (receive ev) (ev.Brings s) s := runs_receive hc
  obtain ⟨hpath, hbrings⟩ := wp_ok runs h
  have hcaused : Path (Act.Caused True ev s) s t := Path.mono hpath fun _ _ ha => ha.caused
  have hct : Server.Consistent t := hc.path (fun _ _ ha => ha.1) hcaused
  have hvt : t.heap.Viable := hv.path hc (fun _ _ ha => ⟨ha.1, ha.prompt hev⟩) hcaused
  refine ⟨max t.rlist.length (p.elim 0 t.movableBound), fun fuel hfuel => ?_⟩
  refine ⟨Nat.le_trans (Nat.le_max_left _ _) hfuel, fun i u hu hs hroot => ?_, ?_⟩
  · exact (hvt.path hct (fun _ _ ha => ⟨ha.1, ha.prompt⟩) hu).opened hs hroot
  rintro q rfl
  refine ⟨Nat.le_trans (Nat.le_max_right _ _) hfuel, fun hspare hnil => ?_⟩
  cases q with
  | text => cases hnil
  | node n =>
    obtain ⟨x, o, header, text, rfl, _, hm, hrep, ho, hq⟩ := hbrings n rfl
    obtain ⟨hlt, hor, he, m, hnode, hmem⟩ := hc.seated.getLast_lt ho
    rw [hm.node, Option.some.injEq] at hnode
    subst hnode
    have hspare' : s.Spares := by
      rw [State.Spares, hq.portfolioMin, State.solvers, hq.rlist, hq.kind] at hspare
      exact hspare
    have hwaiting : (s.solver x).orWaiting ≠ [] := fun hw => by
      rw [hw] at ho
      cases ho
    obtain ⟨hu, hpieces⟩ := (hev n hm).2 hrep hwaiting hspare' text rfl
    have hn : n < s.heap.size := (hc.seated.placed x n hm.node).1
    have hand : t.heap.isAnd n = true := by
      refine (hct.seated.placed x n ?_).2.1
      rw [hq.node]
      simpa [Act.apply, State.modifySolver] using hm.node
    have hmem' : o ∈ t.heap.children n := by
      rw [hq.heap.forest]
      exact ((Heap.reply_grows hlt hor he _).children n).subset hmem
    have hne : t.heap.children o ≠ [] := by
      rw [hq.heap.forest]
      refine fun hnil => hpieces (List.length_eq_zero_iff.mp (Nat.le_zero.mp ?_))
      have hlen : (Solver.pieces text).length ≤ (s.heap.reply o _).len o :=
        Heap.reply_len hlt hor (s.heap.parent_of_mem hmem) hu
      exact Nat.le_trans hlen (Nat.le_of_eq (congrArg List.length hnil))
    have hst : t.heap.status n = .unknown := by
      rw [hq.heap.status, ← hu]
      exact congrArg Attrs.status (Heap.reply_attrs hlt hor _ hn)
    obtain ⟨c, hc', hstc⟩ := hvt.pending n o hand hmem' hne trivial hst
    rw [PNode.childeren, Heap.childeren, hvt.children_eq hand hmem', Except.ok.injEq] at hnil
    exact List.not_mem_nil (hnil ▸ List.mem_filter.mpr ⟨hc', by simpa using hstc⟩)

/-- As long as events are prompt, the pass that follows any of them ends: both loops come to their
end in a number of rounds that the state bounds. -/
theorem entrust_ends {env : Env} {config : Config}
    (h : Turns (fun s ev => ev.Prompt s) (State.init env config) s) (ready : ev.ready s)
    (prompt : ev.Prompt s) (hreceive : receive ev s = (.ok (some p), t)) :
    ∃ rounds, ∀ fuel, rounds ≤ fuel → (entrust fuel p t).1 ≠ .error .noFuel := by
  obtain ⟨hc, hv⟩ := Heap.Viable.turns h
  have runs : Runs (Act.Received True ev s) True (receive ev) (ev.Brings s) s := runs_receive hc
  obtain ⟨hpath, hbrings⟩ := wp_ok runs hreceive
  have hct : Server.Consistent t := hc.path (fun _ _ ha => ha.1) hpath
  obtain ⟨rounds, hlive⟩ := prompt.lively hc hv hreceive
  refine ⟨rounds, fun fuel hfuel hout => ?_⟩
  have ends : Runs (Act.Entrusted True t.idleSolvers) False (entrust fuel p) (fun _ _ => True) t :=
    runs_entrust hct (fun q hq i hi => hbrings.here ready hct (by rw [hq]) hi) (.inl trivial)
      (.inr (hlive fuel hfuel))
  exact (wp_error ends (Prod.ext hout rfl)).2 rfl

instance (s : State) : Decidable s.Spares := inferInstanceAs (Decidable (_ ∨ _))

instance (s : State) : (ev : Event) → Decidable (ev.Prompt s)
  | .message x header payload =>
    decidable_of_iff (∀ n ∈ (s.solver x).node, ¬ Solver.Matches s x n header ∨
      (header.lookup Constant.report ≠ some SolveStatus.unknown.name ∨ s.heap.status n = .unknown) ∧
      (header.lookup Constant.report ≠ some Constant.partitions ∨ (s.solver x).orWaiting = [] ∨
        ¬ s.Spares ∨ ∀ text ∈ payload, s.heap.status n = .unknown ∧ Solver.pieces text ≠ [])) <| by
      simp only [Event.Prompt, ne_eq, ← imp_iff_not_or, ← or_iff_not_imp_left]
      exact ⟨fun h n hm => h n hm.node hm, fun h n _ hm => h n hm⟩
  | .timeout | .accept _ | .closed _ => isTrue trivial

/-- The solver of the first of two partitions is done, and goes to the second. -/
theorem entrust_ends_solved :
    ∃ s p t, partitioned.foldlM (guarded (State.turn 3) fun s ev => ev.Prompt s)
        (State.init Env.steady { partitionTimeout := some second }) = some s ∧
      receive partUnsat s = (.ok (some p), t) ∧
      ∃ rounds, ∀ fuel, rounds ≤ fuel → (entrust fuel p t).1 ≠ .error .noFuel := by
  obtain ⟨s, h, ready, prompt, t, ht, _⟩ := exists_of_any (o := partitioned.foldlM
    (guarded (State.turn 3) fun s ev => ev.Prompt s)
    (State.init Env.steady { partitionTimeout := some second }))
    (P := fun s => partUnsat.ready s ∧ partUnsat.Prompt s ∧
      ∃ t ∈ reached Option.isSome (receive partUnsat s), t.heap.status 2 = .unsat) (by decide +kernel)
  obtain ⟨r, hr, hrun⟩ := mem_reached.mp ht
  obtain ⟨p, rfl⟩ := Option.isSome_iff_exists.mp hr
  exact ⟨s, p, t, h, hrun, entrust_ends (.of_run (.of_script h)) ready prompt hrun⟩

end Turns

section Spinning

variable {s t u v w : State} {i : InstId} {q : PNode} {l : List SockId}
  {nodes : List NodeId} {pass : Pass}

/-- The spreading goes on for ever if there is somebody to move and nowhere to move to. -/
theorem spread_spins (hm : movableSolvers q s = (.ok l, t)) (hl : l ≠ [])
    (hc : q.childeren t.heap = .ok []) (fuel : Nat) : spread fuel q s = (.error .noFuel, t) := by
  have round : spreadRound q l t = (.ok l, t) := by
    rw [spreadRound, bind_ok (get_run t), hc]
    rfl
  rw [spread, bind_ok hm, whileNonempty_stuck hl round]

/-- A pass without anybody to relocate does not depend on the rounds. -/
theorem survey_fuel (h : survey 0 i s = (.ok (nodes, pass), t)) (fuel : Nat) :
    survey fuel i s = (.ok (nodes, pass), t) := by
  have nobody (k : Nat) (r : State) : relocate k i [] r = (.ok (), r) := rfl
  have somebody (x : SockId) (xs : List SockId) (r : State) :
      ∃ e, relocate 0 i (x :: xs) r = (.error e, r) := by
    rw [relocate, bind_ok (get_run r), Prog.when, if_pos (List.cons_ne_nil x xs), bind_run]
    cases r.heap.childeren (r.root i) with
    | error e => exact ⟨e, rfl⟩
    | ok childs => exact ⟨.noFuel, rfl⟩
  rw [survey, bind_ok (get_run s)] at h ⊢
  rw [bind_run] at h ⊢
  split at h
  · next acc r _ =>
    cases hsolved : acc.solved with
    | nil =>
      rw [hsolved, bind_ok (nobody 0 r)] at h
      rw [bind_ok (nobody fuel r)]
      exact h
    | cons x xs =>
      obtain ⟨e, he⟩ := somebody x xs r
      rw [hsolved, bind_error he] at h
      cases h
  · cases h

/-- A program's result and the state it has reached. -/
def returned {α : Type} : Except Exn α × State → Option (α × State)
  | (.ok a, t) => some (a, t)
  | (.error _, _) => none

theorem mem_returned {α : Type} {a : α} {r : Except Exn α × State} :
    (a, t) ∈ returned r ↔ r = (.ok a, t) := by
  rcases r with ⟨e | b, u⟩
  · simp [returned]
  · simp [returned]

/-- The pass has nobody to relocate, and reaches the spreading with somebody to move but no
partition to move to. -/
def State.Endless (t : State) (q : PNode) : Prop :=
  ∃ b ∈ returned (attend t), ∃ i ∈ b.1, ∃ c ∈ returned (survey 0 i b.2),
    ∃ d ∈ returned (movableSolvers q c.2), d.1 ≠ [] ∧ q.childeren d.2.heap = .ok []

theorem State.Endless.spins (h : t.Endless q) (fuel : Nat) :
    (entrust fuel (some q) t).1 = .error .noFuel := by
  obtain ⟨⟨r, u⟩, hu, i, hi, ⟨⟨nodes, pass⟩, v⟩, hv, ⟨l, w⟩, hw, hl, hc⟩ := h
  obtain rfl : r = some i := hi
  rw [entrust, bind_ok (mem_returned.mp hu)]
  show ((survey fuel i >>= _) u).1 = _
  rw [bind_ok (survey_fuel (mem_returned.mp hv) fuel)]
  exact congrArg Prod.fst (bind_error (spread_spins (mem_returned.mp hw) hl hc fuel))

instance (t : State) (q : PNode) : Decidable (t.Endless q) :=
  inferInstanceAs (Decidable (∃ b ∈ returned (attend t), ∃ i ∈ b.1, ∃ c ∈ returned (survey 0 i b.2),
    ∃ d ∈ returned (movableSolvers q c.2), d.1 ≠ [] ∧ q.childeren d.2.heap = .ok []))

end Spinning

/-- An instance with two solvers, one of which is asked for partitions. -/
def twoAsked : List Event :=
  [.accept "a", .message 1 [(Constant.solver, "OpenSMT2")] (some ""),
    .accept "b", .message 3 [(Constant.solver, "OpenSMT2")] (some ""), .accept "c",
    .message 5 [(Constant.command, Constant.solve), (Constant.name, "a.smt2")]
      (some "(assert true)"), .timeout]

/-- A partition reply without partitions. -/
def emptyReply : Event :=
  .message 2 [(Constant.report, "partitions"), (Constant.name, "a.smt2"), (Constant.node, "[]")]
    (some "")

theorem entrust_endless :
    ∃ s p t, Turns (fun _ _ => True) (State.init Env.steady { partitionTimeout := some second }) s ∧
      emptyReply.ready s ∧ receive emptyReply s = (.ok (some p), t) ∧
      ∀ fuel, (entrust fuel p t).1 = .error .noFuel := by
  obtain ⟨s, h, ready, ⟨r, t⟩, ht, p, hp, q, hq, hends⟩ :=
    exists_of_any (o := twoAsked.foldlM (guarded (State.turn 3) fun _ _ => True)
      (State.init Env.steady { partitionTimeout := some second }))
    (P := fun s => emptyReply.ready s ∧ ∃ a ∈ returned (receive emptyReply s), ∃ p ∈ a.1, ∃ q ∈ p,
      a.2.Endless q) (by decide +kernel)
  obtain rfl : r = some p := hp
  obtain rfl : p = some q := hq
  exact ⟨s, some q, t, .of_run (.of_script h), ready, mem_returned.mp ht, hends.spins⟩

end Smts.Server
