import Mathlib.Data.Set.Lattice
import Smts.Server.Seats

namespace Smts.Server

open Smts.Lib

variable {Model : Type}

/-- The conjunction of the texts of the AND nodes from the root to `n`, as the
set of its models. -/
def Heap.formula (h : Heap) (sem : String → Set Model) (n : NodeId) : Set Model :=
  { v | ∀ m, m ∈ h.lineage n → h.isAnd m = true → v ∈ sem (h.label m).smt }

instance (h : Heap) (sem : String → Set Model) (n : NodeId) (v : Model)
    [∀ text, Decidable (v ∈ sem text)] : Decidable (v ∈ h.formula sem n) :=
  inferInstanceAs (Decidable (∀ m, m ∈ h.lineage n → h.isAnd m = true → v ∈ sem (h.label m).smt))

section Formula

variable {sem : String → Set Model} {h g : Heap} {a b n p : Nat}

theorem Heap.formula_congr (sem : String → Set Model) (hp : g.parent = h.parent)
    (hl : g.label = h.label) (n : Nat) :
    g.formula sem n = h.formula sem n := by
  simp only [Heap.formula, Forest.lineage_congr fun m _ => congrFun hp m, hl,
    Heap.isAnd_congr hl]

theorem Heap.Grows.formula (hg : h.Grows g) (hn : n < h.size) :
    g.formula sem n = h.formula sem n := by
  have hm : ∀ m, m ∈ h.lineage n → m < h.size :=
    fun m hm => Nat.lt_of_le_of_lt (Forest.le_of_mem_lineage hm) hn
  ext v
  simp only [Heap.formula, hg.lineage hn, Set.mem_ofPred_eq]
  constructor
  · intro hv m hl ha
    have := hv m hl ((hg.isAnd (hm m hl)).trans ha)
    rwa [hg.label m (hm m hl)] at this
  · intro hv m hl ha
    rw [hg.label m (hm m hl)]
    exact hv m hl ((hg.isAnd (hm m hl)).symm.trans ha)

theorem Heap.formula_parent (hp : h.parent n = some p) :
    h.formula sem n ⊆ h.formula sem p := by
  intro v hv m hm ha
  refine hv m ?_ ha
  rw [Forest.lineage_some hp]
  exact List.mem_cons_of_mem _ hm

/-- An OR node adds nothing to the formula of its parent. -/
theorem Heap.formula_or (hp : h.parent n = some p) (ho : h.isOr n = true) :
    h.formula sem n = h.formula sem p := by
  refine Set.Subset.antisymm (Heap.formula_parent hp) fun v hv m hm ha => ?_
  rw [Forest.lineage_some hp, List.mem_cons] at hm
  rcases hm with rfl | hm
  · rw [Heap.isAnd_iff, ho] at ha
    exact nomatch ha
  · exact hv m hm ha

theorem Heap.formula_and (hp : h.parent n = some p) (ha : h.isAnd n = true) :
    h.formula sem n = h.formula sem p ∩ sem (h.label n).smt := by
  ext v
  simp only [Heap.formula, Forest.lineage_some hp, List.mem_cons, Set.mem_ofPred_eq,
    Set.mem_inter_iff, forall_eq_or_imp]
  constructor
  · exact fun hv => ⟨hv.2, hv.1 ha⟩
  · exact fun hv => ⟨fun _ => hv.2, hv.1⟩

theorem Heap.formula_reaches (hr : h.Reaches a b) : h.formula sem b ⊆ h.formula sem a := by
  induction hr with
  | refl => exact Set.Subset.rfl
  | tail _ hc ih => exact (Heap.formula_parent (h.parent_of_mem hc)).trans ih

end Formula

/-- The verdict is right about the set of models. -/
def Verdict (status : SolveStatus) (F : Set Model) : Prop :=
  (status = .sat → F.Nonempty) ∧ (status = .unsat → F = ∅)

instance (status : SolveStatus) (F : Set Bool) [∀ v, Decidable (v ∈ F)] :
    Decidable (Verdict status F) :=
  decidable_of_iff ((status = .sat → ∃ v, v ∈ F) ∧ (status = .unsat → ∀ v, v ∉ F))
    (and_congr Iff.rfl (imp_congr_right fun _ => Set.eq_empty_iff_forall_notMem.symm))

/-- In the tree of `r` the statuses are right, and the partitions of an OR node
cover its parent. -/
structure Sound (sem : String → Set Model) (r : NodeId) (h : Heap) : Prop where
  verdict : ∀ n, h.root n = r → h.isAnd n = true → Verdict (h.status n) (h.formula sem n)
  cover : ∀ o p, h.root o = r → h.parent o = some p → h.isOr o = true → h.children o ≠ [] →
    h.formula sem p ⊆ { v | ∃ c ∈ h.children o, v ∈ h.formula sem c }

namespace Sound

variable {sem : String → Set Model} {r : Nat} {h g : Heap}

/-- Trees may grow by unknown nodes, as long as new partitions cover. -/
theorem grow (hs : Sound sem r h) (hg : h.Grows g) (hr : r < h.size)
    (old : ∀ m, m < h.size → g.status m = h.status m)
    (new : ∀ m, h.size ≤ m → m < g.size → g.status m = .unknown)
    (cover : ∀ o p, g.root o = r → g.parent o = some p → g.isOr o = true → g.children o ≠ [] →
      g.children o ≠ h.children o →
      g.formula sem p ⊆ { v | ∃ c ∈ g.children o, v ∈ g.formula sem c }) : Sound sem r g where
  verdict n hroot hand := by
    by_cases hn : n < h.size
    · rw [old n hn, hg.formula hn]
      exact hs.verdict n ((hg.root n hn).symm.trans hroot) ((hg.isAnd hn).symm.trans hand)
    · by_cases hn' : n < g.size
      · rw [new n (Nat.le_of_not_lt hn) hn']
        exact ⟨fun he => (nomatch he), fun he => (nomatch he)⟩
      · have hpar : g.parent n = none := by
          cases hp : g.parent n with
          | none => rfl
          | some p => exact absurd (g.lt_size hp) hn'
        rw [g.root_of_none hpar] at hroot
        omega
  cover o p hroot hpar hor hne := by
    by_cases hch : g.children o = h.children o
    · have ho : o < h.size := by
        by_contra hlt
        exact hne (hch.trans (Forest.children_of_size_le (Nat.le_of_not_lt hlt)))
      have hpar' : h.parent o = some p := (hg.parent o ho).symm.trans hpar
      have hp : p < h.size := Nat.lt_trans (h.parent_lt hpar') (h.lt_size hpar')
      rw [hg.formula hp, hch]
      intro v hv
      obtain ⟨c, hc, hvc⟩ := hs.cover o p ((hg.root o ho).symm.trans hroot) hpar'
        ((hg.isOr ho).symm.trans hor) (hch ▸ hne) hv
      exact ⟨c, hc, by rwa [hg.formula (Forest.mem_lt_size hc)]⟩
    · exact cover o p hroot hpar hor hne hch

theorem of_sameTree (hs : Sound sem r h) (hg : Heap.SameTree h g)
    (verdict : ∀ n, g.root n = r → g.isAnd n = true → Verdict (g.status n) (g.formula sem n)) :
    Sound sem r g where
  verdict := verdict
  cover o p := by
    have hf := Heap.formula_congr sem (by rw [hg.forest]) hg.label
    simp only [hg.forest, hf, Heap.isOr, hg.label]
    exact hs.cover o p

theorem congr (hs : Sound sem r h) (forest : g.toForest = h.toForest) (label : g.label = h.label)
    (status : ∀ n, g.status n = h.status n) : Sound sem r g := by
  have hf := Heap.formula_congr sem (by rw [forest]) label
  refine ⟨fun n hroot hand => ?_, fun o p => ?_⟩
  · rw [forest] at hroot
    rw [Heap.isAnd_congr label] at hand
    rw [status, hf]
    exact hs.verdict n hroot hand
  · simp only [forest, hf, Heap.isOr, label]
    exact hs.cover o p

theorem clear (hs : Sound sem r h) (o : Nat) : Sound sem r (h.clear o) where
  verdict n := by
    rw [Heap.formula_congr sem (g := h.clear o) (h := h) rfl rfl]
    exact hs.verdict n
  cover q p hroot hpar hor hne := by
    simp only [Heap.formula_congr sem (g := h.clear o) (h := h) rfl rfl]
    by_cases hq : q = o
    · exact absurd (by simp [hq, Heap.clear, Forest.clear]) hne
    · have hch : (h.clear o).children q = h.children q := Function.update_of_ne hq _ _
      rw [hch] at hne ⊢
      exact hs.cover q p hroot hpar hor hne

/-- Setting a right status keeps every status right: upwards because partitions
cover, and because a model of a node is one of the nodes above. -/
theorem setStatus {n : Nat} {status : SolveStatus} (hs : Sound sem r h) (hr : h.isAnd r = true)
    (hv : h.root n = r → Verdict status (h.formula sem n)) :
    Sound sem r (h.setStatus n status) := by
  have hsame : ∀ {g : Heap}, Heap.SameTree h g → ∀ m, g.formula sem m = h.formula sem m :=
    fun hg => Heap.formula_congr sem (by rw [hg.forest]) hg.label
  have key := Heap.setStatus_rule status (P := fun g => Sound sem r g ∧ Heap.SameTree h g)
    (J := fun m => h.root m = r → Verdict status (h.formula sem m)) ?_ ?_ ?_
    (h := h) (n := n) ⟨hs, .refl h⟩ hv
  · exact key.1
  · rintro g m ⟨hg, hsm⟩ hvm
    refine ⟨hg.of_sameTree ((Heap.SameTree.refl g).write m) fun k hk hand => ?_, hsm.write m⟩
    have hf : (g.modify m fun a => { a with status := status }).formula sem k
        = g.formula sem k := Heap.formula_congr sem rfl rfl k
    rw [Heap.modify_status, hf]
    split
    · next he =>
      rw [hsame hsm, he]
      exact hvm (he ▸ hsm.forest ▸ hk)
    · exact hg.verdict k hk hand
  · intro g m p ⟨hg, hsm⟩ hvm hand hp hall hrp
    obtain ⟨hpar, hne⟩ := Heap.truthyParent_eq_some.mp hp
    rw [hsm.forest] at hpar hne
    have hor : g.isOr p = true := (Heap.isAnd_of_parent (by rw [hsm.forest]; exact hpar)) ▸ hand
    have hvm := hvm ((h.root_of_parent hpar).trans hrp)
    refine ⟨fun he => (hvm.1 he).mono (Heap.formula_parent hpar), fun he => ?_⟩
    rcases hall with hsat | hall
    · rw [he] at hsat
      exact nomatch hsat
    · cases hq : h.parent p with
      | none =>
        rw [h.root_of_none hq] at hrp
        rw [Heap.isOr, hsm.label, hrp] at hor
        rw [Heap.isAnd, Heap.isOr, hor] at hr
        exact nomatch hr
      | some q =>
        refine Set.eq_empty_iff_forall_notMem.mpr fun v hvp => ?_
        have hgq : g.parent p = some q := by rw [hsm.forest]; exact hq
        have hgr : g.root p = r := by rw [hsm.forest]; exact hrp
        have hgc : g.children p ≠ [] := by rw [hsm.forest]; exact hne
        have hvq : v ∈ g.formula sem q := by
          rw [hsame hsm]
          exact Heap.formula_parent hq hvp
        obtain ⟨c, hc, hvc⟩ := hg.cover p q hgr hgq hor hgc hvq
        have hcr : g.root c = r := (g.root_of_parent (g.parent_of_mem hc)).trans hgr
        have hcand : g.isAnd c = true := by rw [Heap.isAnd_of_parent (g.parent_of_mem hc), hor]
        have := (hg.verdict c hcr hcand).2 ((hall c hc).trans he)
        rw [this] at hvc
        exact hvc
  · intro g m p ⟨_, hsm⟩ hvm hor hpar hrp
    rw [hsm.forest] at hpar
    have hor' : h.isOr m = true := by rwa [Heap.isOr, hsm.label] at hor
    rw [← Heap.formula_or hpar hor']
    exact hvm ((h.root_of_parent hpar).trans hrp)

theorem report {n : Nat} {status : SolveStatus} (hs : Sound sem r h) (hr : h.isAnd r = true)
    (hv : h.root n = r → Verdict status (h.formula sem n)) :
    Sound sem r (h.report n status) := by
  have hset := hs.setStatus hr hv
  have hsm := Heap.sameTree_setStatus h n status
  rw [Heap.report]
  split
  · next hu =>
    have key := Heap.markUnsat_rule (P := fun g => Sound sem r g ∧ Heap.SameTree h g)
      (h := h.setStatus n status) (l := (h.setStatus n status).all n) ?_ ⟨hset, hsm⟩
    · exact key.1
    · rintro g c ⟨hg, hgsm⟩ hc _ _
      have hreach : h.Reaches n c := by
        have := Heap.mem_all.mp hc
        rwa [hsm.forest] at this
      refine ⟨hg.setStatus ((Heap.isAnd_congr hgsm.label).trans hr) fun hroot =>
        ⟨fun he => (by cases he), fun _ => ?_⟩, hgsm.trans (Heap.sameTree_setStatus g c .unsat)⟩
      rw [hgsm.forest, hreach.root_eq] at hroot
      rw [Heap.formula_congr sem (by rw [hgsm.forest]) hgsm.label]
      exact Set.subset_empty_iff.mp ((Heap.formula_reaches hreach).trans_eq ((hv hroot).2 hu))
  · exact hset

theorem ask {n : Nat} (hs : Sound sem r h) (hr : r < h.size) (hn : n < h.size)
    (ha : h.isAnd n = true) : Sound sem r (h.ask n) := by
  have hg := Heap.ask_grows hn ha
  refine hs.grow hg hr (fun m hm => ?_) (fun m hm _ => ?_) fun o p _ _ hor hne hch => ?_
  · rw [Heap.ask_status hn ha, if_neg (Nat.ne_of_lt hm)]
  · rw [Heap.ask_status hn ha]
    split
    · rfl
    · next hne =>
      have : (h.ask n).size = h.size + 1 := by rw [Heap.ask_forest hn ha]; rfl
      omega
  · have hchildren : (h.ask n).children =
        Function.update h.children n (h.children n ++ [h.size]) := by
      rw [Heap.ask_forest hn ha]
      rfl
    by_cases hon : o = n
    · rw [hon, hg.isOr hn, Heap.isAnd_iff.mp ha] at hor
      exact nomatch hor
    · rw [hchildren, Function.update_of_ne hon] at hch
      exact absurd rfl hch

theorem filled {o : Nat} {ps : List String} (hs : Sound sem r h) (hr : r < h.size)
    (ho : o < h.size) (hor : h.isOr o = true) (he : h.children o = []) (hf : h.Filled o ps g)
    (cover : ∀ p, h.parent o = some p → h.root p = r →
      h.formula sem p = { v | ∃ q ∈ ps, v ∈ h.formula sem p ∩ sem q }) : Sound sem r g := by
  refine hs.grow hf.grows hr (fun m hm => ?_) (fun m hm hm' => ?_) fun q p hroot hpar _ _ hch => ?_
  · rw [Heap.status, hf.old m hm]
    rfl
  · obtain ⟨i, rfl⟩ := Nat.exists_eq_add_of_le hm
    rw [hf.size] at hm'
    rw [Heap.status, hf.new i (by omega)]
  · by_cases hq : q = o
    · subst hq
      have hpar' : h.parent q = some p := (hf.grows.parent q ho).symm.trans hpar
      have hp : p < h.size := Nat.lt_trans (h.parent_lt hpar') ho
      have hrp : h.root p = r := by
        rw [← h.root_of_parent hpar', ← hf.grows.root q ho, hroot]
      intro v hv
      rw [hf.grows.formula hp] at hv
      have hcv := hv
      rw [cover p hpar' hrp] at hcv
      obtain ⟨text, htext, hvp, hvt⟩ := hcv
      obtain ⟨i, hi, hget⟩ := List.getElem_of_mem htext
      refine ⟨h.size + i, ?_, ?_⟩
      · rw [hf.children, he, List.nil_append, List.mem_range'_1]
        omega
      · have hand : g.isAnd (h.size + i) = true := by
          rw [Heap.isAnd, Heap.isOr, hf.label i hi]
          rfl
        rw [Heap.formula_and (hf.parent i hi) hand, hf.grows.formula ho,
          Heap.formula_or hpar' hor, hf.label i hi]
        exact ⟨hvp, hget ▸ hvt⟩
    · exact absurd (hf.others q hq) hch

theorem reply {o : Nat} {partitions : Option (List String)} (hs : Sound sem r h) (hr : r < h.size)
    (ho : o < h.size) (hor : h.isOr o = true) (he : h.children o = [])
    (cover : ∀ ps p, partitions = some ps → h.parent o = some p → h.root p = r →
      h.formula sem p =
        { v | ∃ q ∈ ps, v ∈ h.formula sem p ∩ sem (Solver.assertText q) }) :
    Sound sem r (h.reply o partitions) := by
  rcases Heap.reply_cases ho hor partitions with ⟨_, hre⟩ | ⟨ps, g, hps, hf, hre⟩
  · exact hre ▸ hs.clear o
  · have hg : Sound sem r g := by
      refine hs.filled hr ho hor he hf fun p hp hrp => ?_
      simpa using cover ps p hps hp hrp
    rcases hre with ⟨p, _, _, hre⟩ | ⟨_, hre⟩
    · exact hre ▸ hg.clear o
    · exact hre ▸ hg

theorem split {root : Nat} {p : HornScript} {s : State} (hs : Sound sem r s.heap)
    (hr : r < s.heap.size) (ha : (Act.split root p).Enabled s) (hne : root ≠ r) :
    Sound sem r (fixedpointPartition p root s.heap).2 := by
  obtain ⟨hlt, hand, hpar, _⟩ := ha
  obtain ⟨g, hg, hsize, hor, hch, hat, hf⟩ := split_filled (p := p) hlt hand
  have hsound : Sound sem r g := by
    refine hs.grow hg hr (fun m hm => ?_) (fun m hm hm' => ?_) fun o q _ _ hor' _ hch' => ?_
    · rw [Heap.status, hat, Function.update_of_ne (Nat.ne_of_lt hm)]
      rfl
    · have hms : m = s.heap.size := by omega
      rw [Heap.status, hat, hms, Function.update_self]
    · have hor : o ≠ root := by
        rintro rfl
        rw [hg.isOr hlt, Heap.isAnd_iff.mp hand] at hor'
        cases hor'
      rw [hch, Function.update_of_ne hor] at hch'
      exact absurd rfl hch'
  refine hsound.filled (by omega) (by omega) hor ?_ hf fun q hq hrq => ?_
  · rw [hch, Function.update_of_ne (Nat.ne_of_gt hlt)]
    exact Forest.children_of_size_le (Nat.le_refl _)
  · have hmem : s.heap.size ∈ g.children root := by simp [hch]
    rw [g.parent_of_mem hmem, Option.some.injEq] at hq
    rw [← hq, hg.root root hlt, s.heap.root_of_none hpar] at hrq
    exact absurd hrq hne

end Sound

/-- What is assumed of a message: a status report is true of the node it is
acted on for, and a partition reply covers it. -/
def Act.Truthful (sem : String → Set Model) (r : NodeId) : Act → State → Prop
  | .report _ n status, s => s.heap.root n = r → Verdict status (s.heap.formula sem n)
  | .reply _ o (some ps), s => ∀ p, s.heap.parent o = some p → s.heap.root p = r →
      s.heap.formula sem p =
        { v | ∃ q ∈ ps, v ∈ s.heap.formula sem p ∩ sem (Solver.assertText q) }
  | .split root _, _ => root ≠ r
  | _, _ => True

/-- The tree of `r` is in order. -/
structure Sober (sem : String → Set Model) (r : NodeId) (s : State) : Prop where
  seated : Seated s
  lt : r < s.heap.size
  isAnd : s.heap.isAnd r = true
  sound : Sound sem r s.heap

namespace Sober

variable {sem : String → Set Model} {r : Nat} {s t : State}

theorem quiet (h : Quiet s t) (hs : Sober sem r s) : Sober sem r t where
  seated := hs.seated.quiet h
  lt := by rw [h.heap.forest]; exact hs.lt
  isAnd := (Heap.isAnd_congr h.heap.label).trans hs.isAnd
  sound := hs.sound.congr h.heap.forest h.heap.label h.heap.status

/-- One action keeps the tree in order. -/
theorem act (a : Act) (ha : a.Enabled s) (ht : a.Truthful sem r s) (hs : Sober sem r s) :
    Sober sem r (a.apply s) := by
  have hg := hs.seated.grows a ha
  refine ⟨hs.seated.act a ha, Nat.lt_of_lt_of_le hs.lt hg.size, (hg.isAnd hs.lt).trans hs.isAnd, ?_⟩
  cases a with
  | ask x n => exact hs.sound.ask hs.lt (hs.seated.placed x n ha).1 (hs.seated.placed x n ha).2.1
  | report x n status => exact hs.sound.report hs.isAnd ht
  | reply x o partitions =>
    obtain ⟨ho, hor, he, _⟩ := hs.seated.getLast_lt ha
    refine hs.sound.reply hs.lt ho hor he fun ps p hps hp hrp => ?_
    subst hps
    exact ht p hp hrp
  | process n =>
    refine hs.sound.congr rfl rfl fun m => ?_
    rw [Act.apply, Heap.modify_status]
    split
    · next he => rw [he]; rfl
    · rfl
  | submit name l =>
    refine hs.sound.grow hg hs.lt (fun m hm => ?_) (fun m hm hm' => ?_)
      fun _ _ _ _ _ _ hch => absurd rfl hch
    · simp only [Heap.status, Act.apply, State.submit, Heap.addRoot,
        Function.update_of_ne (Nat.ne_of_lt hm)]
    · have hms : m = s.heap.size := Nat.le_antisymm (Nat.le_of_lt_succ hm') hm
      simp [Heap.status, Act.apply, State.submit, Heap.addRoot, hms]
  | split root p => exact hs.sound.split hs.lt ha ht
  | _ => exact hs.sound

end Sober

end Smts.Server
