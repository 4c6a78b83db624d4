import Smts.Server.Closure
import Smts.Server.Tracing

namespace Smts.Server

open Smts.Lib Smts.Lib.Prog

/-- AND nodes have at most one OR child, those being partitioned have one, and where a node is sat
its root is not unknown. -/
structure Heap.Shaped (h : Heap) : Prop where
  single : ∀ n, n < h.size → h.isAnd n = true → h.len n ≤ 1
  asked : ∀ n, n < h.size → (h.attrs n).partitioning = true → h.isAnd n = true ∧ h.children n ≠ []
  rooted : ∀ n, n < h.size → h.status n = .sat → h.status (h.root n) ≠ .unknown

/-- The trees grow: what gets new children had none, and new nodes are as the constructors make
them. -/
structure Heap.Sprouts (h g : Heap) : Prop where
  grows : h.Grows g
  status : ∀ m, m < h.size → g.status m = h.status m
  processed : ∀ m, m < h.size → (g.attrs m).processed = (h.attrs m).processed
  asked : ∀ m, m < h.size → (g.attrs m).partitioning = true →
    (h.attrs m).partitioning = true ∨ h.isAnd m = true ∧ g.children m ≠ []
  len : ∀ m, m < h.size → h.isAnd m = true → g.len m ≤ max (h.len m) 1
  children : ∀ m, g.children m = h.children m ∨ ∀ c ∈ g.children m, h.size ≤ c
  new : ∀ m, h.size ≤ m → m < g.size → g.attrs m = {} ∧ (g.isAnd m = true → g.children m = [])

namespace Heap.Sprouts

variable {h : Heap} {n o : NodeId}

theorem ask (hn : n < h.size) (hand : h.isAnd n = true) (he : h.children n = []) :
    h.Sprouts (h.ask n) := by
  have hchildren (m : NodeId) : (h.ask n).children m =
      if m = n then [h.size] else h.children m := by
    rw [Heap.ask_forest hn hand]
    simp only [Forest.addChild, Function.update_apply, he, List.nil_append]
  constructor
  · exact Heap.ask_grows hn hand
  · intro m hm
    rw [Heap.ask_status hn hand, if_neg (Nat.ne_of_lt hm)]
  · intro m hm
    rw [Heap.ask_attrs hn hand]
    split
    · next hmn => rw [hmn]
    · rw [if_neg (Nat.ne_of_lt hm)]
  · intro m hm hask
    rw [hchildren]
    by_cases hmn : m = n
    · exact .inr ⟨hmn ▸ hand, by simp [hmn]⟩
    · rw [Heap.ask_attrs hn hand, if_neg hmn, if_neg (Nat.ne_of_lt hm)] at hask
      exact .inl hask
  · intro m hm hm'
    rw [Heap.len, hchildren]
    split
    · exact Nat.le_max_right _ _
    · exact Nat.le_max_left _ _
  · intro m
    rw [hchildren]
    split
    · exact .inr fun c hc => Nat.le_of_eq (List.mem_singleton.mp hc).symm
    · exact .inl rfl
  · intro m hle hm
    have hmn : m ≠ n := Nat.ne_of_gt (Nat.lt_of_lt_of_le hn hle)
    rw [Heap.ask_forest hn hand] at hm
    obtain rfl : m = h.size := Nat.le_antisymm (Nat.le_of_lt_succ hm) hle
    rw [Heap.ask_attrs hn hand, if_neg hmn, if_pos rfl, hchildren, if_neg hmn]
    exact ⟨rfl, fun _ => Forest.children_of_size_le (Nat.le_refl _)⟩

theorem reply (ho : o < h.size) (hor : h.isOr o = true) (he : h.children o = [])
    (partitions : Option (List String)) : h.Sprouts (h.reply o partitions) := by
  have hattrs {m : NodeId} (hm : m < h.size) := Heap.reply_attrs ho hor partitions hm
  have hothers {m : NodeId} (hm : m ≠ o) := Heap.reply_others ho hor partitions hm
  constructor
  · exact Heap.reply_grows ho hor he partitions
  · exact fun m hm => by rw [Heap.status, hattrs hm]; rfl
  · exact fun m hm => by rw [hattrs hm]
  · exact fun m hm hask => .inl (by rwa [hattrs hm] at hask)
  · intro m hm hand
    have hmo : m ≠ o := by
      rintro rfl
      rw [Heap.isAnd_iff, hor] at hand
      cases hand
    rw [Heap.len, hothers hmo]
    exact Nat.le_max_left _ _
  · intro m
    by_cases hmo : m = o
    · refine .inr fun c hc => ?_
      have hclear (g : Heap) : (g.clear o).children o = [] := Function.update_self _ _ _
      rw [hmo] at hc
      rcases Heap.reply_cases ho hor partitions with ⟨_, hr⟩ | ⟨ps, g, _, hf, ⟨p, _, _, hr⟩ | ⟨_, hr⟩⟩
      · rw [hr, hclear] at hc
        cases hc
      · rw [hr, hclear] at hc
        cases hc
      · rw [hr, hf.children, he, List.nil_append] at hc
        exact (List.mem_range'_1.mp hc).1
    · exact .inl (hothers hmo)
  · intro m hle hm
    have hmo : m ≠ o := Nat.ne_of_gt (Nat.lt_of_lt_of_le ho hle)
    rw [hothers hmo]
    exact ⟨Heap.reply_new ho hor partitions hle hm, fun _ => Forest.children_of_size_le hle⟩

theorem addRoot (h : Heap) (l : Label) : h.Sprouts (h.addRoot l).2 := by
  have hattrs {m : NodeId} (hm : m < h.size) : (h.addRoot l).2.attrs m = h.attrs m :=
    Function.update_of_ne (Nat.ne_of_lt hm) _ _
  constructor
  · exact Heap.addRoot_grows l
  · exact fun m hm => by rw [Heap.status, hattrs hm]; rfl
  · exact fun m hm => by rw [hattrs hm]
  · exact fun m hm hask => .inl (by rwa [hattrs hm] at hask)
  · exact fun m _ _ => Nat.le_max_left (h.len m) 1
  · exact fun _ => .inl rfl
  · intro m hle hm
    obtain rfl : m = h.size := Nat.le_antisymm (Nat.le_of_lt_succ hm) hle
    exact ⟨Function.update_self _ _ _, fun _ => Forest.children_of_size_le (F := h.toForest) hle⟩

theorem split_attrs {root m : Nat} {p : HornScript} (hr : root < h.size) (hand : h.isAnd root = true)
    (hm : m < h.size) : (fixedpointPartition p root h).2.attrs m = h.attrs m := by
  obtain ⟨g, hg, hsize, hor, hchildren, hattrs, hf⟩ := split_filled (p := p) hr hand
  rw [hf.old m (by omega), hattrs, Function.update_of_ne (Nat.ne_of_lt hm)]

theorem split_children {root m : Nat} {p : HornScript} (hr : root < h.size)
    (hand : h.isAnd root = true) (he : h.children root = []) (hm : m ≠ h.size) :
    (fixedpointPartition p root h).2.children m = if m = root then [h.size] else h.children m := by
  obtain ⟨g, hg, hsize, hor, hchildren, hattrs, hf⟩ := split_filled (p := p) hr hand
  rw [hf.others m hm, hchildren, Function.update_apply, he, List.nil_append]

theorem split {root : Nat} {p : HornScript} (hr : root < h.size) (hand : h.isAnd root = true)
    (he : h.children root = []) : h.Sprouts (fixedpointPartition p root h).2 := by
  have hold {m : Nat} (hm : m < h.size) := split_attrs (p := p) hr hand hm
  have hothers {m : Nat} (hm : m ≠ h.size) := split_children (p := p) hr hand he hm
  obtain ⟨g, hg, hsize, hor, hchildren, hattrs, hf⟩ := split_filled (p := p) hr hand
  constructor
  · exact hg.trans hf.grows
  · exact fun m hm => by rw [Heap.status, hold hm]; rfl
  · exact fun m hm => by rw [hold hm]
  · exact fun m hm hask => .inl (by rwa [hold hm] at hask)
  · intro m hm _
    rw [Heap.len, hothers (Nat.ne_of_lt hm)]
    split
    · exact Nat.le_max_right _ _
    · exact Nat.le_max_left _ _
  · intro m
    by_cases hm : m = h.size
    · refine .inr fun c hc => ?_
      rw [hm, hf.children, hchildren, Function.update_of_ne (Nat.ne_of_gt hr),
        Forest.children_of_size_le (Nat.le_refl _), List.nil_append] at hc
      exact Nat.le_trans (by omega) (List.mem_range'_1.mp hc).1
    · rw [hothers hm]
      split
      · exact .inr fun c hc => Nat.le_of_eq (List.mem_singleton.mp hc).symm
      · exact .inl rfl
  · intro (m : Nat) hle hm
    rcases Nat.eq_or_lt_of_le hle with rfl | hlt
    · rw [hf.old _ (by omega), hattrs, Function.update_self, Heap.isAnd_iff,
        hf.grows.isOr (by omega), hor]
      exact ⟨rfl, fun h => by cases h⟩
    · obtain ⟨i, rfl⟩ := Nat.exists_eq_add_of_le (hsize ▸ hlt : g.size ≤ m)
      rw [hf.size] at hm
      rw [hf.new i (by omega), hothers (by omega), if_neg (by omega)]
      exact ⟨rfl, fun _ => Forest.children_of_size_le (by omega)⟩

end Heap.Sprouts

namespace Heap.Shaped

variable {h g : Heap} {n o : NodeId}

theorem extend (hs : h.Shaped) (hg : h.Sprouts g) : g.Shaped where
  single m hm hand := by
    by_cases hlt : m < h.size
    · have hand' := (hg.grows.isAnd hlt).symm.trans hand
      exact Nat.le_trans (hg.len m hlt hand') (Nat.max_le.mpr ⟨hs.single m hlt hand', Nat.le_refl 1⟩)
    · rw [Heap.len, (hg.new m (Nat.not_lt.mp hlt) hm).2 hand]
      exact Nat.zero_le 1
  asked m hm hask := by
    by_cases hlt : m < h.size
    · rw [hg.grows.isAnd hlt]
      rcases hg.asked m hlt hask with hold | hnew
      · obtain ⟨hand, hne⟩ := hs.asked m hlt hold
        exact ⟨hand, fun he => hne (List.prefix_nil.mp (he ▸ hg.grows.children m))⟩
      · exact hnew
    · rw [(hg.new m (Nat.not_lt.mp hlt) hm).1] at hask
      cases hask
  rooted m hm hsat := by
    by_cases hlt : m < h.size
    · have hroot : h.root m < h.size := h.root_lt_size hlt
      rw [hg.grows.root m hlt, hg.status _ hroot]
      exact hs.rooted m hlt ((hg.status m hlt).symm.trans hsat)
    · rw [Heap.status, (hg.new m (Nat.not_lt.mp hlt) hm).1] at hsat
      cases hsat

theorem congr (hs : h.Shaped) (hg : h.Alike g) : g.Shaped where
  single m := by
    rw [hg.forest, Heap.isAnd_congr hg.label, Heap.len, hg.forest]
    exact hs.single m
  asked m := by
    rw [hg.forest, hg.partitioning, Heap.isAnd_congr hg.label]
    exact hs.asked m
  rooted m := by
    rw [hg.forest, hg.status, hg.status]
    exact hs.rooted m

/-- Statuses change, and the root of a node that is sat afterwards is not unknown. -/
theorem restate (hs : h.Shaped) (hg : Heap.SameTree h g)
    (rooted : ∀ m, m < h.size → g.status m = .sat → g.status (h.root m) ≠ .unknown) : g.Shaped where
  single m := by
    rw [hg.forest, hg.isAnd, Heap.len, hg.forest]
    exact hs.single m
  asked m := by
    rw [hg.forest, hg.isAnd, hg.partitioning]
    exact hs.asked m
  rooted m := by
    rw [hg.forest]
    exact rooted m

theorem setSat (hs : h.Shaped) (ha : h.Attached n) : (h.setStatus n .sat).Shaped := by
  have hstatus (m : NodeId) :=
    Heap.status_setStatusAux_sat (Heap.SameTree.refl h) ha (Nat.le_refl n) m
  refine hs.restate (Heap.sameTree_setStatus h n .sat) fun m hm hsat => ?_
  by_cases hroot : h.Reaches (h.root m) n
  · rw [Heap.setStatus, (hstatus _).1 hroot]
    decide
  · have hmn : ¬ h.Reaches m n := fun hr => hroot (by rw [← hr.root_eq]; exact ha)
    rw [Heap.setStatus, (hstatus m).2 hmn] at hsat
    rw [Heap.setStatus, (hstatus _).2 hroot]
    exact hs.rooted m hm hsat

theorem setUnsat (hs : h.Shaped) (n : NodeId) : (h.setStatus n .unsat).Shaped := by
  have hstatus (m : NodeId) : (h.setStatus n .unsat).status m = .unsat ∨
      (h.setStatus n .unsat).status m = h.status m := by
    refine Heap.setStatus_rule .unsat (P := fun g => g.status m = .unsat ∨ g.status m = h.status m)
      (J := fun _ => True) (fun g k hg _ => ?_) (fun _ _ _ _ _ _ _ _ => trivial)
      (fun _ _ _ _ _ _ _ => trivial) (.inr rfl) trivial
    rw [Heap.modify_status]
    split
    · exact .inl rfl
    · exact hg
  refine hs.restate (Heap.sameTree_setStatus h n .unsat) fun m hm hsat => ?_
  have hold : h.status m = .sat := by
    rcases hstatus m with hm' | hm'
    · rw [hm'] at hsat
      cases hsat
    · exact hm'.symm.trans hsat
  rcases hstatus (h.root m) with hm' | hm'
  · rw [hm']
    decide
  · rw [hm']
    exact hs.rooted m hm hold

theorem report (hs : h.Shaped) (ha : h.Attached n) {status : SolveStatus} (hst : status ≠ .unknown) :
    (h.report n status).Shaped := by
  cases status with
  | unknown => exact absurd rfl hst
  | sat => exact hs.setSat ha
  | unsat => exact Heap.markUnsat_rule (fun g c hg _ _ _ => hg.setUnsat c) (hs.setUnsat n)

theorem process (hs : h.Shaped) (n : NodeId) :
    (h.modify n fun a => { a with processed := true }).Shaped where
  single m := hs.single m
  asked m hm hask := by
    rw [Heap.modify_attrs] at hask
    split at hask
    · next hmn => exact hmn ▸ hs.asked n (hmn ▸ hm) hask
    · exact hs.asked m hm hask
  rooted m hm hsat := by
    have hstatus (k : NodeId) :
        (h.modify n fun a => { a with processed := true }).status k = h.status k := by
      rw [Heap.modify_status]
      split
      · next hk => rw [hk]; rfl
      · rfl
    rw [hstatus] at hsat ⊢
    exact hs.rooted m hm hsat

end Heap.Shaped

/-- The action is not the report of an unknown status. -/
def Act.Definite : Act → Prop
  | .report _ _ status => status ≠ .unknown
  | _ => True

section Actions

variable {s t : State} {hindered : Prop} {G : Act → State → Prop}

theorem Heap.Shaped.act (hs : s.heap.Shaped) (hseat : Seated s) (a : Act)
    (ha : a.Allowed hindered s) (hdef : a.Definite) : (a.apply s).heap.Shaped := by
  cases a with
  | ask x n =>
    obtain ⟨hlt, hand, _⟩ := hseat.placed x n ha.1
    exact hs.extend (.ask hlt hand ha.2.2.1)
  | report x n status => exact hs.report (hseat.placed x n ha.1).2.2 hdef
  | reply x o partitions =>
    obtain ⟨hlt, hor, he, _⟩ := hseat.getLast_lt ha.1
    exact hs.extend (.reply hlt hor he partitions)
  | process n => exact hs.process n
  | submit name l => exact hs.extend (.addRoot _ l)
  | split root p => exact hs.extend (.split ha.1.1 ha.1.2.1 ha.1.2.2.2)
  | _ => exact hs

theorem Heap.Shaped.path (hs : s.heap.Shaped) (hc : Server.Consistent s)
    (hG : ∀ a u, G a u → a.Allowed hindered u ∧ a.Definite) (h : Path G s t) : t.heap.Shaped :=
  (h.invariant (I := fun u => Server.Consistent u ∧ u.heap.Shaped)
    (fun _ _ hq hu => ⟨hu.1.quiet hq, hu.2.congr hq.heap⟩)
    (fun a u ha hu => ⟨hu.1.act a (hG a u ha).1, hu.2.act hu.1.seated a (hG a u ha).1 (hG a u ha).2⟩)
    ⟨hc, hs⟩).2

end Actions

end Smts.Server
