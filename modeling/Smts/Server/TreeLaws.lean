import Smts.Server.Actions

namespace Smts.Server.Heap

open Smts.Lib

/-- Nothing that is in `h` is changed or lost in `g`. -/
structure Grows (h g : Heap) : Prop where
  size : h.size ≤ g.size
  parent : ∀ m, m < h.size → g.parent m = h.parent m
  root : ∀ m, m < h.size → g.root m = h.root m
  label : ∀ m, m < h.size → g.label m = h.label m
  children : ∀ p, h.children p <+: g.children p

section Grows

variable {h g k : Heap} {a b n : Nat}

theorem Grows.refl (h : Heap) : Grows h h :=
  ⟨Nat.le_refl _, fun _ _ => rfl, fun _ _ => rfl, fun _ _ => rfl, fun _ => List.prefix_rfl⟩

theorem Grows.of_eq (forest : g.toForest = h.toForest) (label : g.label = h.label) :
    Grows h g where
  size := Nat.le_of_eq (by rw [forest])
  parent _ _ := by rw [forest]
  root _ _ := by rw [forest]
  label _ _ := by rw [label]
  children p := by
    have hp : g.children p = h.children p := by rw [forest]
    exact hp ▸ List.prefix_rfl

theorem Grows.trans (hg : Grows h g) (gk : Grows g k) : Grows h k where
  size := Nat.le_trans hg.size gk.size
  parent m hm := (gk.parent m (Nat.lt_of_lt_of_le hm hg.size)).trans (hg.parent m hm)
  root m hm := (gk.root m (Nat.lt_of_lt_of_le hm hg.size)).trans (hg.root m hm)
  label m hm := (gk.label m (Nat.lt_of_lt_of_le hm hg.size)).trans (hg.label m hm)
  children p := (hg.children p).trans (gk.children p)

theorem Grows.isAnd (hg : Grows h g) (hn : n < h.size) : g.isAnd n = h.isAnd n := by
  simp [Heap.isAnd, isOr, hg.label n hn]

theorem Grows.isOr (hg : Grows h g) (hn : n < h.size) : g.isOr n = h.isOr n := by
  simp [Heap.isOr, hg.label n hn]

theorem Grows.reaches (hg : Grows h g) (hr : h.Reaches a b) : g.Reaches a b :=
  hr.mono fun p _ hc => (hg.children p).subset hc

theorem Grows.attached (hg : Grows h g) (hn : n < h.size) (ha : h.Attached n) :
    g.Attached n := by
  rw [Forest.Attached, hg.root n hn]
  exact hg.reaches ha

theorem Grows.lineage (hg : Grows h g) (hn : n < h.size) : g.lineage n = h.lineage n :=
  Forest.lineage_congr fun m hm => hg.parent m (Nat.lt_of_le_of_lt hm hn)

end Grows

section Ask

variable {h : Heap} {n : Nat}

theorem ask_eq (hn : n < h.size) (ha : h.isAnd n = true) :
    h.ask n = (h.addChild n { cls := .orNode } hn
      (by simpa [isAnd, isOr] using ha)).2.modify n fun a => { a with partitioning := true } := by
  have hc : (h.label n).cls ≠ .orNode := by simpa [isAnd, isOr] using ha
  simp [ask, newOr, hn, hc]

theorem ask_forest (hn : n < h.size) (ha : h.isAnd n = true) :
    (h.ask n).toForest = h.toForest.addChild n hn := by
  rw [ask_eq hn ha]
  rfl

theorem ask_label (hn : n < h.size) (ha : h.isAnd n = true) :
    (h.ask n).label = Function.update h.label h.size { cls := .orNode } := by
  rw [ask_eq hn ha]
  rfl

theorem ask_attrs (hn : n < h.size) (ha : h.isAnd n = true) (m : Nat) :
    (h.ask n).attrs m =
      if m = n then { h.attrs n with partitioning := true }
      else if m = h.size then {} else h.attrs m := by
  rw [ask_eq hn ha, modify_attrs]
  by_cases hm : m = n
  · rw [if_pos hm, if_pos hm]
    simp only [addChild, Function.update_of_ne (Nat.ne_of_lt hn)]
  · rw [if_neg hm, if_neg hm]
    simp only [addChild, Function.update_apply]

theorem ask_status (hn : n < h.size) (ha : h.isAnd n = true) (m : Nat) :
    (h.ask n).status m = if m = h.size then .unknown else h.status m := by
  rw [status, ask_attrs hn ha]
  by_cases hm : m = n
  · rw [if_pos hm, if_neg (by omega), status, hm]
  · rw [if_neg hm]
    split <;> rfl

end Ask

section Grown

variable {h g : Heap} {o : Nat} {ps : List String}

theorem addChild_grows {n : Nat} {l : Label} (hn : n < h.size)
    (hl : l.cls = .orNode ↔ (h.label n).cls ≠ .orNode) : Grows h (h.addChild n l hn hl).2 where
  size := Nat.le_succ _
  parent _ hm := Function.update_of_ne (Nat.ne_of_lt hm) _ _
  root _ hm := Function.update_of_ne (Nat.ne_of_lt hm) _ _
  label _ hm := Function.update_of_ne (Nat.ne_of_lt hm) _ _
  children p := by
    simp only [addChild, Forest.addChild, Function.update_apply]
    split
    · next hp => exact hp ▸ List.prefix_append _ _
    · exact List.prefix_rfl

theorem ask_grows {n : Nat} (hn : n < h.size) (ha : h.isAnd n = true) : Grows h (h.ask n) := by
  have hl : NodeClass.orNode = .orNode ↔ (h.label n).cls ≠ .orNode := by
    simpa [isAnd, isOr] using ha
  rw [ask_eq hn ha]
  exact (addChild_grows (l := { cls := .orNode }) hn hl).trans (Grows.of_eq rfl rfl)

theorem addRoot_grows (l : Label) : Grows h (h.addRoot l).2 where
  size := Nat.le_succ _
  parent _ _ := rfl
  root _ _ := rfl
  label _ hm := Function.update_of_ne (Nat.ne_of_lt hm) _ _
  children _ := List.prefix_rfl

/-- The trees with one new AND node under `o` for each text. -/
structure Filled (h : Heap) (o : Nat) (ps : List String) (g : Heap) : Prop where
  grows : Grows h g
  size : g.size = h.size + ps.length
  others : ∀ q, q ≠ o → g.children q = h.children q
  children : g.children o = h.children o ++ List.range' h.size ps.length
  parent : ∀ i, i < ps.length → g.parent (h.size + i) = some o
  label : ∀ i (hi : i < ps.length),
    g.label (h.size + i) = { cls := .andNode, smt := ps[i] }
  new : ∀ i, i < ps.length → g.attrs (h.size + i) = {}
  old : ∀ m, m < h.size → g.attrs m = h.attrs m

theorem Filled.cons {p : String} {l : Label} {ho : o < h.size}
    {hl : l.cls = .orNode ↔ (h.label o).cls ≠ .orNode}
    (he : l = { cls := .andNode, smt := p })
    (hf : Filled (h.addChild o l ho hl).2 o ps g) : Filled h o (p :: ps) g := by
  have hs : (h.addChild o l ho hl).2.size = h.size + 1 := rfl
  have first : ∀ i, i < (p :: ps).length → i = 0 ∨ ∃ j, i = j + 1 ∧ j < ps.length := by
    intro i hi
    cases i with
    | zero => exact Or.inl rfl
    | succ j => exact Or.inr ⟨j, rfl, Nat.lt_of_succ_lt_succ hi⟩
  refine ⟨(addChild_grows ho hl).trans hf.grows, ?_, fun q hq => ?_, ?_, fun i hi => ?_,
    fun i hi => ?_, fun i hi => ?_, fun m hm => ?_⟩
  · rw [hf.size, hs, List.length_cons]
    omega
  · rw [hf.others q hq]
    exact Function.update_of_ne hq _ _
  · rw [hf.children, hs, List.length_cons, List.range'_succ]
    simp [addChild, Forest.addChild]
  · rcases first i hi with rfl | ⟨j, rfl, hj⟩
    · rw [Nat.add_zero, hf.grows.parent _ (hs ▸ Nat.lt_succ_self _)]
      exact Function.update_self _ _ _
    · rw [← hf.parent j hj, hs]
      congr 1
      omega
  · rcases first i hi with rfl | ⟨j, rfl, hj⟩
    · simp only [Nat.add_zero]
      rw [hf.grows.label _ (hs ▸ Nat.lt_succ_self _)]
      exact (Function.update_self _ _ _).trans he
    · have := hf.label j hj
      rw [hs, Nat.add_right_comm, Nat.add_assoc] at this
      exact this
  · rcases first i hi with rfl | ⟨j, rfl, hj⟩
    · rw [Nat.add_zero, hf.old _ (hs ▸ Nat.lt_succ_self _)]
      exact Function.update_self _ _ _
    · have := hf.new j hj
      rw [hs, Nat.add_right_comm, Nat.add_assoc] at this
      exact this
  · rw [hf.old m (by omega)]
    exact Function.update_of_ne (Nat.ne_of_lt hm) _ _

theorem addAnds_filled (ho : o < h.size) (hor : h.isOr o = true) (ps : List String) :
    (h.addAnds o ps).1 = none ∧ Filled h o ps (h.addAnds o ps).2 := by
  induction ps generalizing h with
  | nil =>
    refine ⟨rfl, Grows.refl h, rfl, fun _ _ => rfl, (List.append_nil _).symm, ?_, ?_, ?_, ?_⟩
    · exact fun i hi => absurd hi (Nat.not_lt_zero i)
    · exact fun i hi => absurd hi (Nat.not_lt_zero i)
    · exact fun i hi => absurd hi (Nat.not_lt_zero i)
    · exact fun m _ => rfl
  | cons p ps ih =>
    have hc : (h.label o).cls = .orNode := by simpa [isOr] using hor
    have hl : NodeClass.andNode = .orNode ↔ (h.label o).cls ≠ .orNode := by simp [hc]
    have hor' : (h.addChild o { cls := .andNode, smt := p } ho hl).2.isOr o
        = true := by
      rw [(addChild_grows ho hl).isOr ho, hor]
    obtain ⟨hnone, hfill⟩ := ih (Nat.lt_succ_of_lt ho) hor'
    have hstep : h.addAnds o (p :: ps) =
        (h.addChild o { cls := .andNode, smt := p } ho hl).2.addAnds o ps := by
      simp [addAnds, newAnd, ho, hc]
    rw [hstep]
    exact ⟨hnone, hfill.cons rfl⟩

end Grown

section Reply

variable {h : Heap} {o : Nat}

/-- A reply fills the waiting OR node or leaves it empty. -/
theorem reply_cases (ho : o < h.size) (hor : h.isOr o = true) (partitions : Option (List String)) :
    (partitions = none ∧ h.reply o partitions = h.clear o) ∨
    ∃ ps g, partitions = some ps ∧ Filled h o (ps.map Solver.assertText) g ∧
      ((∃ p, h.parent o = some p ∧ g.status p ≠ .unknown ∧ h.reply o partitions = g.clear o) ∨
        (∀ p, h.parent o = some p → g.status p = .unknown) ∧ h.reply o partitions = g) := by
  cases partitions with
  | none => exact Or.inl ⟨rfl, rfl⟩
  | some ps =>
    obtain ⟨hnone, hfill⟩ := addAnds_filled ho hor (ps.map Solver.assertText)
    obtain ⟨r, hr⟩ : ∃ r, h.addAnds o (ps.map Solver.assertText) = r := ⟨_, rfl⟩
    rw [hr] at hnone hfill
    obtain ⟨e, g⟩ := r
    simp only at hnone hfill
    subst hnone
    refine Or.inr ⟨ps, g, rfl, hfill, ?_⟩
    have hpar := hfill.grows.parent o ho
    cases hp : h.parent o with
    | none =>
      rw [hp] at hpar
      exact Or.inr ⟨fun p hp => absurd hp.symm (Option.some_ne_none p),
        by simp only [reply, hr, hpar]⟩
    | some p =>
      rw [hp] at hpar
      by_cases hs : g.status p = .unknown
      · refine Or.inr ⟨fun q hq => ?_, by simp only [reply, hr, hpar, if_pos hs]⟩
        rw [Option.some.injEq] at hq
        exact hq ▸ hs
      · exact Or.inl ⟨p, rfl, hs, by simp only [reply, hr, hpar, if_neg hs]⟩

theorem clear_grows {g : Heap} (hg : Grows h g) (hc : h.children o = []) : Grows h (g.clear o) where
  size := hg.size
  parent := hg.parent
  root := hg.root
  label := hg.label
  children p := by
    simp only [clear, Forest.clear, Function.update_apply]
    split
    · next hp =>
      have hnil : h.children p = [] := hp ▸ hc
      exact hnil ▸ List.prefix_rfl
    · exact hg.children p

theorem reply_grows (ho : o < h.size) (hor : h.isOr o = true) (hc : h.children o = [])
    (partitions : Option (List String)) : Grows h (h.reply o partitions) := by
  rcases reply_cases ho hor partitions with ⟨_, he⟩ | ⟨ps, g, _, hf, ⟨p, _, _, he⟩ | ⟨_, he⟩⟩
  · exact he ▸ clear_grows (Grows.refl h) hc
  · exact he ▸ clear_grows hf.grows hc
  · exact he ▸ hf.grows

/-- No other node gets or loses children by a reply. -/
theorem reply_others (ho : o < h.size) (hor : h.isOr o = true) (partitions : Option (List String))
    {q : Nat} (hq : q ≠ o) : (h.reply o partitions).children q = h.children q := by
  have clear : ∀ g : Heap, (g.clear o).children q = g.children q :=
    fun g => Function.update_of_ne hq _ _
  rcases reply_cases ho hor partitions with ⟨_, he⟩ | ⟨ps, g, _, hf, ⟨p, _, _, he⟩ | ⟨_, he⟩⟩
  · rw [he, clear]
  · rw [he, clear, hf.others q hq]
  · rw [he, hf.others q hq]

/-- A reply writes no attribute of a node that was there. -/
theorem reply_attrs (ho : o < h.size) (hor : h.isOr o = true) (partitions : Option (List String))
    {m : Nat} (hm : m < h.size) : (h.reply o partitions).attrs m = h.attrs m := by
  rcases reply_cases ho hor partitions with ⟨_, he⟩ | ⟨ps, g, _, hf, ⟨p, _, _, he⟩ | ⟨_, he⟩⟩
  · rw [he]; rfl
  · rw [he]; exact hf.old m hm
  · rw [he, hf.old m hm]

/-- The nodes of a reply are new. -/
theorem reply_new (ho : o < h.size) (hor : h.isOr o = true) (partitions : Option (List String))
    {m : Nat} (hle : h.size ≤ m) (hm : m < (h.reply o partitions).size) :
    (h.reply o partitions).attrs m = {} := by
  rcases reply_cases ho hor partitions with ⟨_, he⟩ | ⟨ps, g, _, hf, hg⟩
  · rw [he] at hm
    exact absurd hm (Nat.not_lt.mpr hle)
  · obtain ⟨hsize, hattrs⟩ : (h.reply o partitions).size = g.size ∧
        (h.reply o partitions).attrs = g.attrs := by
      rcases hg with ⟨p, _, _, he⟩ | ⟨_, he⟩
      · rw [he]; exact ⟨rfl, rfl⟩
      · rw [he]; exact ⟨rfl, rfl⟩
    rw [hsize, hf.size] at hm
    obtain ⟨i, rfl⟩ := Nat.exists_eq_add_of_le hle
    rw [hattrs]
    exact hf.new i (Nat.lt_of_add_lt_add_left hm)

/-- The partitions of an unknown node become children of its OR node. -/
theorem reply_len {n : Nat} {ps : List String} (ho : o < h.size) (hor : h.isOr o = true)
    (hn : h.parent o = some n) (hu : h.status n = .unknown) :
    ps.length ≤ (h.reply o (some ps)).len o := by
  have hlt : n < h.size := Nat.lt_trans (h.parent_lt hn) ho
  rcases reply_cases ho hor (some ps) with ⟨hnone, _⟩ | ⟨qs, g, hqs, hf, hcase⟩
  · cases hnone
  · obtain rfl : ps = qs := Option.some.inj hqs
    rcases hcase with ⟨p, hp, hknown, _⟩ | ⟨_, he⟩
    · obtain rfl : n = p := Option.some.inj (hn.symm.trans hp)
      refine absurd ?_ hknown
      rw [status, hf.old n hlt]
      exact hu
    · rw [he, len, hf.children]
      simp

end Reply

section Report

variable {h : Heap} {n : NodeId} {status : SolveStatus}

theorem SameTree.trans {h g k : Heap} (hg : SameTree h g) (gk : SameTree g k) : SameTree h k where
  forest := gk.forest.trans hg.forest
  label := gk.label.trans hg.label
  attrs m := by
    rw [← hg.attrs m, ← gk.attrs m]

theorem SameTree.grows {h g : Heap} (hg : SameTree h g) : Grows h g :=
  Grows.of_eq hg.forest hg.label

theorem SameTree.partitioning {h g : Heap} (hg : SameTree h g) (m : NodeId) :
    (g.attrs m).partitioning = (h.attrs m).partitioning := by
  rw [← hg.attrs m]

theorem SameTree.processed {h g : Heap} (hg : SameTree h g) (m : NodeId) :
    (g.attrs m).processed = (h.attrs m).processed := by
  rw [← hg.attrs m]

/-- What a report leaves true, once each single status it sets does. -/
theorem markUnsat_rule {P : Heap → Prop} {l : List NodeId}
    (step : ∀ h c, P h → c ∈ l → h.status c = .unknown → h.isAnd c = true →
      P (h.setStatus c .unsat)) (hP : P h) : P (h.markUnsat l) := by
  induction l generalizing h with
  | nil => exact hP
  | cons c cs ih =>
    rw [markUnsat]
    refine ih (fun h c' hP hc' => step h c' hP (List.mem_cons_of_mem _ hc')) ?_
    split
    · next hc => exact step h c hP List.mem_cons_self hc.1 hc.2
    · exact hP

theorem sameTree_report (h : Heap) (n : NodeId) (status : SolveStatus) :
    SameTree h (h.report n status) := by
  rw [report]
  split
  · exact markUnsat_rule (fun g c hg _ _ _ => hg.trans (sameTree_setStatus g c .unsat))
      (sameTree_setStatus h n status)
  · exact sameTree_setStatus h n status

end Report

end Smts.Server.Heap
