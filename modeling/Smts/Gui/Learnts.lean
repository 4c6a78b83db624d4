import Mathlib.Data.List.Count
import Mathlib.Tactic.Tauto
import Smts.Gui.Cnf
import Smts.Lib.Table

namespace Smts.Gui

open Smts.Lib

section Counting

variable {α κ : Type} [DecidableEq κ] {key : α → κ} {counts : κ → Count} {ids : List κ}
  {items : List α}

/-- The counters count a list of ids.  An id that was never counted has no counter. -/
def Counts (counts : κ → Count) (ids : List κ) : Prop :=
  ∀ id, counts id = .number (ids.count id) ∨ counts id = .undefined ∧ ids.count id = 0

theorem Counts.perm {ids' : List κ} (h : Counts counts ids)
    (heq : ∀ id, ids.count id = ids'.count id) : Counts counts ids' := fun id => heq id ▸ h id

theorem Counts.unique {ids' : List κ} (h : Counts counts ids) (h' : Counts counts ids') (id : κ) :
    ids.count id = ids'.count id := by
  rcases h id with hn | ⟨hn, hzero⟩ <;> rcases h' id with hn' | ⟨hn', hzero'⟩
  · exact_mod_cast Count.number.inj (hn.symm.trans hn')
  · simp [hn] at hn'
  · simp [hn] at hn'
  · rw [hzero, hzero']

theorem Counts.vacant_iff (h : Counts counts ids) (id : κ) :
    (counts id).vacant = true ↔ id ∉ ids := by
  rw [← List.count_eq_zero]
  rcases h id with h | ⟨h, hzero⟩
  · simp [h, Count.vacant]
  · simp [h, hzero, Count.vacant]

theorem Counts.first (h : Counts counts ids) {id : κ} (hid : id ∉ ids) :
    Counts (Function.update counts id (.number 1)) (id :: ids) := by
  intro other
  by_cases ho : other = id
  · subst ho
    simp [List.count_eq_zero.mpr hid]
  · rw [Function.update_of_ne ho, List.count_cons_of_ne (Ne.symm ho)]
    exact h other

theorem Counts.again (h : Counts counts ids) {id : κ} (hid : id ∈ ids) :
    Counts (Function.update counts id (counts id).increment) (id :: ids) := by
  intro other
  by_cases ho : other = id
  · subst ho
    rcases h other with hn | ⟨-, hzero⟩
    · simp [hn, Count.increment]
    · exact absurd hid (List.count_eq_zero.mp hzero)
  · rw [Function.update_of_ne ho, List.count_cons_of_ne (Ne.symm ho)]
    exact h other

/-- Counting items in: an item is collected where its id comes up for the first time. -/
theorem Counts.tally (h : Counts counts ids) (items : List α) :
    Counts (tally key counts items).1 (ids ++ items.map key) ∧
      ((tally key counts items).2.map key).Nodup ∧
      ∀ id, id ∈ (tally key counts items).2.map key ↔ id ∈ items.map key ∧ id ∉ ids := by
  induction items generalizing counts ids with
  | nil => simpa [Gui.tally] using h
  | cons item items ih =>
    have hmove (id : κ) : (key item :: ids ++ items.map key).count id =
        (ids ++ (item :: items).map key).count id := by
      simp only [List.cons_append, List.map_cons, List.count_append, List.count_cons]
      omega
    rw [Gui.tally]
    split
    · rename_i hv
      have hid := (h.vacant_iff _).mp hv
      obtain ⟨hcounts, hnodup, hmem⟩ := ih (h.first hid)
      refine ⟨hcounts.perm hmove, ?_, fun id => ?_⟩
      · rw [List.map_cons, List.nodup_cons, hmem]
        exact ⟨fun hin => hin.2 List.mem_cons_self, hnodup⟩
      · rw [List.map_cons, List.mem_cons, hmem, List.map_cons, List.mem_cons, List.mem_cons]
        by_cases hi : id = key item
        · subst hi
          simp [hid]
        · simp [hi]
    · rename_i hv
      have hid : key item ∈ ids := by
        by_contra hid
        exact hv ((h.vacant_iff _).mpr hid)
      obtain ⟨hcounts, hnodup, hmem⟩ := ih (h.again hid)
      refine ⟨hcounts.perm hmove, hnodup, fun id => ?_⟩
      rw [hmem, List.map_cons, List.mem_cons, List.mem_cons]
      by_cases hi : id = key item
      · subst hi
        simp [hid]
      · simp [hi]

/-- A counter after a number of decrements. -/
def Count.drop : Count → Nat → Count
  | .number n, k => .number (n - k)
  | c, 0 => c
  | _, _ + 1 => .nan

@[simp] theorem Count.drop_zero (c : Count) : c.drop 0 = c := by
  cases c <;> simp [Count.drop]

theorem Count.drop_decrement (c : Count) (k : Nat) : c.decrement.drop k = c.drop (k + 1) := by
  cases c with
  | number n => simp only [Count.decrement, Count.drop, Count.number.injEq]; omega
  | _ => cases k <;> rfl

theorem Count.exhausted_drop {c : Count} (h : c.exhausted = true) (k : Nat) :
    (c.drop k).exhausted = true := by
  cases c with
  | number n => simp only [Count.exhausted, Count.drop, decide_eq_true_eq] at h ⊢; omega
  | _ => simp [Count.exhausted] at h

theorem Count.drop_ne_undefined (c : Count) {k : Nat} (hk : 0 < k) : c.drop k ≠ .undefined := by
  cases k with
  | zero => exact absurd hk (Nat.lt_irrefl 0)
  | succ k => cases c <;> simp [Count.drop]

theorem Count.drop_undefined {k : Nat} (hk : 0 < k) : Count.undefined.drop k = .nan := by
  cases k with
  | zero => exact absurd hk (Nat.lt_irrefl 0)
  | succ k => rfl

/-- Counting items out: an id is collected if its counter runs out. -/
theorem untally_spec (items : List α) (id : κ) :
    (untally key counts items).1 id = (counts id).drop ((items.map key).count id) ∧
      (id ∈ (untally key counts items).2 ↔
        id ∈ items.map key ∧ ((untally key counts items).1 id).exhausted = true) := by
  induction items generalizing counts with
  | nil => simp [untally]
  | cons item items ih =>
    have hrest := @ih (Function.update counts (key item) (counts (key item)).decrement)
    obtain ⟨hcount, hmem⟩ := hrest
    have hfst : (untally key counts (item :: items)).1 = (untally key
        (Function.update counts (key item) (counts (key item)).decrement) items).1 := by
      rw [untally]
      split <;> rfl
    rw [hfst]
    constructor
    · rw [hcount, List.map_cons]
      by_cases hi : id = key item
      · subst hi
        rw [Function.update_self, List.count_cons_self, Count.drop_decrement]
      · rw [Function.update_of_ne hi, List.count_cons_of_ne (Ne.symm hi)]
    · rw [untally, List.map_cons, List.mem_cons]
      split
      · rename_i hexhausted
        rw [List.mem_cons, hmem, or_and_right]
        refine or_congr_left ⟨fun hi => ⟨hi, ?_⟩, And.left⟩
        subst hi
        rw [hcount, Function.update_self]
        exact Count.exhausted_drop hexhausted _
      · rename_i hleft
        rw [hmem]
        refine ⟨fun h => ⟨.inr h.1, h.2⟩, ?_⟩
        rintro ⟨rfl | hi, hout⟩
        · refine ⟨?_, hout⟩
          by_contra hlast
          rw [hcount, Function.update_self, List.count_eq_zero.mpr hlast, Count.drop_zero] at hout
          exact hleft hout
        · exact ⟨hi, hout⟩

/-- Counting out what was counted in. -/
theorem Counts.untally (h : Counts counts (ids ++ items.map key)) :
    Counts (untally key counts items).1 ids ∧
      ∀ id, id ∈ (Gui.untally key counts items).2 ↔ id ∈ items.map key ∧ id ∉ ids := by
  have hleft : Counts (Gui.untally key counts items).1 ids := by
    intro id
    rw [(untally_spec items id).1]
    rcases h id with hn | ⟨hn, hzero⟩
    · left
      rw [hn, List.count_append, Count.drop]
      simp
    · rw [List.count_append] at hzero
      right
      rw [hn, show (items.map key).count id = 0 by omega]
      exact ⟨rfl, by omega⟩
  refine ⟨hleft, fun id => ?_⟩
  rw [(untally_spec items id).2]
  refine and_congr_right fun hi => ?_
  have hpos := List.count_pos_iff.mpr hi
  rcases hleft id with hn | ⟨hn, hzero⟩
  · simp [hn, Count.exhausted, List.count_eq_zero]
  · rw [(untally_spec items id).1] at hn
    exact absurd hn (Count.drop_ne_undefined _ hpos)

end Counting

namespace Cnf

variable {vis : Vis} {c : Cnf vis}

def clauseEdges (c : Cnf vis) : List Edge := c.clauses.elim [] Data.edges

def learntEdges (c : Cnf vis) : List Edge := c.learnts.elim [] fun learnts => learnts.data.edges

/-- The ids of the edges that are to be seen, as often as they occur. -/
def shown (c : Cnf vis) : List String :=
  (c.clauseEdges ++ if c.isShowLearnts then c.learntEdges else []).map Edge.id

/-- The network and the counters are those of a list of ids. -/
structure Draws (c : Cnf vis) (ids : List String) : Prop where
  present : ∀ id, id ∈ vis.edges.getIds c.edges ↔ id ∈ ids
  once : (vis.edges.getIds c.edges).Nodup
  counted : Counts c.edgesCounts ids

/-- The network has the edges that are to be seen, and the counters their occurrences. -/
def Intact (c : Cnf vis) : Prop := c.Draws c.shown

/-- Hiding the learnts takes away what was shown. -/
def Hidable (c : Cnf vis) : Prop := c.isShowLearnts = true ∨ c.learntEdges = []

/-- What may come back for a request. -/
def Suits (c : Cnf vis) : Reply → Prop
  | .missing => True
  | .garbled => c.learntEdges = []
  | .cnf _ => c.Hidable

/-- Learnts are hidden only where they are shown, and learnts that cannot be read come only
where there is nothing to hide. -/
def Balanced (c : Cnf vis) : Act → Prop
  | .update instanceName solverAddress =>
    (given instanceName = true ∧ given solverAddress = true) ∨ c.Hidable
  | .answer k reply => c.requests.length ≤ k ∨ c.Suits reply
  | .click => True

section Loops

variable {ids : List String}

/-- The items that a count of learnts or clauses collects are new. -/
theorem map_collected {counts : String → Count} {items : List Edge} {draw : Edge → EdgeItem}
    (hdraw : ∀ e, (draw e).id = e.id) :
    ((tally Edge.id counts items).2.map draw).map EdgeItem.id =
      (tally Edge.id counts items).2.map Edge.id := by
  simp [Function.comp_def, hdraw]

section Documented

variable (hvis : vis.edges.Documented EdgeItem.id)

include hvis

theorem draws_showClauses (c : Cnf vis) : c.showClauses.Draws (c.clauseEdges.map Edge.id) := by
  have hnone : Counts (fun _ : String => Count.undefined) [] := fun _ => .inr ⟨rfl, rfl⟩
  obtain ⟨hcounts, hnodup, hmem⟩ := @Counts.tally _ _ _ Edge.id _ _ hnone c.clauseEdges
  refine ⟨fun id => ?_, hvis.nodup_getIds _, hcounts⟩
  refine (hvis.mem_make _ ?_ id).trans ?_
  · rw [map_collected fun _ => rfl]
    exact hnodup
  · rw [map_collected fun _ => rfl]
    exact (hmem id).trans (and_iff_left List.not_mem_nil)

theorem Draws.showLearnts (h : c.Draws ids) :
    c.showLearnts.Draws (ids ++ c.learntEdges.map Edge.id) := by
  rw [Cnf.showLearnts, learntEdges]
  cases c.learnts with
  | none => simpa using h
  | some learnts =>
    obtain ⟨hcounts, hnodup, hmem⟩ := @Counts.tally _ _ _ Edge.id _ _ h.counted learnts.data.edges
    refine ⟨fun id => ?_, hvis.nodup_getIds _, hcounts⟩
    refine (hvis.mem_add _ _ ?_ ?_ id).trans ?_
    · rw [map_collected fun _ => rfl]
      exact hnodup
    · intro id hid
      rw [map_collected fun _ => rfl, hmem] at hid
      rw [h.present]
      exact hid.2
    · rw [map_collected fun _ => rfl, h.present, hmem, Option.elim_some, List.mem_append]
      tauto

theorem Draws.hideLearnts (h : c.Draws (ids ++ c.learntEdges.map Edge.id)) :
    c.hideLearnts.Draws ids := by
  rw [learntEdges] at h
  rw [Cnf.hideLearnts]
  cases hl : c.learnts with
  | none => simpa [hl] using h
  | some learnts =>
    rw [hl] at h
    change c.Draws (ids ++ learnts.data.edges.map Edge.id) at h
    obtain ⟨hcounts, hout⟩ := Counts.untally h.counted
    refine ⟨fun id => ?_, hvis.nodup_getIds _, hcounts⟩
    refine (hvis.mem_remove _ _ id).trans ?_
    rw [h.present, hout, List.mem_append]
    tauto

end Documented

/-- Hiding learnts that are not shown spoils the counters of their edges. -/
theorem Draws.not_hideLearnts (h : c.Draws ids) (hne : c.learntEdges ≠ []) :
    ¬ Counts c.hideLearnts.edgesCounts ids := by
  rw [learntEdges] at hne
  rw [Cnf.hideLearnts]
  cases hl : c.learnts with
  | none => simp [hl] at hne
  | some learnts =>
    rw [hl] at hne
    obtain ⟨e, he⟩ := List.exists_mem_of_ne_nil _ hne
    have hpos : 0 < (learnts.data.edges.map Edge.id).count e.id :=
      List.count_pos_iff.mpr (List.mem_map_of_mem he)
    intro hcounts
    change Counts (untally Edge.id c.edgesCounts learnts.data.edges).1 ids at hcounts
    have hlast := (@untally_spec _ _ _ Edge.id c.edgesCounts learnts.data.edges e.id).1
    rcases hcounts e.id with hn | ⟨hn, -⟩
    · rw [hlast] at hn
      rcases h.counted e.id with hm | ⟨hm, -⟩
      · rw [hm, Count.drop, Count.number.injEq] at hn
        omega
      · rw [hm, Count.drop_undefined hpos] at hn
        cases hn
    · exact Count.drop_ne_undefined _ hpos (hlast.symm.trans hn)

end Loops

@[simp] theorem clauseEdges_hideLearnts : c.hideLearnts.clauseEdges = c.clauseEdges := by
  rw [hideLearnts]
  split <;> rfl

@[simp] theorem learntEdges_hideLearnts : c.hideLearnts.learntEdges = c.learntEdges := by
  rw [hideLearnts]
  split <;> rfl

@[simp] theorem isShowLearnts_hideLearnts : c.hideLearnts.isShowLearnts = c.isShowLearnts := by
  rw [hideLearnts]
  split <;> rfl

@[simp] theorem clauseEdges_showLearnts : c.showLearnts.clauseEdges = c.clauseEdges := by
  rw [showLearnts]
  split <;> rfl

@[simp] theorem learntEdges_showLearnts : c.showLearnts.learntEdges = c.learntEdges := by
  rw [showLearnts]
  split <;> rfl

@[simp] theorem isShowLearnts_showLearnts : c.showLearnts.isShowLearnts = c.isShowLearnts := by
  rw [showLearnts]
  split <;> rfl

theorem shown_of_show (h : c.isShowLearnts = true) :
    c.shown = c.clauseEdges.map Edge.id ++ c.learntEdges.map Edge.id := by
  rw [shown, if_pos h, List.map_append]

theorem shown_of_hide (h : c.isShowLearnts = false) : c.shown = c.clauseEdges.map Edge.id := by
  rw [shown, if_neg (by simp [h]), List.append_nil]

/-- Every act of a run is balanced in the state it comes in. -/
def BalancedAlong (c : Cnf vis) : List Act → Prop
  | [] => True
  | a :: acts => c.Balanced a ∧ (c.step a).BalancedAlong acts

section Documented

variable (hvis : vis.edges.Documented EdgeItem.id)

include hvis

/-- Hiding leaves the clauses if and only if the learnts were shown, or have no edges. -/
theorem Intact.hide_iff (h : c.Intact) :
    c.hideLearnts.Draws (c.clauseEdges.map Edge.id) ↔ c.Hidable := by
  rw [Intact] at h
  rw [Hidable]
  cases hshow : c.isShowLearnts with
  | true =>
    rw [shown_of_show hshow] at h
    exact iff_of_true (h.hideLearnts hvis) (.inl rfl)
  | false =>
    rw [shown_of_hide hshow] at h
    constructor
    · intro hdraws
      by_contra hne
      exact h.not_hideLearnts (fun heq => hne (.inr heq)) hdraws.counted
    · rintro (hf | hnil)
      · cases hf
      · refine Draws.hideLearnts hvis ?_
        rw [hnil, List.map_nil, List.append_nil]
        exact h

/-- Removing the learnts. -/
theorem Intact.intact_remove (h : c.Intact) :
    Intact { c.hideLearnts with learnts := none } ↔ c.Hidable := by
  rw [← h.hide_iff hvis, Intact]
  have hshown : shown { c.hideLearnts with learnts := none } = c.clauseEdges.map Edge.id := by
    rw [← clauseEdges_hideLearnts]
    simp only [shown, learntEdges, Option.elim_none, ite_self, List.append_nil]
    rfl
  rw [hshown]
  exact ⟨fun h => ⟨h.present, h.once, h.counted⟩, fun h => ⟨h.present, h.once, h.counted⟩⟩

/-- Replacing the learnts. -/
theorem Intact.intact_replace (h : c.Intact) (learnts : Learnts) :
    let c' : Cnf vis := { c.hideLearnts with learnts := some learnts }
    (if c'.isShowLearnts then c'.showLearnts else c').Intact ↔ c.Hidable := by
  intro c'
  have hedges : c'.clauseEdges = c.clauseEdges := clauseEdges_hideLearnts
  cases hshow : c'.isShowLearnts with
  | true =>
    have hshow' : c.isShowLearnts = true := isShowLearnts_hideLearnts.symm.trans hshow
    refine iff_of_true ?_ (.inl hshow')
    rw [Intact] at h ⊢
    rw [shown_of_show hshow'] at h
    rw [if_pos rfl, shown_of_show (isShowLearnts_showLearnts.trans hshow), clauseEdges_showLearnts,
      learntEdges_showLearnts, hedges]
    have hhidden := h.hideLearnts hvis
    exact Draws.showLearnts hvis (c := c') ⟨hhidden.present, hhidden.once, hhidden.counted⟩
  | false =>
    rw [← h.hide_iff hvis, if_neg Bool.false_ne_true, Intact, shown_of_hide hshow, hedges]
    exact ⟨fun h => ⟨h.present, h.once, h.counted⟩, fun h => ⟨h.present, h.once, h.counted⟩⟩

/-- Learnts that cannot be read are hidden all the same. -/
theorem Intact.intact_garbled (h : c.Intact) : c.hideLearnts.Intact ↔ c.learntEdges = [] := by
  constructor
  · intro hintact
    cases hshow : c.isShowLearnts with
    | true =>
      have hhidden := ((h.hide_iff hvis).mpr (.inl hshow)).counted
      have hcounted := hintact.counted
      rw [shown_of_show (isShowLearnts_hideLearnts.trans hshow), clauseEdges_hideLearnts,
        learntEdges_hideLearnts] at hcounted
      refine List.eq_nil_iff_forall_not_mem.mpr fun e he => ?_
      have hcount := hcounted.unique hhidden e.id
      have hpos := List.count_pos_iff.mpr (List.mem_map_of_mem (f := Edge.id) he)
      rw [List.count_append] at hcount
      omega
    | false =>
      rw [Intact, shown_of_hide (isShowLearnts_hideLearnts.trans hshow),
        clauseEdges_hideLearnts, h.hide_iff hvis, Hidable, hshow] at hintact
      exact hintact.resolve_left Bool.false_ne_true
  · intro hnil
    have hhidden := (h.hide_iff hvis).mpr (.inr hnil)
    rw [Intact, shown, clauseEdges_hideLearnts, learntEdges_hideLearnts, hnil, ite_self,
      List.append_nil]
    exact hhidden

theorem Intact.intact_processCnf (h : c.Intact) (instanceName solverAddress : String)
    (reply : Reply) : (c.processCnf instanceName solverAddress reply).Intact ↔ c.Suits reply := by
  cases reply with
  | missing => exact iff_of_true h trivial
  | garbled => exact h.intact_garbled hvis
  | cnf data => exact h.intact_replace hvis ⟨instanceName, solverAddress, data⟩

/-- A step keeps the network intact if and only if it is balanced. -/
theorem intact_step (h : c.Intact) (a : Act) : (c.step a).Intact ↔ c.Balanced a := by
  cases a with
  | update instanceName solverAddress =>
    rw [step, updateLearnts, Balanced]
    by_cases hgiven : given instanceName = true ∧ given solverAddress = true
    · rw [if_neg (by simp [hgiven])]
      refine iff_of_true ?_ (.inl hgiven)
      simp only
      split
      · exact h
      · exact ⟨h.present, h.once, h.counted⟩
    · have hmissing : (!given instanceName || !given solverAddress) = true := by
        simpa [imp_iff_not_or] using hgiven
      rw [if_pos hmissing, h.intact_remove hvis, or_iff_right hgiven]
  | answer k reply =>
    rw [step, Balanced]
    cases hrequest : c.requests[k]? with
    | none => exact iff_of_true h (.inl (List.getElem?_eq_none_iff.mp hrequest))
    | some request =>
      obtain ⟨hk, -⟩ := List.getElem?_eq_some_iff.mp hrequest
      rw [or_iff_right (by omega)]
      have h' : Intact { c with requests := c.requests.eraseIdx k } :=
        ⟨h.present, h.once, h.counted⟩
      exact h'.intact_processCnf hvis request.1 request.2 reply
  | click =>
    refine iff_of_true ?_ trivial
    rw [Intact] at h
    rw [step, toggleLearnts, Intact]
    cases hshow : c.isShowLearnts with
    | true =>
      rw [shown_of_show hshow] at h
      rw [if_neg (by simp), shown_of_hide (by simp), clauseEdges_hideLearnts]
      exact Draws.hideLearnts hvis (c := { c with isShowLearnts := !true })
        ⟨h.present, h.once, h.counted⟩
    | false =>
      rw [shown_of_hide hshow] at h
      rw [if_pos (by simp), shown_of_show (by simp), clauseEdges_showLearnts,
        learntEdges_showLearnts]
      exact Draws.showLearnts hvis (c := { c with isShowLearnts := !false })
        ⟨h.present, h.once, h.counted⟩

theorem intact_start (clauses : Data) (isShowLearnts : Bool) :
    (start vis clauses isShowLearnts).Intact := by
  have h := draws_showClauses hvis { clauses := some clauses, isShowLearnts }
  have hshown : (start vis clauses isShowLearnts).shown = clauses.edges.map Edge.id := by
    cases isShowLearnts <;> simp [shown, start, showClauses, clauseEdges, learntEdges]
  rw [Intact, hshown]
  exact h

theorem intact_foldl (h : c.Intact) (acts : List Act) :
    (∀ past, past <+: acts → (past.foldl step c).Intact) ↔ c.BalancedAlong acts := by
  induction acts generalizing c with
  | nil => simpa [BalancedAlong] using h
  | cons a acts ih =>
    rw [BalancedAlong, ← intact_step hvis h]
    constructor
    · intro hall
      have hstep := hall [a] ⟨acts, rfl⟩
      refine ⟨hstep, (ih hstep).mp fun past hpast => ?_⟩
      exact hall (a :: past) (List.cons_prefix_cons.mpr ⟨rfl, hpast⟩)
    · rintro ⟨hstep, hrest⟩ past hpast
      rcases List.prefix_cons_iff.mp hpast with rfl | ⟨later, rfl, hlater⟩
      · exact h
      · exact (ih hstep).mpr hrest later hlater

/-- In every state of a run the network has the edges that are to be seen, if and only if every
act of the run is balanced. -/
theorem learnts_intact (clauses : Data) (isShowLearnts : Bool) (acts : List Act) :
    (∀ past, past <+: acts → (past.foldl step (start vis clauses isShowLearnts)).Intact) ↔
      (start vis clauses isShowLearnts).BalancedAlong acts :=
  intact_foldl hvis (intact_start hvis clauses isShowLearnts) acts

end Documented

end Cnf

namespace DataSet

variable {Item Id : Type} [DecidableEq Id]

/-- A table that has each id once. -/
abbrev Items (Item Id : Type) := { t : Table Id Item // (t.map Prod.fst).Nodup }

def Items.put (t : Items Item Id) (i : Id) (item : Item) : Items Item Id :=
  ⟨Table.put i item t.1, Table.nodup_put t.2⟩

/-- Adding stops with an error at an item whose id is there already. -/
def Items.add (id : Items Item Id → Item → Id) (t : Items Item Id) : List Item → Items Item Id
  | [] => t
  | item :: items =>
    if id t item ∈ t.1.map Prod.fst then t else (t.put (id t item) item).add id items

/-- A data set that is a table. -/
def tables (id : Items Item Id → Item → Id) : DataSet Item Id where
  Carrier := Items Item Id
  make := Items.add id ⟨[], List.nodup_nil⟩
  add := Items.add id
  update := List.foldl fun t item =>
    t.put (id t item) item
  remove t ids := ⟨t.1.filter fun e => e.1 ∉ ids, t.2.sublist (List.filter_sublist.map _)⟩
  getIds t := t.1.map Prod.fst

theorem mem_items_add {id : Item → Id} {t : Items Item Id} {items : List Item}
    (hnodup : (items.map id).Nodup) (hnew : ∀ i ∈ items.map id, i ∉ t.1.map Prod.fst) (i : Id) :
    i ∈ (t.add (fun _ => id) items).1.map Prod.fst ↔ i ∈ t.1.map Prod.fst ∨ i ∈ items.map id := by
  induction items generalizing t with
  | nil => simp [Items.add]
  | cons item items ih =>
    rw [List.map_cons, List.nodup_cons] at hnodup
    have hput (j : Id) : j ∈ (t.put (id item) item).1.map Prod.fst ↔
        j = id item ∨ j ∈ t.1.map Prod.fst := Table.mem_keys_put
    rw [Items.add, if_neg (hnew _ List.mem_cons_self), ih hnodup.2, hput, List.map_cons,
      List.mem_cons, or_right_comm, or_assoc, or_comm (a := i ∈ items.map id), or_left_comm]
    intro j hj h
    rcases (hput j).mp h with rfl | h
    · exact hnodup.1 hj
    · exact hnew j (List.mem_cons_of_mem _ hj) h

theorem documented_tables (id : Item → Id) :
    (tables fun _ => id).Documented id where
  nodup_getIds t := t.2
  mem_make items hnodup i := by
    exact (mem_items_add hnodup (fun _ _ => List.not_mem_nil) i).trans
      (or_iff_right List.not_mem_nil)
  mem_add t items hnodup hnew := mem_items_add hnodup hnew
  mem_remove t ids i := by
    have hfilter : (t.1.filter fun e => e.1 ∉ ids).map Prod.fst =
        (t.1.map Prod.fst).filter (· ∉ ids) := by
      rw [List.filter_map]
      rfl
    change i ∈ (t.1.filter fun e => e.1 ∉ ids).map Prod.fst ↔ _
    rw [hfilter, List.mem_filter, decide_eq_true_eq]
    rfl

end DataSet

/-- Data sets that are tables.  A node without an id gets one. -/
def Vis.tables : Vis where
  nodes := .tables fun t item => item.id.elim (.uuid t.1.length) .literal
  edges := .tables fun _ => EdgeItem.id

namespace Cnf

def oneEdge : Data := { nodes := [⟨1, false⟩, ⟨2, false⟩], edges := [⟨"1-2", 1, 2⟩] }

/-- Learnts with the edge of the clauses are shown, hidden, shown again and removed. -/
def toggled : List Act :=
  [.update (some "a.smt2") (some "h:1"), .answer 0 (.cnf oneEdge), .click, .click,
    .update none none]

theorem learnts_intact_toggled :
    ((toggled.take 3).foldl step (start .tables oneEdge true)).Intact ∧
      (toggled.foldl step (start .tables oneEdge true)).Intact := by
  have documented : Vis.tables.edges.Documented EdgeItem.id := DataSet.documented_tables EdgeItem.id
  have hall := (learnts_intact documented oneEdge true toggled).mpr
    ⟨.inl (by decide), .inr (.inl rfl), trivial, trivial, .inr (.inl rfl), trivial⟩
  exact ⟨hall _ (List.take_prefix 3 toggled), hall toggled List.prefix_rfl⟩

/-- Learnts are loaded while they are not to be shown, and removed. -/
def unseen : List Act :=
  [.click, .update (some "a.smt2") (some "h:1"), .answer 0 (.cnf oneEdge), .update none none]

theorem clauses_spoilt :
    (unseen.foldl step (start .tables oneEdge true)).shown = ["1-2"] ∧
      Vis.tables.edges.getIds (unseen.foldl step (start .tables oneEdge true)).edges = [] ∧
      ¬ (unseen.foldl step (start .tables oneEdge true)).Intact := by
  have hshown : (unseen.foldl step (start .tables oneEdge true)).shown = ["1-2"] := by decide
  have hedges : Vis.tables.edges.getIds
      (unseen.foldl step (start .tables oneEdge true)).edges = [] := by decide
  refine ⟨hshown, hedges, fun h => ?_⟩
  have hpresent := h.present "1-2"
  simp [hshown, hedges] at hpresent

end Cnf

end Smts.Gui
