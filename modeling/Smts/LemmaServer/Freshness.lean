import Smts.LemmaServer.Marks

namespace Smts.LemmaServer

open Smts.Lib
open Smts.Lib.Prog

/-- Which lemmas which clients know, for each name of an instance. -/
abbrev Knowledge := Bytes → Nat → Pointer → Prop

def Knowledge.add (K : Knowledge) (name : Bytes) (client : Nat) (ls : List Pointer) :
    Knowledge :=
  fun n c l => K n c l ∨ n = name ∧ c = client ∧ l ∈ ls

/-- A lemma is stored at a node of its level. -/
def AtLevel (_ : Bytes) (a : Address) (l : NetLemma) : Prop := l.level = a.length

/-- What is known is marked. -/
structure Holds (K : Knowledge) (s : State) : Prop where
  once : s.sendAgain = false
  distinct : s.Distinct
  marked : ∀ n c l, K n c l → s.Marked n c l
  stored : Stored AtLevel s

section Operations

variable {K K' : Knowledge} {s s' : State} {name : Bytes} {client : Nat} {l : Pointer}

theorem marks_modifyMarks (f : Table Pointer Bool → Table Pointer Bool) (n : Bytes) (c : Nat) :
    (modifyMarks name client f s).2.marks n c =
      if n = name ∧ c = client then f (s.marks name client) else s.marks n c := by
  simp only [modifyMarks, modify_run, State.marks]
  by_cases hn : n = name
  · subst hn
    rw [Function.update_self, Table.find_put]
    by_cases hc : c = client
    · rw [if_pos hc.symm, if_pos ⟨rfl, hc⟩]
    · rw [if_neg (Ne.symm hc), if_neg fun h => hc h.2]
  · rw [Function.update_of_ne hn, if_neg fun h => hn h.1]

theorem State.Distinct.modifyMarks (h : s.Distinct) {f : Table Pointer Bool → Table Pointer Bool}
    (hf : ∀ m, (m.map Prod.fst).Nodup → ((f m).map Prod.fst).Nodup) :
    (modifyMarks name client f s).2.Distinct := by
  intro n
  simp only [LemmaServer.modifyMarks, modify_run]
  by_cases hn : n = name
  · subst hn
    rw [Function.update_self]
    refine ⟨Table.nodup_put (h n).1, fun e he => ?_⟩
    rcases Table.mem_put he with rfl | he
    · exact hf _ (h.marks n client)
    · exact (h n).2 e he
  · rw [Function.update_of_ne hn]
    exact h n

namespace Holds

theorem modifyMarks (h : Holds K s) {f : Table Pointer Bool → Table Pointer Bool}
    (hf : ∀ m, (m.map Prod.fst).Nodup → ((f m).map Prod.fst).Nodup)
    (hset : ∀ l, Table.find false l (s.marks name client) = true →
      Table.find false l (f (s.marks name client)) = true) :
    Holds K (LemmaServer.modifyMarks name client f s).2 where
  once := h.once
  distinct := h.distinct.modifyMarks hf
  marked n c l hl := by
    have hold := h.marked n c l hl
    rw [State.Marked, marks_modifyMarks]
    split
    · next heq =>
      obtain ⟨rfl, rfl⟩ := heq
      exact hset l hold
    · exact hold
  stored := h.stored.of_lemmas rfl

theorem mark (h : Holds K s) :
    Holds (K.add name client [l]) (mark name client l s).2 := by
  have hput : Holds K (LemmaServer.mark name client l s).2 := by
    refine h.modifyMarks (fun _ => Table.nodup_put) fun l' hl' => ?_
    rw [Table.find_put]
    split
    · rfl
    · exact hl'
  refine { hput with marked := fun n c l' hl' => ?_ }
  rcases hl' with hl' | ⟨rfl, rfl, hl'⟩
  · exact hput.marked n c l' hl'
  · obtain rfl := List.mem_singleton.mp hl'
    rw [State.Marked, LemmaServer.mark, marks_modifyMarks, if_pos ⟨rfl, rfl⟩, Table.find_put,
      if_pos rfl]

end Holds

theorem wp_marked_run {Q : Bool → State → Prop} {E : Exn → State → Prop}
    (h : Q (Table.find false l (s.marks name client)) (modifyMarks name client (fun marks =>
      Table.put l (Table.find false l marks) marks) s).2) : wp (marked name client l) Q E s := by
  have hread : Table.find false l ((modifyMarks name client (fun marks =>
      Table.put l (Table.find false l marks) marks) s).2.marks name client) =
      Table.find false l (s.marks name client) := by
    rw [marks_modifyMarks, if_pos ⟨rfl, rfl⟩, Table.find_put, if_pos rfl]
  rw [marked, wp_bind]
  rw [← hread] at h
  exact h

/-- A lemma that is read as unmarked is not known. -/
theorem wp_marked {Q : Bool → State → Prop} {E : Exn → State → Prop} (h : Holds K s)
    (hQ : ∀ b s', Holds K s' → MarksOnly s s' → (b = false → ¬ K name client l) → Q b s') :
    wp (marked name client l) Q E s := by
  have hput : Holds K (modifyMarks name client
      (fun marks => Table.put l (Table.find false l marks) marks) s).2 := by
    refine h.modifyMarks (fun _ => Table.nodup_put) fun l' hl' => ?_
    rw [Table.find_put]
    split
    · next heq => rwa [heq]
    · exact hl'
  refine wp_marked_run (hQ _ _ hput ⟨rfl, rfl⟩ fun hfalse hK => ?_)
  exact Bool.noConfusion (hfalse.symm.trans (h.marked name client l hK))

/-- The marks that are erased are not needed for `K'`. -/
theorem Holds.garbageCollect {env : Env} {n : Nat} (h : Holds K s)
    (hK : ∀ n c l, K' n c l → K n c l)
    (hkept : cutSize * 2 < s.lemmasSize + n →
      ∀ e ∈ (entries env (env.walk (s.solvers name))).take (s.lemmasSize + n - cutSize),
        e.2.2 = true → ¬ K' name e.1 e.2.1) :
    Holds K' (garbageCollect env n name s).2 := by
  rw [LemmaServer.garbageCollect, modify_run]
  dsimp only
  split
  · next hsize =>
    have hdistinct : State.Distinct { s with
        solvers := Function.update s.solvers name
          (eraseTables env (env.walk (s.solvers name)) (s.lemmasSize + n)).1
        lemmasSize := (eraseTables env (env.walk (s.solvers name)) (s.lemmasSize + n)).2 } := by
      intro m
      dsimp only
      by_cases hm : m = name
      · subst hm
        rw [Function.update_self, keys_eraseTables]
        have hwalk := env.walk_perm (s.solvers m)
        refine ⟨(hwalk.map Prod.fst).nodup_iff.mpr (h.distinct m).1, ?_⟩
        exact nodup_eraseTables (fun e he => (h.distinct m).2 e (hwalk.mem_iff.mp he)) _
      · rw [Function.update_of_ne hm]
        exact h.distinct m
    refine ⟨h.once, hdistinct, fun m c l hl => ?_, h.stored.of_lemmas rfl⟩
    have hmarked := h.marked m c l (hK m c l hl)
    by_cases hm : m = name
    · subst hm
      obtain ⟨hmem, htrue⟩ := hmarked.mem
      have hkeep : (c, l, true) ∉ (entries env (env.walk (s.solvers m))).take
          (s.lemmasSize + n - cutSize) := fun he => hkept hsize _ he rfl hl
      obtain ⟨marks, hmarks, hltrue⟩ := mem_eraseTables
        (by simp only [cutSize] at hsize ⊢; omega)
        ((env.walk_perm _).mem_iff.mpr hmem) htrue hkeep
      refine hdistinct.marked ?_ hltrue
      dsimp only
      rwa [Function.update_self]
    · have hsame : State.marks { s with
          solvers := Function.update s.solvers name
            (eraseTables env (env.walk (s.solvers name)) (s.lemmasSize + n)).1
          lemmasSize := (eraseTables env (env.walk (s.solvers name)) (s.lemmasSize + n)).2 } m c =
          s.marks m c := by
        simp only [State.marks, Function.update_of_ne hm]
      rwa [State.Marked, hsame]
  · exact ⟨h.once, h.distinct, fun m c l hl => h.marked m c l (hK m c l hl), h.stored⟩

end Operations

section Push

variable {K : Knowledge} {s : State} {name : Bytes} {client : Nat} {path : List Nat}

theorem Holds.mono {K' : Knowledge} (h : Holds K s) (hK : ∀ n c l, K' n c l → K n c l) :
    Holds K' s :=
  { h with marked := fun n c l hl => h.marked n c l (hK n c l hl) }

/-- The tree changes, and with it no mark. -/
theorem Holds.modifyTree (h : Holds K s) {f : Trie Index → Trie Index}
    (hst : Stored AtLevel (modifyTree name f s).2) : Holds K (modifyTree name f s).2 :=
  ⟨h.once, h.distinct, h.marked, hst⟩

theorem Grown.mapVal (h : Grown name path s) (f : Index → Index) (a : Address) :
    Grown name path (modifyTree name (Trie.update (Trie.mapVal f) a) s).2 := by
  intro b hb
  obtain ⟨index, hindex⟩ := Option.isSome_iff_exists.mp (h b hb)
  obtain ⟨t, ht, hlookup⟩ := Option.bind_eq_some_iff.mp hindex
  have htree : (modifyTree name (Trie.update (Trie.mapVal f) a) s).2.lemmas name =
      some (Trie.update (Trie.mapVal f) a t) := by simp [modifyTree, ht]
  rw [htree, Option.bind_some, Trie.lookup_update_mapVal, hlookup]
  split
  · rfl
  · rfl

/-- The level of the lemma leads to a node on the path. -/
def InRange (path : List Nat) (l : NetLemma) : Prop := 0 ≤ l.level ∧ l.level ≤ path.length

instance (path : List Nat) (l : NetLemma) : Decidable (InRange path l) :=
  inferInstanceAs (Decidable (_ ∧ _))

/-- The lemma object that stands for `l` on the way to a node. -/
def pointer (path : List Nat) (l : NetLemma) : Pointer := (path.take l.level.toNat, l.clause)

theorem wp_pushLemma_known {l : NetLemma} (h : Holds K s) (hg : Grown name path s) :
    wp (pushLemma name client path.inits l)
      (fun _ s' => Holds (K.add name client [pointer path l]) s' ∧ Grown name path s' ∧
        s'.sent = s.sent ∧ InRange path l)
      (fun _ s' => Holds K s' ∧ s'.sent = s.sent ∧ ¬ InRange path l) s := by
  unfold pushLemma
  split
  · next hlevel =>
    rw [List.length_inits] at hlevel
    exact ⟨h, rfl, fun hr => by unfold InRange at hr; omega⟩
  · next hlevel =>
    rw [List.length_inits] at hlevel
    have hrange : InRange path l := by unfold InRange; omega
    obtain ⟨k, hk⟩ := Int.eq_ofNat_of_zero_le hrange.1
    have hlen : k < path.inits.length := by rw [List.length_inits]; omega
    have ha : path.inits.getD l.level.toNat [] = path.take l.level.toNat := by
      rw [hk, Int.toNat_natCast, List.getD_eq_getElem?_getD, List.getElem?_eq_getElem hlen,
        List.getElem_inits]
      rfl
    have hlevel : AtLevel name (path.take l.level.toNat) l := by
      rw [List.length_inits] at hlen
      rw [AtLevel, List.length_take_of_le (by omega)]
      omega
    have hnode := hg _ ((List.mem_inits _ path).mpr (List.take_prefix l.level.toNat path))
    obtain ⟨index, hindex⟩ := Option.isSome_iff_exists.mp hnode
    rw [ha, wp_bind, LemmaServer.index, wp_bind, wp_gets, hindex, wp_pure]
    split
    · exact ⟨(h.modifyTree (h.stored.increase _ _)).mark, hg.mapVal _ _, rfl, hrange⟩
    · exact ⟨(h.modifyTree (h.stored.addLemma hlevel)).mark, hg.mapVal _ _, rfl, hrange⟩

/-- The lemmas of a batch that are entered: an unusable level ends the task. -/
def accepted (path : List Nat) (body : List NetLemma) : List NetLemma :=
  body.takeWhile (InRange path ·)

theorem wp_forEach_pushLemma {body : List NetLemma} (h : Holds K s) (hg : Grown name path s) :
    wp (forEach (pushLemma name client path.inits) body)
      (fun _ s' => Holds (K.add name client ((accepted path body).map (pointer path))) s' ∧
        s'.sent = s.sent)
      (fun _ s' => Holds (K.add name client ((accepted path body).map (pointer path))) s' ∧
        s'.sent = s.sent) s := by
  refine wp_mono (wp_forEach (I := fun rest s' => ∃ done, body = done ++ rest ∧
    (∀ l ∈ done, InRange path l) ∧ Holds (K.add name client (done.map (pointer path))) s' ∧
    Grown name path s' ∧ s'.sent = s.sent) ?_ ⟨[], rfl, by simp, ?_, hg, rfl⟩) ?_
    fun _ _ h => h
  · rintro l rest s' ⟨done, rfl, hdone, hholds, hgrown, hsent⟩
    refine wp_mono (wp_pushLemma_known hholds hgrown) ?_ ?_
    · rintro - s'' ⟨hholds', hgrown', hsent', hrange⟩
      refine ⟨done ++ [l], by simp, ?_, hholds'.mono ?_, hgrown', hsent'.trans hsent⟩
      · simpa [or_imp, forall_and] using ⟨hdone, hrange⟩
      · rintro n c l' (hl' | ⟨rfl, rfl, hl'⟩)
        · exact .inl (.inl hl')
        · rw [List.map_append, List.mem_append] at hl'
          exact hl'.elim (fun hl' => .inl (.inr ⟨rfl, rfl, hl'⟩)) fun hl' => .inr ⟨rfl, rfl, hl'⟩
    · rintro - s'' ⟨hholds', hsent', hrange⟩
      have hstop : accepted path (done ++ l :: rest) = done := by
        rw [accepted, List.takeWhile_append_of_pos (by simpa using hdone),
          List.takeWhile_cons_of_neg (by simpa using hrange), List.append_nil]
      rw [hstop]
      exact ⟨hholds', hsent'.trans hsent⟩
  · exact h.mono fun n c l hl => hl.resolve_right fun hl => List.not_mem_nil hl.2.2
  · rintro - s' ⟨done, hbody, hdone, hholds, -, hsent⟩
    rw [List.append_nil] at hbody
    subst hbody
    have hall : accepted path body = body := List.takeWhile_eq_self_iff.mpr (by simpa using hdone)
    rw [hall]
    exact ⟨hholds, hsent⟩

/-- The marks that the garbage collection of a push erases. -/
def collected (env : Env) (s : State) (name : Bytes) (client n : Nat) :
    List (Nat × Pointer × Bool) :=
  if cutSize * 2 < s.lemmasSize + n then
    (entries env (env.walk (Table.put client (s.marks name client) (s.solvers name)))).take
      (s.lemmasSize + n - cutSize)
  else []

theorem marksOnly_collect (env : Env) (n : Nat) :
    MarksOnly s (garbageCollect env n name (modifyMarks name client id s).2).2 := by
  rw [garbageCollect, modify_run]
  dsimp only
  split
  · exact ⟨rfl, rfl⟩
  · exact ⟨rfl, rfl⟩

theorem wp_push_known {env : Env} {body : List NetLemma} (h : Holds K s)
    (hg : Grown name path s)
    (hkept : ∀ e ∈ collected env s name client body.length, e.2.2 = true →
      e.1 = client ∧ e.2.1 ∈ (accepted path body).map (pointer path)) :
    wp (push env name client path.inits body)
      (fun _ s' => Holds (K.add name client ((accepted path body).map (pointer path))) s' ∧
        s'.sent = s.sent)
      (fun _ s' => Holds (K.add name client ((accepted path body).map (pointer path))) s' ∧
        s'.sent = s.sent) s := by
  let rest : Knowledge := fun n c l => K n c l ∧
    ¬ (n = name ∧ c = client ∧ l ∈ (accepted path body).map (pointer path))
  have hopened : Holds K (modifyMarks name client id s).2 :=
    h.modifyMarks (fun _ hm => hm) fun _ hl => hl
  have hrest :
      Holds rest (garbageCollect env body.length name (modifyMarks name client id s).2).2 := by
    refine hopened.garbageCollect (fun _ _ _ hl => hl.1) fun hsize e he htrue hl => ?_
    have htables : (modifyMarks name client id s).2.solvers name =
        Table.put client (s.marks name client) (s.solvers name) := Function.update_self _ _ _
    rw [htables] at he
    have hsize' : cutSize * 2 < s.lemmasSize + body.length := hsize
    have hmem : e ∈ collected env s name client body.length := by
      rw [collected, if_pos hsize']
      exact he
    exact hl.2 ⟨rfl, hkept e hmem htrue⟩
  have hadd (n : Bytes) (c : Nat) (l : Pointer)
      (hl : K.add name client ((accepted path body).map (pointer path)) n c l) :
      Knowledge.add rest name client ((accepted path body).map (pointer path)) n c l := by
    by_cases hnew : n = name ∧ c = client ∧ l ∈ (accepted path body).map (pointer path)
    · exact .inr hnew
    · exact .inl ⟨hl.resolve_right hnew, hnew⟩
  have hmarks : MarksOnly s (garbageCollect env body.length name
      (modifyMarks name client id s).2).2 := marksOnly_collect env body.length
  have hgrown : Grown name path (garbageCollect env body.length name
      (modifyMarks name client id s).2).2 := by
    unfold Grown
    rw [hmarks.1]
    exact hg
  refine wp_mono (wp_forEach_pushLemma hrest hgrown) ?_ ?_
  · rintro - s' ⟨hholds, hsent⟩
    exact ⟨hholds.mono hadd, hsent.trans hmarks.2⟩
  · rintro - s' ⟨hholds, hsent⟩
    exact ⟨hholds.mono hadd, hsent.trans hmarks.2⟩

/-- Nothing can be pushed to an instance that has just been cleared. -/
theorem wp_push_cleared {env : Env} {body : List NetLemma} (h : Holds K s)
    (hnone : s.lemmas name = none) (hsolvers : s.solvers name = []) :
    wp (push env name client path.inits body) (fun _ s' => Holds K s' ∧ s'.sent = s.sent)
      (fun _ s' => Holds K s' ∧ s'.sent = s.sent) s := by
  have hmarks : s.marks name client = [] := by rw [State.marks, hsolvers]; rfl
  have hopened : Holds K (modifyMarks name client id s).2 :=
    h.modifyMarks (fun _ hm => hm) fun _ hl => hl
  have htables : (modifyMarks name client id s).2.solvers name = [(client, [])] := by
    simp only [modifyMarks, modify_run, Function.update_self]
    rw [hsolvers]
    rfl
  have hcollected : Holds K (garbageCollect env body.length name
      (modifyMarks name client id s).2).2 := by
    refine hopened.garbageCollect (fun _ _ _ hl => hl) fun _ e he => ?_
    obtain ⟨m, hm, hem⟩ := mem_entries (List.mem_of_mem_take he)
    rw [htables, List.mem_singleton] at hm
    obtain ⟨-, rfl⟩ := Prod.mk.inj hm
    exact absurd hem List.not_mem_nil
  have hsame : MarksOnly s (garbageCollect env body.length name
      (modifyMarks name client id s).2).2 := marksOnly_collect env body.length
  change wp (forEach (pushLemma name client path.inits) body) _ _
    (garbageCollect env body.length name (modifyMarks name client id s).2).2
  generalize (garbageCollect env body.length name (modifyMarks name client id s).2).2 = s'
    at hcollected hsame ⊢
  cases body with
  | nil => exact ⟨hcollected, hsame.2⟩
  | cons l body =>
    rw [forEach, wp_bind, pushLemma]
    split
    · exact ⟨hcollected, hsame.2⟩
    · rw [wp_bind, index, wp_bind, wp_gets, hsame.1, hnone]
      exact ⟨hcollected, hsame.2⟩

end Push

section Pull

variable {K : Knowledge} {s : State} {name : Bytes} {client : Nat} {path : List Nat}

/-- Lemmas on the path that the client does not know. -/
def Unknown (K : Knowledge) (name : Bytes) (client : Nat) (path : List Nat)
    (ls : List (Pointer × Lemma)) : Prop :=
  ∀ x ∈ ls, ¬ K name client x.1 ∧ x.1 = pointer path x.2.toNetLemma

theorem wp_filter_unknown {ls : List (Pointer × Lemma)} {a : Address} (h : Holds K s)
    (ha : a <+: path) (hls : Unknown K name client path ls) :
    wp (filter name client ls a)
      (fun ls s' => Holds K s' ∧ MarksOnly s s' ∧ Unknown K name client path ls)
      (fun _ s' => Holds K s' ∧ MarksOnly s s') s := by
  rw [filter, wp_bind]
  refine wp_index (fun index t ht hi => ?_) ⟨h, rfl, rfl⟩
  refine wp_mono (wp_foldEach (I := fun ls rest s' => (∀ e ∈ rest, e ∈ index) ∧ Holds K s' ∧
    MarksOnly s s' ∧ Unknown K name client path ls) ?_ ⟨fun _ h => h, h, ⟨rfl, rfl⟩, hls⟩)
    (fun _ _ h => h.2) fun _ _ h => h
  rintro ls e rest s' ⟨hrest, hholds, hmarks, hunknown⟩
  have hrest' : ∀ e ∈ rest, e ∈ index := fun e he => hrest e (List.mem_cons_of_mem _ he)
  rw [wp_bind]
  refine wp_marked hholds fun b s'' hholds' hmarks' hfalse => ?_
  split
  · exact ⟨hrest', hholds', hmarks.trans hmarks', hunknown⟩
  · next hb =>
    refine ⟨hrest', hholds', hmarks.trans hmarks', fun x hx => ?_⟩
    rcases List.mem_append.mp hx with hx | hx
    · exact hunknown x hx
    · obtain rfl := List.mem_singleton.mp hx
      obtain ⟨hclause, hlevel⟩ := h.stored ht hi e (hrest e List.mem_cons_self)
      refine ⟨hfalse (Bool.not_eq_true _ ▸ hb), ?_⟩
      have hlevel' : e.2.level = a.length := hlevel
      rw [pointer, hlevel', Int.toNat_natCast, ← List.prefix_iff_eq_take.mp ha, hclause]

theorem wp_forEach_mark_known {E : Exn → State → Prop} {ls : List (Pointer × Lemma)}
    (h : Holds K s) :
    wp (forEach (fun l => mark name client l.1) ls)
      (fun _ s' => Holds (K.add name client (ls.map Prod.fst)) s' ∧ MarksOnly s s') E s := by
  refine wp_mono (wp_forEach (I := fun rest s' => ∃ done, ls = done ++ rest ∧
    Holds (K.add name client (done.map Prod.fst)) s' ∧ MarksOnly s s') ?_
    ⟨[], rfl, h.mono fun n c l hl => hl.resolve_right fun hl => List.not_mem_nil hl.2.2,
      rfl, rfl⟩) ?_ fun _ _ h => h
  · rintro l rest s' ⟨done, rfl, hholds, hmarks⟩
    refine ⟨done ++ [l], by simp, hholds.mark.mono ?_, hmarks⟩
    rintro n c x (hx | ⟨rfl, rfl, hx⟩)
    · exact .inl (.inl hx)
    · rw [List.map_append, List.mem_append] at hx
      exact hx.elim (fun hx => .inl (.inr ⟨rfl, rfl, hx⟩)) fun hx => .inr ⟨rfl, rfl, hx⟩
  · rintro - s' ⟨done, hdone, hholds, hmarks⟩
    rw [List.append_nil] at hdone
    rw [hdone]
    exact ⟨hholds, hmarks⟩

/-- A pull sends what the client does not know, and marks it. -/
theorem wp_pull_known {env : Env} {header : Header} {request : Nat} (h : Holds K s)
    (hname : get header "name" = name) :
    wp (pull env header client path.inits request)
      (fun _ s' => ∃ hdr ls, s'.sent = s.sent ++ [⟨client, hdr, ls⟩] ∧ ls.length ≤ request ∧
        (∀ l ∈ ls, ¬ K name client (pointer path l)) ∧
        Holds (K.add name client (ls.map (pointer path))) s')
      (fun _ s' => Holds K s' ∧ s'.sent = s.sent) s := by
  have hopened : Holds K (modifyMarks name client id s).2 :=
    h.modifyMarks (fun _ hm => hm) fun _ hl => hl
  rw [pull, hname, wp_bind]
  change wp (foldEach (filter name client) [] path.inits >>= _) _ _
    (modifyMarks name client id s).2
  rw [wp_bind]
  refine wp_mono (wp_foldEach (I := fun ls rest s' => (∀ a ∈ rest, a <+: path) ∧ Holds K s' ∧
    MarksOnly s s' ∧ Unknown K name client path ls) ?_
    ⟨fun a ha => (List.mem_inits a path).mp ha, hopened, ⟨rfl, rfl⟩, by simp [Unknown]⟩) ?_
    fun _ _ h => h
  · rintro ls a rest s' ⟨hrest, hholds, hmarks, hunknown⟩
    refine wp_mono (wp_filter_unknown hholds (hrest a List.mem_cons_self) hunknown) ?_ ?_
    · rintro ls' s'' ⟨hholds', hmarks', hunknown'⟩
      exact ⟨fun b hb => hrest b (List.mem_cons_of_mem _ hb), hholds', hmarks.trans hmarks',
        hunknown'⟩
    · rintro - s'' ⟨hholds', hmarks'⟩
      exact ⟨hholds', (hmarks.trans hmarks').2⟩
  · rintro ls s₁ ⟨-, hholds, hmarks, hunknown⟩
    have hunknown : Unknown K name client path ((select env request ls).take request) :=
      fun x hx => hunknown x (mem_select (List.mem_of_mem_take hx))
    have hlen : ((select env request ls).take request).length ≤ request := List.length_take_le _ _
    generalize (select env request ls).take request = ls at hunknown hlen ⊢
    have hpointers : (ls.map (·.2.toNetLemma)).map (pointer path) = ls.map Prod.fst := by
      rw [List.map_map]
      exact List.map_congr_left fun x hx => (hunknown x hx).2.symm
    rw [wp_bind, wp_gets, wp_bind, wp_when, hholds.once]
    refine ⟨fun _ => ?_, fun hagain => absurd Bool.false_ne_true hagain⟩
    refine wp_mono (wp_forEach_mark_known hholds) ?_ fun _ _ h => h
    rintro - s₂ ⟨hholds', hmarks'⟩
    have hsent : s₂.sent = s.sent := (hmarks.trans hmarks').2
    unfold answer
    split
    · refine ⟨_, _, congrArg (· ++ _) hsent, by simpa using hlen, fun l hl => ?_, ?_⟩
      · obtain ⟨x, hx, rfl⟩ := List.mem_map.mp hl
        exact (hunknown x hx).2 ▸ (hunknown x hx).1
      · rw [hpointers]
        exact { hholds' with stored := hholds'.stored.of_lemmas rfl }
    · exact ⟨hholds'.mono fun _ _ _ hl => .inl hl, hsent⟩

end Pull

/-- What has happened: a task was run and replied to, or a client has left. -/
inductive Entry
  | work (t : Task) (replies : List Reply)
  | close (client : Nat)

/-- The lemmas a push enters. -/
def Task.entered (t : Task) : List Pointer :=
  (accepted (ands t.path) t.body).map (pointer (ands t.path))

/-- What a client learns from a task: what it pushes, and what it is sent. -/
def learned (client : Nat) (t : Task) (replies : List Reply) : List Pointer :=
  (if t.client = client ∧ t.push = true then t.entered else []) ++
    (replies.filter (·.client = client)).flatMap fun r => r.body.map (pointer (ands t.path))

/-- What a client has pushed or was sent since the instance was last cleared, latest
entry first. -/
def known (client : Nat) (name : Bytes) : List Entry → List Pointer
  | [] => []
  | .close c :: es => if c = client then [] else known client name es
  | .work t replies :: es =>
    if t.name = name ∧ t.Readable then
      if t.count = 0 then [] else learned client t replies ++ known client name es
    else known client name es

/-- A push may erase marks that it sets again, and no others. -/
def Keeps (env : Env) (s : State) (t : Task) : Prop :=
  t.push = true → t.Readable → t.count ≠ 0 →
    ∀ e ∈ collected env s t.name t.client t.body.length, e.2.2 = true →
      e.1 = t.client ∧ e.2.1 ∈ t.entered

/-- A run of pushes, pulls and departures, each task allowed by `G`. -/
inductive History (G : Env → State → Task → Prop) : List Entry → State → Prop
  | start : History G [] {}
  | work {es : List Entry} {s : State} (env : Env) (t : Task) : History G es s → G env s t →
      History G (.work t ((lemmaWorker env t.client t.event s).2.sent.drop s.sent.length) :: es)
        (lemmaWorker env t.client t.event s).2
  | close {es : List Entry} {s : State} (client : Nat) :
      History G es s → History G (.close client :: es) (forget client s)

section Tasks

variable {es : List Entry} {s s' : State} {t : Task}

def knows (es : List Entry) : Knowledge := fun n c l => l ∈ known c n es

theorem knows_unreadable (es : List Entry) (h : ¬ t.Readable) :
    knows (.work t [] :: es) = knows es := by
  funext n c l
  rw [knows, known, if_neg fun h' => h h'.2]
  rfl

theorem knows_cleared (es : List Entry) (h : t.Readable) (hcount : t.count = 0) (replies : List Reply) :
    ∀ n c l, knows (.work t replies :: es) n c l → n ≠ t.name ∧ knows es n c l := by
  intro n c l hl
  rw [knows, known] at hl
  by_cases hn : t.name = n
  · rw [if_pos ⟨hn, h⟩, if_pos hcount] at hl
    exact absurd hl List.not_mem_nil
  · rw [if_neg fun h' => hn h'.1] at hl
    exact ⟨Ne.symm hn, hl⟩

theorem knows_work (replies : List Reply) (client : Nat) (ls : List Pointer)
    (hls : ∀ c, learned c t replies = if c = client then ls else []) :
    ∀ n c l, knows (.work t replies :: es) n c l → (knows es).add t.name client ls n c l := by
  intro n c l hl
  rw [knows, known] at hl
  split at hl
  · next hn =>
    split at hl
    · exact absurd hl List.not_mem_nil
    · rw [hls, List.mem_append] at hl
      rcases hl with hl | hl
      · split at hl
        · next hc => exact .inr ⟨hn.1.symm, hc, hl⟩
        · exact absurd hl List.not_mem_nil
      · exact .inl hl
  · exact .inl hl

/-- What a task may leave behind. -/
def Served (es : List Entry) (t : Task) (s s' : State) : Prop :=
  ∃ replies, s'.sent = s.sent ++ replies ∧ Holds (knows (.work t replies :: es)) s' ∧
    ∀ r ∈ replies, ∀ l ∈ r.body, pointer (ands t.path) l ∉ known r.client t.name es

theorem served_silent {K : Knowledge} (h : Holds K s') (hsent : s'.sent = s.sent)
    (hK : ∀ n c l, knows (.work t [] :: es) n c l → K n c l) : Served es t s s' :=
  ⟨[], by rw [hsent, List.append_nil], h.mono hK, fun r hr => absurd hr List.not_mem_nil⟩

theorem wp_serve_push {env : Env} {s₁ : State} (h : Holds (knows es) s₁)
    (hg : Grown t.name (ands t.path) s₁) (hsent : s₁.sent = s.sent) (hpush : t.push = true)
    (hkept : ∀ e ∈ collected env s₁ t.name t.client t.body.length, e.2.2 = true →
      e.1 = t.client ∧ e.2.1 ∈ t.entered) :
    wp (push env t.name t.client (ands t.path).inits t.body) (fun _ s' => Served es t s s')
      (fun _ s' => Served es t s s') s₁ := by
  have hlearned (c : Nat) : learned c t [] = if c = t.client then t.entered else [] := by
    simp [learned, hpush, eq_comm]
  have hserved (s' : State) (h' : Holds ((knows es).add t.name t.client t.entered) s')
      (hsent' : s'.sent = s₁.sent) : Served es t s s' :=
    served_silent h' (hsent'.trans hsent) (knows_work [] t.client t.entered hlearned)
  exact wp_mono (wp_push_known h hg hkept) (fun _ s' h => hserved s' h.1 h.2)
    fun _ s' h => hserved s' h.1 h.2

theorem wp_serve_pull {env : Env} {s₁ : State} (h : Holds (knows es) s₁)
    (hsent : s₁.sent = s.sent) (hpush : t.push = false) :
    wp (pull env t.event.header t.client (ands t.path).inits t.count)
      (fun _ s' => Served es t s s') (fun _ s' => Served es t s s') s₁ := by
  refine wp_mono (wp_pull_known h rfl) ?_ ?_
  · rintro - s' ⟨hdr, ls, hsent', -, hfresh, h'⟩
    have hlearned (c : Nat) : learned c t [⟨t.client, hdr, ls⟩] =
        if c = t.client then ls.map (pointer (ands t.path)) else [] := by
      by_cases hc : c = t.client
      · subst hc
        simp [learned, hpush]
      · simp [learned, hpush, hc, Ne.symm hc]
    refine ⟨_, by rw [hsent', hsent], h'.mono (knows_work _ t.client _ hlearned), ?_⟩
    intro r hr l hl
    obtain rfl := List.mem_singleton.mp hr
    exact hfresh l hl
  · rintro - s' ⟨h', hsent'⟩
    refine served_silent h' (hsent'.trans hsent) fun n c l hl => ?_
    have hempty (c : Nat) : learned c t [] = if c = t.client then [] else [] := by
      simp [learned, hpush]
    exact (knows_work [] t.client [] hempty n c l hl).resolve_right fun hl =>
      List.not_mem_nil hl.2.2

theorem Holds.clear {K : Knowledge} {name : Bytes} (h : Holds K s) :
    Holds (fun n c l => n ≠ name ∧ K n c l) (clear name s).2 where
  once := h.once
  distinct n := by
    simp only [LemmaServer.clear, modify_run]
    by_cases hn : n = name
    · subst hn
      rw [Function.update_self]
      exact ⟨List.nodup_nil, fun e he => absurd he List.not_mem_nil⟩
    · rw [Function.update_of_ne hn]
      exact h.distinct n
  marked n c l hl := by
    have hsame : (LemmaServer.clear name s).2.solvers n = s.solvers n :=
      Function.update_of_ne hl.1 _ _
    rw [State.Marked, State.marks, hsame]
    exact h.marked n c l hl.2
  stored := h.stored.update rfl fun _ ht => nomatch ht

/-- A task with the count `0` clears its instance and does nothing else. -/
theorem wp_serve_cleared {env : Env} {s₁ : State} (h : Holds (knows es) s₁)
    (hsent : s₁.sent = s.sent) (hread : t.Readable) (hcount : t.count = 0) :
    wp (if t.push = true then push env t.name t.client (ands t.path).inits t.event.body
      else if t.push = false then pull env t.event.header t.client (ands t.path).inits t.count
      else pure ()) (fun _ s' => Served es t s s') (fun _ s' => Served es t s s')
      (clear t.name s₁).2 := by
  let others : Knowledge := fun n c l => n ≠ t.name ∧ knows es n c l
  have hcleared : Holds others (clear t.name s₁).2 := h.clear
  have hknows (replies : List Reply) := knows_cleared es hread hcount replies
  cases hpush : t.push with
  | true =>
    refine wp_mono (wp_push_cleared hcleared (Function.update_self _ _ _)
      (Function.update_self _ _ _)) ?_ ?_
    · exact fun _ s' h => served_silent h.1 (h.2.trans hsent) (hknows [])
    · exact fun _ s' h => served_silent h.1 (h.2.trans hsent) (hknows [])
  | false =>
    refine wp_mono (wp_pull_known hcleared rfl) ?_ ?_
    · rintro - s' ⟨hdr, ls, hsent', hlen, -, h'⟩
      rw [hcount, Nat.le_zero, List.length_eq_zero_iff] at hlen
      subst hlen
      refine ⟨_, hsent'.trans (congrArg (· ++ _) hsent),
        h'.mono fun n c l hl => .inl (hknows _ n c l hl), ?_⟩
      intro r hr l hl
      obtain rfl := List.mem_singleton.mp hr
      exact absurd hl List.not_mem_nil
    · exact fun _ s' h => served_silent h.1 (h.2.trans hsent) (hknows [])

theorem wp_lemmaWorker_known (env : Env) (h : Holds (knows es) s) (hG : Keeps env s t) :
    wp (lemmaWorker env t.client t.event) (fun _ s' => Served es t s s')
      (fun _ s' => Served es t s s') s := by
  have hstop (s' : State) (hread : ¬ t.Readable) (h' : Holds (knows es) s')
      (hsent : s'.sent = s.sent) : Served es t s s' :=
    served_silent h' hsent fun n c l hl => knows_unreadable es hread ▸ hl
  have hopen (lemmas : Bytes → Option (Trie Index)) (hst : Stored AtLevel { s with lemmas }) :
      Holds (knows es) { s with lemmas } := ⟨h.once, h.distinct, h.marked, hst⟩
  simp only [lemmaWorker, get_name, get_node, get_lemmas, substr1, List.head?_cons,
    Option.some.injEq, sign_eq_plus, sign_eq_minus, List.drop_succ_cons, List.drop_zero,
    reduceCtorEq, if_false, inner_render, Except.bind, stoi_decimal, wp_bind]
  by_cases hcount : t.count < 2 ^ 31
  · rw [if_pos hcount, wp_ofExcept_ok, open_, wp_modify, wp_ofExcept_ok, tokens_render]
    refine wp_mono (wp_resolve h.stored.open_ open_root t.path) ?_ ?_
    · rintro ⟨path, n⟩ s₁ ⟨rfl, hlt, hst, hgrown, hframe⟩
      have hread : t.Readable := ⟨hcount, hlt⟩
      have hrequest : ((t.count : Int) % 2 ^ 32).toNat = t.count := by omega
      have h₁ : Holds (knows es) s₁ := by
        rw [hframe] at hst ⊢
        exact hopen _ hst
      have hsent : s₁.sent = s.sent := by rw [hframe]; rfl
      dsimp only
      rw [hrequest, wp_when]
      refine ⟨fun hzero => wp_serve_cleared h₁ hsent hread hzero, fun hcount => ?_⟩
      cases hpush : t.push with
      | true =>
        refine wp_serve_push h₁ hgrown hsent hpush fun e he => hG hpush hread hcount e ?_
        have hsame : collected env s₁ t.name t.client t.body.length =
            collected env s t.name t.client t.body.length := by rw [hframe]; rfl
        exact hsame ▸ he
      | false => exact wp_serve_pull h₁ hsent hpush
    · rintro - s₁ ⟨hbig, hst, hframe⟩
      have h₁ : Holds (knows es) s₁ := by
        rw [hframe] at hst ⊢
        exact hopen _ hst
      exact hstop s₁ (fun hr => hbig hr.2) h₁ (by rw [hframe]; rfl)
  · rw [if_neg hcount]
    exact hstop s (fun hr => hcount hr.1) h rfl

theorem Holds.forget {client : Nat} (h : Holds (knows es) s) :
    Holds (knows (.close client :: es)) (forget client s) where
  once := h.once
  distinct n := by
    refine ⟨Table.nodup_erase (h.distinct n).1, fun e he => ?_⟩
    exact (h.distinct n).2 e (List.mem_of_mem_filter he)
  marked n c l hl := by
    rw [knows, known] at hl
    split at hl
    · exact absurd hl List.not_mem_nil
    · next hc =>
      have hold := h.marked n c l hl
      rw [State.Marked, State.marks, LemmaServer.forget, Table.find_erase, if_neg hc]
      exact hold
  stored := h.stored.of_lemmas rfl

theorem history_holds (h : History Keeps es s) : Holds (knows es) s := by
  induction h with
  | start =>
    exact ⟨rfl, fun _ => ⟨List.nodup_nil, fun _ he => absurd he List.not_mem_nil⟩,
      fun _ _ _ hl => absurd hl List.not_mem_nil, fun _ _ _ _ ht => nomatch ht⟩
  | work env t _ hG ih =>
    obtain ⟨replies, hsent, h', -⟩ := wp_final (wp_lemmaWorker_known env ih hG)
    rw [hsent, List.drop_left]
    exact h'
  | close client _ ih => exact ih.forget

theorem History.of_append {G : Env → State → Task → Prop} {later : List Entry}
    (h : History G (later ++ es) s) : ∃ s', History G es s' := by
  generalize hes : later ++ es = all at h
  induction h generalizing later with
  | start =>
    obtain ⟨-, rfl⟩ := List.append_eq_nil_iff.mp hes
    exact ⟨_, .start⟩
  | work env t h hG ih =>
    cases later with
    | nil =>
      rw [List.nil_append] at hes
      subst hes
      exact ⟨_, .work env t h hG⟩
    | cons e later => exact ih (List.cons.inj hes).2
  | close client h ih =>
    cases later with
    | nil =>
      rw [List.nil_append] at hes
      subst hes
      exact ⟨_, .close client h⟩
    | cons e later => exact ih (List.cons.inj hes).2

/-- As long as no mark that counts is erased, no client is sent a lemma that it has
pushed or was sent before. -/
theorem lemmas_fresh (h : History Keeps es s) :
    ∀ later t replies before, es = later ++ .work t replies :: before →
      ∀ r ∈ replies, ∀ l ∈ r.body, pointer (ands t.path) l ∉ known r.client t.name before := by
  rintro later t replies before rfl
  obtain ⟨s', h'⟩ := h.of_append
  cases h' with
  | work env _ h hG =>
    obtain ⟨replies, hsent, -, hfresh⟩ := wp_final (wp_lemmaWorker_known env (history_holds h) hG)
    rw [hsent, List.drop_left]
    exact hfresh

end Tasks

/-- A lemma at the root. -/
def rootLemma : NetLemma := ⟨utf8 "x", 0⟩

def pushRoot (client n : Nat) : Task where
  client := client
  name := utf8 "a.smt2"
  path := []
  push := true
  count := n
  body := List.replicate n rootLemma

def pullRoot (client : Nat) : Task where
  client := client
  name := utf8 "a.smt2"
  path := []
  push := false
  count := 5

/-- The root holds the lemma and nothing else. -/
def Single (s : State) : Prop :=
  ∃ score, (s.lemmas (utf8 "a.smt2")).bind (Trie.lookup []) = some [(utf8 "x", ⟨rootLemma, score⟩)]

theorem Single.increase {s : State} (h : Single s) : Single (modifyTree (utf8 "a.smt2")
    (Trie.update (Trie.mapVal (Index.increase (utf8 "x"))) []) s).2 := by
  obtain ⟨score, hnode⟩ := h
  obtain ⟨t, ht, hlookup⟩ := Option.bind_eq_some_iff.mp hnode
  refine ⟨score + 1, ?_⟩
  simp only [modifyTree, modify_run, Function.update_self, ht, Option.map_some, Option.bind_some]
  rw [Trie.lookup_update_mapVal, if_pos rfl, hlookup]
  rfl

theorem wp_forEach_pushRoot {s : State} (n : Nat) (h : Single s)
    (hmarks : s.marks (utf8 "a.smt2") 2 = []) (hagain : s.sendAgain = false) :
    wp (forEach (pushLemma (utf8 "a.smt2") 1 [[]]) (List.replicate n rootLemma))
      (fun _ s' => Single s' ∧ s'.marks (utf8 "a.smt2") 2 = [] ∧ s'.sendAgain = false)
      (fun _ _ => False) s := by
  refine wp_mono (wp_forEach (I := fun rest s' => (∀ l ∈ rest, l = rootLemma) ∧ Single s' ∧
    s'.marks (utf8 "a.smt2") 2 = [] ∧ s'.sendAgain = false) ?_
    ⟨fun _ => List.eq_of_mem_replicate, h, hmarks, hagain⟩) (fun _ _ h => h.2) fun _ _ h => h
  rintro l rest s' ⟨hrest, hsingle, hmarks, hagain⟩
  obtain ⟨score, hnode⟩ := hsingle
  obtain rfl := hrest l List.mem_cons_self
  have hlevel : ¬ (rootLemma.level < 0 ∨ ([[]] : List Address).length ≤ rootLemma.level) :=
    by decide
  have hzero : ([[]] : List Address).getD rootLemma.level.toNat [] = [] := rfl
  rw [pushLemma, if_neg hlevel, wp_bind, index, wp_bind, wp_gets, hzero, hnode]
  have hother : ¬ ((utf8 "a.smt2") = (utf8 "a.smt2") ∧ (2 : Nat) = 1) := by decide
  refine ⟨fun l hl => hrest l (List.mem_cons_of_mem _ hl), Single.increase ⟨score, hnode⟩, ?_, hagain⟩
  exact (marks_modifyMarks _ (utf8 "a.smt2") 2).trans ((if_neg hother).trans hmarks)

theorem Single.open_ {s : State} (h : Single s) :
    Single (LemmaServer.open_ (utf8 "a.smt2") s).2 := by
  obtain ⟨score, hnode⟩ := h
  obtain ⟨t, ht, hlookup⟩ := Option.bind_eq_some_iff.mp hnode
  refine ⟨score, ?_⟩
  simp only [LemmaServer.open_, modify_run, Function.update_self, ht, Option.getD_some,
    Option.bind_some, hlookup]

/-- A task at the root goes straight to the push or the pull. -/
theorem wp_lemmaWorker_root {env : Env} {t : Task} {s : State} {Q : Unit → State → Prop}
    {E : Exn → State → Prop} (hpath : t.path = []) (hlt : t.count < 2 ^ 31) (hne : t.count ≠ 0)
    (h : wp (if t.push = true then push env t.name t.client [[]] t.body
      else pull env t.event.header t.client [[]] t.count) Q E (LemmaServer.open_ t.name s).2) :
    wp (lemmaWorker env t.client t.event) Q E s := by
  have hrequest : ((t.count : Int) % 2 ^ 32).toNat = t.count := by omega
  simp only [lemmaWorker, get_name, get_node, get_lemmas, substr1, List.head?_cons,
    Option.some.injEq, sign_eq_plus, sign_eq_minus, List.drop_succ_cons, List.drop_zero,
    reduceCtorEq, if_false, inner_render, Except.bind, stoi_decimal, wp_bind]
  rw [if_pos hlt, wp_ofExcept_ok, LemmaServer.open_, wp_modify, wp_ofExcept_ok, tokens_render, hpath]
  rw [List.map_nil, foldEach, wp_pure, hrequest, wp_when]
  refine ⟨fun hzero => absurd hzero hne, fun _ => ?_⟩
  cases hpush : t.push with
  | true =>
    rw [hpush] at h
    exact h
  | false =>
    rw [hpush] at h
    exact h

theorem collected_root {n : Nat} (h : n = 100001) :
    (eraseTables .sorting [(1, [(([], utf8 "x"), true)]), (2, [(([], utf8 "x"), true)])] n).1 =
      [(1, []), (2, [])] := by
  subst h
  decide +kernel

/-- The state in which a task of the client on `a.smt2` gets to work. -/
def entered (client : Nat) (s : State) : State :=
  (modifyMarks (utf8 "a.smt2") client id (LemmaServer.open_ (utf8 "a.smt2") s).2).2

/-- A large batch makes the server forget what client 2 was sent. -/
theorem wp_pushRoot {s : State} {n : Nat} (hn : n = 100000) (h : Single s)
    (hagain : s.sendAgain = false) (hsize : s.lemmasSize = 1)
    (hsolvers : s.solvers (utf8 "a.smt2") =
      [(1, [(([], utf8 "x"), true)]), (2, [(([], utf8 "x"), true)])]) :
    wp (lemmaWorker .sorting 1 (pushRoot 1 n).event)
      (fun _ s' => Single s' ∧ s'.marks (utf8 "a.smt2") 2 = [] ∧ s'.sendAgain = false)
      (fun _ _ => False) s := by
  have hlt : n < 2 ^ 31 := by omega
  have hne : n ≠ 0 := by omega
  refine wp_lemmaWorker_root (t := pushRoot 1 n) rfl hlt hne ?_
  change wp (push .sorting (utf8 "a.smt2") 1 [[]] (List.replicate n rootLemma)) _ _
    (LemmaServer.open_ (utf8 "a.smt2") s).2
  rw [push, wp_bind, List.length_replicate]
  have htables : (entered 1 s).solvers (utf8 "a.smt2") =
      [(1, [(([], utf8 "x"), true)]), (2, [(([], utf8 "x"), true)])] := by
    simp only [entered, modifyMarks, LemmaServer.open_, modify_run, Function.update_self, hsolvers]
    decide
  have hlemmas : (entered 1 s).lemmas =
      (LemmaServer.open_ (utf8 "a.smt2") s).2.lemmas := rfl
  have hsize' : (entered 1 s).lemmasSize = 1 := hsize
  have hagain' : (entered 1 s).sendAgain = false := hagain
  change wp (garbageCollect .sorting n (utf8 "a.smt2") >>= _) _ _
    (entered 1 s)
  generalize (entered 1 s) = s₁
    at htables hlemmas hsize' hagain' ⊢
  have hsingle : Single s₁ := by
    unfold Single
    rw [hlemmas]
    exact h.open_
  have hcut : cutSize * 2 < s₁.lemmasSize + n := by
    rw [hsize', cutSize]
    omega
  rw [wp_bind, garbageCollect, wp_modify]
  dsimp only
  rw [if_pos hcut]
  refine wp_forEach_pushRoot n hsingle ?_ hagain'
  have hwalk : Env.sorting.walk (s₁.solvers (utf8 "a.smt2")) = s₁.solvers (utf8 "a.smt2") := rfl
  rw [State.marks]
  dsimp only
  rw [Function.update_self, hwalk, htables, collected_root (by omega)]
  rfl

/-- Client 2 is sent the lemma once more. -/
theorem wp_pullRoot {s : State} (h : Single s) (hmarks : s.marks (utf8 "a.smt2") 2 = [])
    (hagain : s.sendAgain = false) :
    wp (lemmaWorker .sorting 2 (pullRoot 2).event)
      (fun _ s' => ∃ hdr, s'.sent = s.sent ++ [⟨2, hdr, [rootLemma]⟩]) (fun _ _ => False) s := by
  refine wp_lemmaWorker_root (t := pullRoot 2) rfl (by decide) (by decide) ?_
  change wp (pull .sorting (pullRoot 2).event.header 2 [[]] 5) _ _ (LemmaServer.open_ (utf8 "a.smt2") s).2
  have hname : get (pullRoot 2).event.header "name" = (utf8 "a.smt2") := rfl
  have hopened : (entered 2 s).marks (utf8 "a.smt2") 2 = [] := by
    rw [entered, marks_modifyMarks, if_pos ⟨rfl, rfl⟩]
    exact hmarks
  rw [pull, hname, wp_bind]
  change wp (foldEach (filter (utf8 "a.smt2") 2) [] [[]] >>= _) _ _
    (entered 2 s)
  have hsingle : Single (entered 2 s) := h.open_
  have hsent : (entered 2 s).sent = s.sent := rfl
  have hagain' : (entered 2 s).sendAgain = false := hagain
  generalize (entered 2 s) = s₁
    at hopened hsingle hsent hagain' ⊢
  obtain ⟨score, hnode⟩ := hsingle
  rw [wp_bind, foldEach, wp_bind, filter, wp_bind, index, wp_bind, wp_gets, hnode]
  rw [wp_pure, foldEach, wp_bind, wp_bind]
  refine wp_marked_run ?_
  rw [hopened]
  have hselect (l : Pointer × Lemma) : (select .sorting 5 [l]).take 5 = [l] := by
    rw [select, if_neg (by simp)]
    rfl
  change wp (do
    when (¬ (← gets State.sendAgain)) (forEach (fun l => mark (utf8 "a.smt2") 2 l.1)
      ((select .sorting 5 [(([], utf8 "x"), ⟨rootLemma, score⟩)]).take 5))
    answer .sorting (pullRoot 2).event.header 2
      (((select .sorting 5 [(([], utf8 "x"), ⟨rootLemma, score⟩)]).take 5).map (·.2.toNetLemma)) :
      M Unit) _ _ _
  rw [hselect, wp_bind, wp_gets, wp_bind]
  rw [wp_when]
  refine ⟨fun _ => ⟨_, congrArg (· ++ _) hsent⟩, fun hmark => ?_⟩
  have htrue : s₁.sendAgain = true := not_not.mp hmark
  exact Bool.noConfusion (hagain'.symm.trans htrue)

/-- A push and a pull. -/
def once : State :=
  (lemmaWorker .sorting 2 (pullRoot 2).event (lemmaWorker .sorting 1 (pushRoot 1 1).event {}).2).2

theorem keeps_pull {env : Env} {s : State} {t : Task} (h : t.push = false) : Keeps env s t :=
  fun hpush => absurd (hpush.symm.trans h) Bool.noConfusion

theorem keeps_small {env : Env} {s : State} {t : Task}
    (h : s.lemmasSize + t.body.length ≤ cutSize * 2) : Keeps env s t := by
  intro _ _ _ e he
  rw [collected, if_neg (Nat.not_lt.mpr h)] at he
  exact absurd he List.not_mem_nil

/-- A second pull has nothing to send. -/
theorem lemmas_fresh_again :
    ∃ es, History Keeps es (lemmaWorker .sorting 2 (pullRoot 2).event once).2 ∧
      (lemmaWorker .sorting 2 (pullRoot 2).event once).2.sent.map Reply.body = [[rootLemma], []] ∧
      ∀ later t replies before, es = later ++ .work t replies :: before →
        ∀ r ∈ replies, ∀ l ∈ r.body, pointer (ands t.path) l ∉ known r.client t.name before := by
  have h : History Keeps _ (lemmaWorker .sorting 2 (pullRoot 2).event once).2 :=
    .work .sorting (pullRoot 2) (.work .sorting (pullRoot 2) (.work .sorting (pushRoot 1 1) .start
      (keeps_small (by decide))) (keeps_pull rfl)) (keeps_pull rfl)
  exact ⟨_, h, by decide +kernel, lemmas_fresh h⟩

/-- Between two pulls of client 2, client 1 pushes its lemma a hundred thousand times. -/
theorem lemmas_again :
    ∃ s replies before, History (fun _ _ _ => True) (.work (pullRoot 2) replies :: before) s ∧
      ∃ r ∈ replies, ∃ l ∈ r.body,
        pointer (ands (pullRoot 2).path) l ∈ known r.client (pullRoot 2).name before := by
  obtain ⟨n, hn⟩ : ∃ n, n = 100000 := ⟨_, rfl⟩
  have honce : Single once := ⟨0, rfl⟩
  have hbulk : Single (lemmaWorker .sorting 1 (pushRoot 1 n).event once).2 ∧
      (lemmaWorker .sorting 1 (pushRoot 1 n).event once).2.marks (utf8 "a.smt2") 2 = [] ∧
      (lemmaWorker .sorting 1 (pushRoot 1 n).event once).2.sendAgain = false :=
    wp_final (P := fun s' => Single s' ∧ s'.marks (utf8 "a.smt2") 2 = [] ∧ s'.sendAgain = false)
      (wp_mono (wp_pushRoot hn honce (by decide +kernel) (by decide +kernel) (by decide +kernel))
        (fun _ _ h => h) fun _ _ h => h.elim)
  obtain ⟨hdr, hsent⟩ := wp_final
    (P := fun s' => ∃ hdr, s'.sent =
      (lemmaWorker .sorting 1 (pushRoot 1 n).event once).2.sent ++ [⟨2, hdr, [rootLemma]⟩])
    (wp_mono (wp_pullRoot hbulk.1 hbulk.2.1 hbulk.2.2) (fun _ _ h => h) fun _ _ h => h.elim)
  have hrun := History.work (G := fun _ _ _ => True) .sorting (pullRoot 2)
    (.work .sorting (pushRoot 1 n) (.work .sorting (pullRoot 2)
      (.work .sorting (pushRoot 1 1) .start trivial) trivial) trivial) trivial
  refine ⟨_, _, _, hrun, ⟨2, hdr, [rootLemma]⟩, ?_, rootLemma, List.mem_singleton_self _, ?_⟩
  · change _ ∈ (lemmaWorker .sorting 2 (pullRoot 2).event
      (lemmaWorker .sorting 1 (pushRoot 1 n).event once).2).2.sent.drop
        (lemmaWorker .sorting 1 (pushRoot 1 n).event once).2.sent.length
    rw [hsent, List.drop_left]
    exact List.mem_singleton_self _
  · have hread : (pushRoot 1 n).name = (pullRoot 2).name ∧ (pushRoot 1 n).Readable :=
      ⟨rfl, by change n < 2 ^ 31; omega, fun i hi => absurd hi List.not_mem_nil⟩
    have hcount : (pushRoot 1 n).count ≠ 0 := by change n ≠ 0; omega
    rw [known, if_pos hread, if_neg hcount]
    refine List.mem_append_right _ ?_
    change pointer [] rootLemma ∈ known 2 (utf8 "a.smt2") _
    decide +kernel

end Smts.LemmaServer
