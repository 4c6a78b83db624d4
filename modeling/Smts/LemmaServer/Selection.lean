import Smts.Lib.Preserves
import Smts.LemmaServer.Ownership

namespace Smts.LemmaServer

open Smts.Lib
open Smts.Lib.Prog

/-- A node has one lemma for each clause, at the level of its depth. -/
def Sound (s : State) : Prop :=
  ∀ name a, ((s.indexAt name a).map Prod.fst).Nodup ∧
    ∀ e ∈ s.indexAt name a, e.2.clause = e.1 ∧ e.2.level = a.length

/-- The states that any messages and departures lead to. -/
inductive Reached : State → Prop
  | start (sendAgain : Bool) : Reached { sendAgain }
  | work {s : State} (env : Env) (client : Nat) (event : Event) :
      Reached s → Reached (lemmaWorker env client event s).2
  | close {s : State} (client : Nat) : Reached s → Reached (forget client s)

section Sound

variable {s t : State} {name : Bytes} {client : Nat} {p : List Nat}

theorem Sound.of_indexAt (h : Sound s) (heq : t.indexAt = s.indexAt) : Sound t := by
  rw [Sound, heq]
  exact h

theorem sound_modifyMarks (f : Table Pointer Bool → Table Pointer Bool) :
    Preserves Sound (modifyMarks name client f) :=
  .modify fun _ h => h

theorem sound_garbageCollect (env : Env) (n : Nat) :
    Preserves Sound (garbageCollect env n name) := by
  refine .modify fun s h => ?_
  dsimp only
  split
  · exact h
  · exact h

theorem sound_clear : Preserves Sound (clear name) := by
  refine .modify fun s h n a => ?_
  simp only [State.indexAt]
  by_cases hn : n = name
  · subst hn
    rw [Function.update_self]
    exact ⟨List.nodup_nil, by simp⟩
  · rw [Function.update_of_ne hn]
    exact h n a

theorem sound_index (a : Address) : Preserves Sound (index name a) := by
  refine .bind (.gets _) fun o => ?_
  cases o with
  | some _ => exact .pure _
  | none => exact .raise _

theorem sound_mapVal {a : Address} {f : Index → Index} (h : Sound s)
    (ha : ((s.lemmas name).bind (Trie.lookup a)).isSome)
    (hkeys : ((f (s.indexAt name a)).map Prod.fst).Nodup)
    (hlevel : ∀ e ∈ f (s.indexAt name a), e.2.clause = e.1 ∧ e.2.level = a.length) :
    Sound (modifyTree name (Trie.update (Trie.mapVal f) a) s).2 := by
  intro n b
  rw [indexAt_mapVal ha]
  split
  · next heq =>
    obtain ⟨rfl, rfl⟩ := heq
    exact ⟨hkeys, hlevel⟩
  · exact h n b

theorem sound_pushLemma (l : NetLemma) : Preserves Sound (pushLemma name client p.inits l) := by
  intro s h
  refine wp_final (m := pushLemma name client p.inits l) ?_
  unfold pushLemma
  split
  · exact h
  · next hlevel =>
    rw [List.length_inits] at hlevel
    have hrange : InRange p l := by unfold InRange; omega
    rw [getD_inits hrange, wp_bind, LemmaServer.index, wp_bind, wp_gets]
    split
    · next index hindex =>
      have hnode : ((s.lemmas name).bind (Trie.lookup (p.take l.level.toNat))).isSome := by
        rw [hindex]
        rfl
      have heq : index = s.indexAt name (p.take l.level.toNat) := by
        rw [State.indexAt, hindex]
        rfl
      obtain ⟨hkeys, hlevels⟩ := h name (p.take l.level.toNat)
      rw [wp_pure, heq]
      split
      · have hsound := sound_mapVal h hnode (f := Index.increase l.clause)
          (by rwa [keys_increase]) fun e he => by
            obtain ⟨e', he', rfl⟩ := List.mem_map.mp he
            have := hlevels e' he'
            split
            · exact this
            · exact this
        exact sound_modifyMarks _ _ hsound
      · next hnone =>
        have hfresh : l.clause ∉ (s.indexAt name (p.take l.level.toNat)).map Prod.fst := by
          rw [List.lookup_eq_none_iff] at hnone
          intro hmem
          obtain ⟨e, he, heq⟩ := List.mem_map.mp hmem
          exact absurd heq.symm (by simpa using hnone e he)
        have hperm := List.perm_orderedInsert (fun a b : Bytes × Lemma => a.1 ≤ b.1)
          (l.clause, { l with }) (s.indexAt name (p.take l.level.toNat))
        have hsound := sound_mapVal h hnode (f := Index.addLemma l)
          ((hperm.map Prod.fst).nodup_iff.mpr (List.nodup_cons.mpr ⟨hfresh, hkeys⟩)) fun e he => by
            rcases List.mem_cons.mp (hperm.mem_iff.mp he) with rfl | he
            · refine ⟨rfl, ?_⟩
              rw [List.length_take_of_le (by unfold InRange at hrange; omega)]
              unfold InRange at hrange
              show l.level = _
              omega
            · exact hlevels e he
        exact sound_modifyMarks _ _ hsound
    · exact h

theorem sound_push (env : Env) (body : List NetLemma) :
    Preserves Sound (push env name client p.inits body) :=
  .bind (sound_modifyMarks _) fun _ => .bind (sound_garbageCollect env _) fun _ =>
    .forEach sound_pushLemma body

theorem sound_filter (ls : List (Pointer × Lemma)) (a : Address) :
    Preserves Sound (filter name client ls a) :=
  .bind (sound_index a) fun _ => .foldEach (fun _ _ =>
    .bind (.bind (sound_modifyMarks _) fun _ => .gets _) fun _ => .ite (.pure _) (.pure _)) _ _

theorem sound_pull (env : Env) (header : Header) (path : List Address) (request : Nat) :
    Preserves Sound (pull env header client path request) := by
  refine .bind (sound_modifyMarks _) fun _ => .bind (.foldEach sound_filter _ _) fun ls =>
    .bind (.gets _) fun again => .bind (.when (.forEach (fun _ => sound_modifyMarks _) _)) fun _ => ?_
  unfold answer
  exact .ite (.modify fun _ h => h) (.raise _)

theorem sound_serve (env : Env) (event : Event) (request : Nat) :
    Preserves Sound (serve env client event p.inits request) := by
  exact .bind (.when sound_clear) fun _ =>
    .ite (sound_push env _) (.ite (sound_pull env _ _ _) (.pure ()))

theorem sound_lemmaWorker (env : Env) (event : Event) :
    Preserves Sound (lemmaWorker env client event) := by
  intro s h
  rw [lemmaWorker_eq]
  refine wp_final (m := resolve event >>= _) ?_
  rw [wp_bind]
  refine wp_mono (wp_resolve_event event) ?_ fun e t ⟨_, _, hopened⟩ => h.of_indexAt hopened.indexAt
  rintro ⟨path, request⟩ t ⟨n, q, -, -, heq, -, hopened⟩
  obtain ⟨rfl, rfl⟩ := Prod.mk.inj heq
  have hserve : Sound (serve env client event q.inits request t).2 :=
    sound_serve env event request t (h.of_indexAt hopened.indexAt)
  exact wp_of_run (fun _ u hu => by rwa [hu] at hserve) fun _ u hu => by rwa [hu] at hserve

theorem Reached.sound (h : Reached s) : Sound s := by
  induction h with
  | start sendAgain => exact fun _ _ => ⟨List.nodup_nil, by simp [State.indexAt]⟩
  | work env client event _ ih => exact sound_lemmaWorker env event _ ih
  | close client _ ih => exact ih

end Sound

/-- What a request for `k` lemmas may select: of the `2 * k` first candidates by score, the
`k` first by level, in ascending order. -/
structure Selected (k : Nat) (all sent : List (Pointer × Lemma)) : Prop where
  length : sent.length = min k all.length
  part : ∃ rest, (sent ++ rest).Perm all
  cut : k < all.length → ∃ candidates others, (candidates ++ others).Perm all ∧
    candidates.length = min (2 * k) all.length ∧
    (∀ x ∈ candidates, ∀ y ∈ others, ¬ y.2.score < x.2.score) ∧
    ∃ rest, (sent ++ rest).Perm candidates ∧ ∀ x ∈ sent, ∀ y ∈ rest, x.2.level ≤ y.2.level
  sorted : k < all.length → sent.Pairwise fun x y => x.2.level ≤ y.2.level

theorem select_selected {k : Nat} (env : Env) (hk : k < 2 ^ 31) (ls : List (Pointer × Lemma)) :
    Selected k ls ((select env k ls).take k) := by
  unfold select
  split
  · next hlt =>
    have hcut : 2 * k % 2 ^ 32 = 2 * k := Nat.mod_eq_of_lt (by omega)
    dsimp only
    rw [hcut]
    generalize hit : min (2 * k) ls.length = it
    have hnth := env.nthElement_perm (fun x : Pointer × Lemma => x.2.score) it ls
    have hscore := env.nthElement_le (fun x : Pointer × Lemma => x.2.score) it ls
    generalize env.nthElement (fun x : Pointer × Lemma => x.2.score) it ls = nth at hnth hscore ⊢
    have hperm := env.partialSort_perm (fun x : Pointer × Lemma => x.2.level) k (nth.take it)
    have hsorted := env.partialSort_sorted (fun x : Pointer × Lemma => x.2.level) k (nth.take it)
    have hlevel := env.partialSort_le (fun x : Pointer × Lemma => x.2.level) k (nth.take it)
    generalize env.partialSort (fun x : Pointer × Lemma => x.2.level) k (nth.take it) = sorted
      at hperm hsorted hlevel ⊢
    have hlen : (nth.take it).length = it := by
      rw [List.length_take_of_le]
      rw [hnth.length_eq]
      omega
    have hle : k ≤ sorted.length := by rw [hperm.length_eq, hlen]; omega
    have hall : (nth.take it ++ nth.drop it).Perm ls := by rwa [List.take_append_drop]
    have hcandidates : (sorted.take k ++ sorted.drop k).Perm (nth.take it) := by
      rwa [List.take_append_drop]
    rw [List.take_append_of_le_length hle]
    refine ⟨?_, ⟨sorted.drop k ++ nth.drop it, ?_⟩, fun _ => ⟨nth.take it, nth.drop it, hall,
      by rw [hlen, hit], fun x hx y hy => Int.not_lt.mpr (hscore x hx y hy), sorted.drop k,
      hcandidates, hlevel⟩, fun _ => hsorted⟩
    · rw [List.length_take_of_le hle]
      omega
    · rw [← List.append_assoc]
      exact (hcandidates.append_right _).trans hall
  · next hge =>
    have hle := Nat.le_of_not_lt hge
    rw [List.take_of_length_le hle]
    exact ⟨(Nat.min_eq_right hle).symm, ⟨[], by rw [List.append_nil]⟩, fun h => absurd h hge,
      fun h => absurd h hge⟩

/-- The lemmas of a node that are not marked for the client. -/
def State.fresh (s : State) (name : Bytes) (client : Nat) (a : Address) :
    List (Pointer × Lemma) :=
  ((s.indexAt name a).filter fun e => !Table.find false (a, e.1) (s.marks name client)).map
    fun e => ((a, e.1), e.2)

/-- The lemmas on the way to a node that are not marked for the client. -/
def State.unmarked (s : State) (name : Bytes) (client : Nat) (p : List Nat) :
    List (Pointer × Lemma) :=
  p.inits.flatMap (s.fresh name client)

/-- Entries may be new in the clients' tables, but no marks. -/
structure Looked (s t : State) : Prop where
  marksOnly : MarksOnly s t
  sendAgain : t.sendAgain = s.sendAgain
  find : ∀ n c l, Table.find false l (t.marks n c) = Table.find false l (s.marks n c)

namespace Looked

variable {s t u : State} {name : Bytes} {client : Nat}

theorem refl (s : State) : Looked s s := ⟨⟨rfl, rfl⟩, rfl, fun _ _ _ => rfl⟩

theorem trans (h : Looked s t) (h' : Looked t u) : Looked s u :=
  ⟨h.marksOnly.trans h'.marksOnly, h'.sendAgain.trans h.sendAgain,
    fun n c l => (h'.find n c l).trans (h.find n c l)⟩

theorem modifyMarks {f : Table Pointer Bool → Table Pointer Bool}
    (hf : ∀ m l, Table.find false l (f m) = Table.find false l m) :
    Looked s (modifyMarks name client f s).2 := by
  refine ⟨⟨rfl, rfl⟩, rfl, fun n c l => ?_⟩
  rw [marks_modifyMarks]
  split
  · next heq =>
    obtain ⟨rfl, rfl⟩ := heq
    exact hf _ l
  · rfl

theorem indexAt (h : Looked s t) : t.indexAt = s.indexAt := by
  funext n a
  rw [State.indexAt, h.marksOnly.1]
  rfl

theorem fresh (h : Looked s t) (name : Bytes) (client : Nat) :
    t.fresh name client = s.fresh name client := by
  funext a
  simp only [State.fresh, h.indexAt, h.find]

end Looked

section Pull

variable {s t : State} {name : Bytes} {client : Nat} {p : List Nat}

theorem wp_filter_fresh {E : Exn → State → Prop} {ls : List (Pointer × Lemma)} {a : Address}
    (hg : Grown name p s) (ha : a ∈ p.inits) :
    wp (filter name client ls a) (fun ls' t => ls' = ls ++ s.fresh name client a ∧ Looked s t)
      E s := by
  rw [filter, wp_bind]
  refine wp_index_grown hg ha ?_
  refine wp_mono (wp_foldEach (I := fun ls' rest t => ∃ done, s.indexAt name a = done ++ rest ∧
    ls' = ls ++ (done.filter fun e => !Table.find false (a, e.1) (s.marks name client)).map
      (fun e => ((a, e.1), e.2)) ∧ Looked s t) ?_ ⟨[], rfl, by simp, .refl s⟩) ?_ fun _ _ h => h
  · rintro ls' e rest t ⟨done, hindex, rfl, hlooked⟩
    have hlooked' : Looked s (marked name client (a, e.1) t).2 := by
      refine hlooked.trans (.modifyMarks
        (f := fun m => Table.put (a, e.1) (Table.find false (a, e.1) m) m) fun m l => ?_)
      rw [Table.find_put]
      split
      · next h => rw [h]
      · rfl
    have hmark : Table.find false (a, e.1) ((marked name client (a, e.1) t).2.marks name client) =
        Table.find false (a, e.1) (s.marks name client) := hlooked'.find name client (a, e.1)
    rw [wp_bind]
    change wp (if Table.find false (a, e.1) ((marked name client (a, e.1) t).2.marks name client)
      then pure _ else pure _) _ _ (marked name client (a, e.1) t).2
    rw [hmark]
    split
    · next h =>
      refine ⟨done ++ [e], by simp [hindex], ?_, hlooked'⟩
      simp [h]
    · next h =>
      refine ⟨done ++ [e], by simp [hindex], ?_, hlooked'⟩
      simp [h]
  · rintro ls' t ⟨done, hindex, rfl, hlooked⟩
    rw [List.append_nil] at hindex
    rw [State.fresh, hindex]
    exact ⟨rfl, hlooked⟩

theorem wp_collect {E : Exn → State → Prop} (hg : Grown name p s) :
    wp (foldEach (filter name client) [] p.inits)
      (fun ls t => ls = s.unmarked name client p ∧ Looked s t) E s := by
  refine wp_mono (wp_foldEach (I := fun ls rest t => ∃ done, p.inits = done ++ rest ∧
    ls = done.flatMap (s.fresh name client) ∧ Looked s t) ?_ ⟨[], rfl, rfl, .refl s⟩) ?_
    fun _ _ h => h
  · rintro ls a rest t ⟨done, hinits, rfl, hlooked⟩
    have ha : a ∈ p.inits := by simp [hinits]
    refine wp_mono (wp_filter_fresh (hg.of_lemmas hlooked.marksOnly.1) ha) ?_ fun _ _ h => h
    rintro ls' u ⟨rfl, hlooked'⟩
    refine ⟨done ++ [a], by simp [hinits], ?_, hlooked.trans hlooked'⟩
    simp [hlooked.fresh]
  · rintro ls t ⟨done, hinits, rfl, hlooked⟩
    rw [List.append_nil] at hinits
    rw [State.unmarked, hinits]
    exact ⟨rfl, hlooked⟩

theorem wp_forEach_mark_sent {E : Exn → State → Prop} (ls : List (Pointer × Lemma)) :
    wp (forEach (fun x => mark name client x.1) ls)
      (fun _ t => MarksOnly s t ∧ ∀ n c l, t.Marked n c l ↔
        s.Marked n c l ∨ n = name ∧ c = client ∧ l ∈ ls.map Prod.fst) E s := by
  refine wp_mono (wp_forEach (I := fun rest t => ∃ done, ls = done ++ rest ∧ MarksOnly s t ∧
    ∀ n c l, t.Marked n c l ↔ s.Marked n c l ∨ n = name ∧ c = client ∧ l ∈ done.map Prod.fst) ?_
    ⟨[], rfl, ⟨rfl, rfl⟩, by simp⟩) ?_ fun _ _ h => h
  · rintro x rest t ⟨done, rfl, hmarks, hmarked⟩
    refine ⟨done ++ [x], by simp, hmarks.trans ⟨rfl, rfl⟩, fun n c l => ?_⟩
    have hput : (modifyMarks name client (Table.put x.1 true) t).2.Marked n c l ↔
        t.Marked n c l ∨ n = name ∧ c = client ∧ l = x.1 := by
      rw [State.Marked, marks_modifyMarks]
      split
      · next heq =>
        obtain ⟨rfl, rfl⟩ := heq
        rw [Table.find_put]
        by_cases hl : x.1 = l
        · simp [hl]
        · simp [hl, Ne.symm hl, State.Marked]
      · next hne => exact ⟨.inl, fun h => h.resolve_right fun h => hne ⟨h.1, h.2.1⟩⟩
    refine hput.trans ?_
    rw [hmarked, or_assoc, ← and_or_left, ← and_or_left, List.map_append, List.mem_append]
    simp
  · rintro - t ⟨done, hdone, hmarks, hmarked⟩
    rw [List.append_nil] at hdone
    exact ⟨hmarks, hdone ▸ hmarked⟩

/-- After a pull the sent lemmas are marked, if they are not to be sent again, and nothing else
has changed but the replies. -/
structure Pulled (s t : State) (header : Header) (name : Bytes) (client : Nat)
    (sent : List (Pointer × Lemma)) : Prop where
  reply : t.sent = s.sent ++ [⟨client, header.set "lemmas" (decimal sent.length),
    sent.map (·.2.toNetLemma)⟩]
  marked : ∀ n c l, t.Marked n c l ↔
    s.Marked n c l ∨ s.sendAgain = false ∧ n = name ∧ c = client ∧ l ∈ sent.map Prod.fst
  indexAt : t.indexAt = s.indexAt

theorem wp_pull_selected {env : Env} {header : Header} {k : Nat} (hg : Grown name p s)
    (hname : get header "name" = name) (hk : k < 2 ^ 31) (hw : env.writable client = true) :
    wp (pull env header client p.inits k) (fun _ t => ∃ sent,
      Selected k (s.unmarked name client p) sent ∧ Pulled s t header name client sent)
      (fun _ _ => False) s := by
  have hopened : Looked s (modifyMarks name client id s).2 := .modifyMarks fun _ _ => rfl
  have hunmarked : (modifyMarks name client id s).2.unmarked name client p =
      s.unmarked name client p := by
    rw [State.unmarked, hopened.fresh, State.unmarked]
  rw [pull, hname, wp_bind]
  change wp (foldEach (filter name client) [] p.inits >>= _) _ _ (modifyMarks name client id s).2
  rw [wp_bind]
  refine wp_mono (wp_collect (hg.of_lemmas hopened.marksOnly.1)) ?_ fun _ _ h => h
  rintro ls t ⟨rfl, hlooked⟩
  rw [hunmarked]
  have hlooked := hopened.trans hlooked
  have hselected := select_selected env hk (s.unmarked name client p)
  generalize (select env k (s.unmarked name client p)).take k = sent at hselected ⊢
  have hmarked (n : Bytes) (c : Nat) (l : Pointer) : t.Marked n c l ↔ s.Marked n c l := by
    rw [State.Marked, hlooked.find, State.Marked]
  have hanswer (u : State) (hmarks : MarksOnly t u) (h : ∀ n c l, u.Marked n c l ↔ s.Marked n c l ∨
      s.sendAgain = false ∧ n = name ∧ c = client ∧ l ∈ sent.map Prod.fst) :
      wp (answer env header client (sent.map (·.2.toNetLemma))) (fun _ t => ∃ sent,
        Selected k (s.unmarked name client p) sent ∧ Pulled s t header name client sent)
        (fun _ _ => False) u := by
    have hall := hlooked.marksOnly.trans hmarks
    rw [answer, if_pos hw, wp_modify]
    refine ⟨sent, hselected, ?_, h, ?_⟩
    · show u.sent ++ _ = _
      rw [hall.2, List.length_map]
    · funext n a
      show ((u.lemmas n).bind _).getD [] = _
      rw [hall.1]
      rfl
  rw [wp_bind, wp_gets, wp_bind, wp_when, hlooked.sendAgain]
  refine ⟨fun honce => ?_, fun hagain => hanswer t ⟨rfl, rfl⟩ fun n c l => ?_⟩
  · refine wp_mono (wp_forEach_mark_sent sent) ?_ fun _ _ h => h
    rintro - u ⟨hmarks, h⟩
    refine hanswer u hmarks fun n c l => ?_
    rw [h, hmarked]
    simp [Bool.eq_false_iff.mpr honce]
  · rw [hmarked]
    simp [not_not.mp hagain]

end Pull

section Distinct

variable {s t : State} {name : Bytes} {client : Nat} {p : List Nat} {x : Pointer × Lemma}

theorem mem_fresh {a : Address} (hs : Sound s) (hx : x ∈ s.fresh name client a) :
    x.1.1 = a ∧ x.2.clause = x.1.2 ∧ x.2.level = a.length := by
  obtain ⟨e, he, rfl⟩ := List.mem_map.mp hx
  exact ⟨rfl, (hs name a).2 e (List.mem_filter.mp he).1⟩

theorem level_of_mem_unmarked (hs : Sound s) (hx : x ∈ s.unmarked name client p) :
    x.2.level = x.1.1.length := by
  obtain ⟨a, -, ha⟩ := List.mem_flatMap.mp hx
  obtain ⟨rfl, -, hlevel⟩ := mem_fresh hs ha
  exact hlevel

theorem nodup_fresh (hs : Sound s) (a : Address) :
    ((s.fresh name client a).map (·.2.toNetLemma)).Nodup := by
  have hclauses : ((s.fresh name client a).map (·.2.toNetLemma)).map NetLemma.clause =
      ((s.indexAt name a).filter fun e =>
        !Table.find false (a, e.1) (s.marks name client)).map Prod.fst := by
    rw [State.fresh, List.map_map, List.map_map]
    exact List.map_congr_left fun e he => ((hs name a).2 e (List.mem_filter.mp he).1).1
  refine List.Nodup.of_map NetLemma.clause ?_
  rw [hclauses]
  exact (hs name a).1.sublist (List.filter_sublist.map _)

theorem inits_pairwise (p : List Nat) : p.inits.Pairwise fun a b => a.length ≠ b.length := by
  induction p using List.reverseRecOn with
  | nil => exact List.pairwise_singleton _ _
  | append_singleton p i ih =>
    rw [inits_concat, List.pairwise_append]
    refine ⟨ih, List.pairwise_singleton _ _, fun a ha b hb => ?_⟩
    obtain rfl := List.mem_singleton.mp hb
    have hle := ((List.mem_inits a p).mp ha).length_le
    rw [List.length_append, List.length_singleton]
    omega

/-- Different lemmas on the way differ in their clause or in their level. -/
theorem nodup_unmarked (hs : Sound s) :
    ((s.unmarked name client p).map (·.2.toNetLemma)).Nodup := by
  rw [State.unmarked, List.map_flatMap, List.nodup_flatMap]
  refine ⟨fun a _ => nodup_fresh hs a, (inits_pairwise p).imp fun hne => ?_⟩
  refine List.disjoint_left.mpr fun l ha hb => ?_
  obtain ⟨x, hx, rfl⟩ := List.mem_map.mp ha
  obtain ⟨y, hy, hxy⟩ := List.mem_map.mp hb
  have hlevel : y.2.level = x.2.level := congrArg NetLemma.level hxy
  rw [(mem_fresh hs hx).2.2, (mem_fresh hs hy).2.2] at hlevel
  omega

end Distinct

/-- What a pull returns. -/
theorem pull_returns {s : State} (h : Reached s) (env : Env) (t : Task) (hpull : t.push = false)
    (hcount : 1 ≤ t.count) (hread : t.Readable) (hw : env.writable t.client = true) :
    ∃ sent s', lemmaWorker env t.client t.event s = (.ok (), s') ∧
      Selected t.count (s.unmarked t.name t.client (ands t.path)) sent ∧
      (sent.map (·.2.toNetLemma)).Nodup ∧ (∀ x ∈ sent, x.2.level = x.1.1.length) ∧
      Pulled s s' t.event.header t.name t.client sent := by
  have hs := h.sound
  have hwp : wp (lemmaWorker env t.client t.event) (fun _ s' => ∃ sent,
      Selected t.count (s.unmarked t.name t.client (ands t.path)) sent ∧
      Pulled s s' t.event.header t.name t.client sent) (fun _ _ => False) s := by
    rw [lemmaWorker_eq, wp_bind]
    refine wp_mono (wp_resolve_event t.event) ?_ ?_
    · rintro ⟨path, request⟩ u ⟨n, p, hn, hp, heq, hgrown, hopened⟩
      obtain ⟨rfl, rfl⟩ := Prod.mk.inj heq
      rw [count_event, if_pos hread.1] at hn
      rw [path_event, if_pos hread.2] at hp
      obtain rfl := Option.some.inj hn
      obtain rfl := Option.some.inj hp
      have hmarks : u.marks = s.marks := by rw [hopened.frame]; rfl
      have hfresh : u.fresh t.name t.client = s.fresh t.name t.client := by
        funext a
        simp only [State.fresh, hopened.indexAt, hmarks]
      have hunmarked : u.unmarked t.name t.client (ands t.path) =
          s.unmarked t.name t.client (ands t.path) := by
        rw [State.unmarked, hfresh, State.unmarked]
      rw [serve, sign_event, (sign_eq_minus t).mpr hpull, wp_bind, when, if_neg (by omega), wp_pure]
      have hname : Grown t.name (ands t.path) u := hgrown
      refine wp_mono (wp_pull_selected hname rfl hread.1 hw) ?_ fun _ _ h => h
      rintro - s' ⟨sent, hselected, hpulled⟩
      rw [hunmarked] at hselected
      refine ⟨sent, hselected, ?_, fun n c l => ?_, hpulled.indexAt.trans hopened.indexAt⟩
      · rw [hpulled.reply, hopened.frame]
      · rw [hpulled.marked, State.Marked, hmarks, hopened.frame]
        rfl
    · rintro e u ⟨-, hnone | hnone, -⟩
      · rw [count_event, if_pos hread.1] at hnone
        cases hnone
      · rw [path_event, if_pos hread.2] at hnone
        cases hnone
  rcases hrun : lemmaWorker env t.client t.event s with ⟨e | a, s'⟩
  · exact (wp_error hwp hrun).elim
  · obtain ⟨sent, hselected, hpulled⟩ := wp_ok hwp hrun
    obtain ⟨rest, hrest⟩ := hselected.part
    have hnodup : ((sent ++ rest).map (·.2.toNetLemma)).Nodup :=
      (hrest.map _).nodup_iff.mpr (nodup_unmarked hs)
    rw [List.map_append] at hnodup
    exact ⟨sent, s', rfl, hselected, hnodup.of_append_left,
      fun x hx => level_of_mem_unmarked hs (hrest.mem_iff.mp (List.mem_append_left rest hx)), hpulled⟩

/-- Three lemmas, of which one is pushed twice. -/
def threeLemmas : Task where
  client := 1
  name := utf8 "a.smt2"
  path := [0, 1]
  push := true
  count := 4
  body := [⟨utf8 "x", 0⟩, ⟨utf8 "y", 1⟩, ⟨utf8 "z", 1⟩, ⟨utf8 "x", 0⟩]

def pullOne : Task where
  client := 2
  name := utf8 "a.smt2"
  path := [0, 1]
  push := false
  count := 1

theorem pull_returns_one :
    ∃ s sent s', Reached s ∧ lemmaWorker .sorting 2 pullOne.event s = (.ok (), s') ∧
      (s.unmarked (utf8 "a.smt2") 2 [1]).length = 3 ∧ sent.length = 1 ∧
      Pulled s s' pullOne.event.header (utf8 "a.smt2") 2 sent := by
  have hreached : Reached (lemmaWorker .sorting 1 threeLemmas.event {}).2 :=
    .work .sorting 1 threeLemmas.event (.start false)
  have hall : ((lemmaWorker .sorting 1 threeLemmas.event {}).2.unmarked
      (utf8 "a.smt2") 2 [1]).length = 3 := by
    decide +kernel
  obtain ⟨sent, s', hrun, hselected, -, -, hpulled⟩ :=
    pull_returns hreached .sorting pullOne rfl (by decide) (by decide) rfl
  refine ⟨_, sent, s', hreached, hrun, hall, ?_, hpulled⟩
  have hlength := hselected.length
  rw [show ands pullOne.path = [1] from rfl] at hlength
  exact hlength.trans (by rw [show pullOne.name = utf8 "a.smt2" from rfl,
    show pullOne.client = 2 from rfl, hall]; rfl)

end Smts.LemmaServer
