import Smts.LemmaServer.Resolving

namespace Smts.LemmaServer

open Smts.Lib
open Smts.Lib.Prog

namespace State

variable (s : State) (name : Bytes)

/-- The client's table has an entry for the lemma. -/
def Entered (client : Nat) (l : Pointer) : Prop :=
  ∃ marks, (client, marks) ∈ s.solvers name ∧ l ∈ marks.map Prod.fst

def Stores (l : Pointer) : Prop := l.2 ∈ (s.indexAt name l.1).map Prod.fst

end State

/-- The lemmas that are new in the clients' tables are stored. -/
def Grounded (s t : State) : Prop :=
  ∀ name client l, t.Entered name client l → s.Entered name client l ∨ t.Stores name l

/-- Lemmas may be added, and the new ones in the tables are stored. -/
structure Extended (s t : State) : Prop where
  stores : ∀ name l, s.Stores name l → t.Stores name l
  grounded : Grounded s t

section Extensions

variable {s t u : State}

theorem Grounded.extend (h : Grounded s t) (h' : Extended t u) : Grounded s u := by
  intro name client l hl
  rcases h'.grounded name client l hl with hl | hl
  · exact (h name client l hl).imp_right (h'.stores name l)
  · exact .inr hl

namespace Extended

theorem refl (s : State) : Extended s s := ⟨fun _ _ h => h, fun _ _ _ h => .inl h⟩

theorem trans (h : Extended s t) (h' : Extended t u) : Extended s u :=
  ⟨fun name l hl => h'.stores name l (h.stores name l hl), h.grounded.extend h'⟩

end Extended

end Extensions

section Marks

variable {s t : State} {name : Bytes} {client : Nat}

theorem mem_marks {l : Pointer} (h : l ∈ (s.marks name client).map Prod.fst) :
    s.Entered name client l := by
  refine ⟨_, Table.mem_of_find (d := []) fun hnil => ?_, h⟩
  rw [State.marks, hnil] at h
  exact absurd h List.not_mem_nil

theorem extended_modifyMarks {f : Table Pointer Bool → Table Pointer Bool}
    (hf : ∀ l ∈ (f (s.marks name client)).map Prod.fst,
      l ∈ (s.marks name client).map Prod.fst ∨ s.Stores name l) :
    Extended s (modifyMarks name client f s).2 := by
  refine ⟨fun _ _ h => h, fun n c l ⟨m, hm, hl⟩ => ?_⟩
  simp only [modifyMarks, modify_run] at hm
  by_cases hn : n = name
  · subst hn
    rw [Function.update_self] at hm
    rcases Table.mem_put hm with he | hm
    · cases he
      exact (hf l hl).imp_left mem_marks
    · exact .inl ⟨m, hm, hl⟩
  · rw [Function.update_of_ne hn] at hm
    exact .inl ⟨m, hm, hl⟩

theorem extended_touch : Extended s (modifyMarks name client id s).2 :=
  extended_modifyMarks fun _ hl => .inl hl

theorem extended_put {l : Pointer} {b : Bool} (hl : s.Stores name l) :
    Extended s (modifyMarks name client (Table.put l b) s).2 := by
  refine extended_modifyMarks fun l' hl' => ?_
  obtain ⟨e, he, rfl⟩ := List.mem_map.mp hl'
  rcases Table.mem_put he with rfl | he
  · exact .inr hl
  · exact .inl (List.mem_map_of_mem he)

theorem mem_of_eraseTables {env : Env} {ts : Table Nat (Table Pointer Bool)} {n c : Nat}
    {m : Table Pointer Bool} (h : (c, m) ∈ (eraseTables env ts n).1) :
    ∃ m', (c, m') ∈ ts ∧ m ⊆ m' := by
  induction ts generalizing n with
  | nil => exact absurd h List.not_mem_nil
  | cons e ts ih =>
    have hhead (h : (c, m) = (e.1, (eraseMarks (env.walk e.2) n).1)) :
        ∃ m', (c, m') ∈ e :: ts ∧ m ⊆ m' := by
      cases h
      refine ⟨e.2, List.mem_cons_self, fun x hx => ?_⟩
      exact (env.walk_perm e.2).mem_iff.mp ((eraseMarks_suffix _ n).mem hx)
    rw [eraseTables] at h
    dsimp only at h
    split at h
    · rcases List.mem_cons.mp h with h | h
      · exact hhead h
      · exact ⟨m, List.mem_cons_of_mem _ h, List.Subset.refl m⟩
    · rcases List.mem_cons.mp h with h | h
      · exact hhead h
      · obtain ⟨m', hm', hsub⟩ := ih h
        exact ⟨m', List.mem_cons_of_mem _ hm', hsub⟩

theorem extended_garbageCollect (env : Env) (n : Nat) :
    Extended s (garbageCollect env n name s).2 := by
  rw [garbageCollect, modify_run]
  dsimp only
  split
  · refine ⟨fun _ _ h => h, fun n' c l hmark => .inl ?_⟩
    obtain ⟨m, hm, hl⟩ := hmark
    dsimp only at hm
    by_cases hn : n' = name
    · subst hn
      rw [Function.update_self] at hm
      obtain ⟨m', hm', hsub⟩ := mem_of_eraseTables hm
      obtain ⟨e, he, rfl⟩ := List.mem_map.mp hl
      exact ⟨m', (env.walk_perm _).mem_iff.mp hm', List.mem_map_of_mem (hsub he)⟩
    · rw [Function.update_of_ne hn] at hm
      exact ⟨m, hm, hl⟩
  · exact ⟨fun _ _ h => h, fun _ _ _ h => .inl h⟩

end Marks

section Store

variable {s : State} {name : Bytes} {a : Address}

/-- One node's lemmas change. -/
theorem indexAt_mapVal (h : ((s.lemmas name).bind (Trie.lookup a)).isSome) (f : Index → Index)
    (n : Bytes) (b : Address) :
    (modifyTree name (Trie.update (Trie.mapVal f) a) s).2.indexAt n b =
      if n = name ∧ b = a then f (s.indexAt name a) else s.indexAt n b := by
  obtain ⟨index, hindex⟩ := Option.isSome_iff_exists.mp h
  obtain ⟨t, ht, hlookup⟩ := Option.bind_eq_some_iff.mp hindex
  simp only [State.indexAt, modifyTree, modify_run]
  by_cases hn : n = name
  · subst hn
    rw [Function.update_self, ht, Option.map_some, Option.bind_some, Option.bind_some,
      Trie.lookup_update_mapVal]
    by_cases hb : b = a
    · subst hb
      rw [if_pos rfl, if_pos ⟨rfl, rfl⟩, hlookup]
      rfl
    · rw [if_neg hb, if_neg fun h => hb h.2, Option.bind_some]
  · rw [Function.update_of_ne hn, if_neg fun h => hn h.1]

theorem keys_increase (clause : Bytes) (index : Index) :
    (Index.increase clause index).map Prod.fst = index.map Prod.fst := by
  rw [Index.increase, List.map_map]
  refine List.map_congr_left fun e _ => ?_
  rw [Function.comp_apply]
  split
  · rfl
  · rfl

theorem mem_keys_addLemma {l : NetLemma} {index : Index} {clause : Bytes} :
    clause ∈ (Index.addLemma l index).map Prod.fst ↔
      clause = l.clause ∨ clause ∈ index.map Prod.fst := by
  have hperm := (List.perm_orderedInsert (fun a b : Bytes × Lemma => a.1 ≤ b.1)
    (l.clause, { l with }) index).map Prod.fst
  rw [Index.addLemma, hperm.mem_iff, List.map_cons, List.mem_cons]

theorem stores_of_lookup {clause : Bytes} {l : Lemma}
    (h : (s.indexAt name a).lookup clause = some l) : s.Stores name (a, clause) := by
  have hmem : (clause, l) ∈ s.indexAt name a := by
    obtain ⟨l₁, l₂, heq, -⟩ := List.lookup_eq_some_iff.mp h
    rw [heq]
    simp
  exact List.mem_map_of_mem hmem

theorem extended_mapVal (h : ((s.lemmas name).bind (Trie.lookup a)).isSome) {f : Index → Index}
    (hf : ∀ index, index.map Prod.fst ⊆ (f index).map Prod.fst) :
    Extended s (modifyTree name (Trie.update (Trie.mapVal f) a) s).2 := by
  refine ⟨fun n l hl => ?_, fun _ _ _ h => .inl h⟩
  rw [State.Stores, indexAt_mapVal h]
  split
  · next heq =>
    obtain ⟨rfl, ha⟩ := heq
    exact hf _ (ha ▸ hl)
  · exact hl

end Store

section Serving

variable {s : State} {name : Bytes} {client : Nat} {p : List Nat}

theorem Grown.of_lemmas {t : State} (h : Grown name p s) (heq : t.lemmas = s.lemmas) :
    Grown name p t := by
  rw [Grown, heq]
  exact h

theorem wp_index_grown {Q : Index → State → Prop} {E : Exn → State → Prop} {a : Address}
    (hg : Grown name p s) (ha : a ∈ p.inits) (h : Q (s.indexAt name a) s) :
    wp (index name a) Q E s := by
  obtain ⟨index, hindex⟩ := Option.isSome_iff_exists.mp (hg a ha)
  rw [State.indexAt, hindex] at h
  rw [LemmaServer.index, wp_bind, wp_gets, hindex]
  exact h

theorem getD_inits {l : NetLemma} (hl : InRange p l) :
    p.inits.getD l.level.toNat [] = p.take l.level.toNat := by
  have hlen : l.level.toNat < p.inits.length := by
    rw [List.length_inits]
    unfold InRange at hl
    omega
  rw [List.getD_eq_getElem?_getD, List.getElem?_eq_getElem hlen, List.getElem_inits]
  rfl

theorem wp_pushLemma_owned {l : NetLemma} (hg : Grown name p s) :
    wp (pushLemma name client p.inits l)
      (fun _ t => InRange p l ∧ Grown name p t ∧ Extended s t)
      (fun e _ => e = .outOfRange ∧ ¬ InRange p l) s := by
  unfold pushLemma
  split
  · next hlevel =>
    rw [List.length_inits] at hlevel
    exact ⟨rfl, fun hr => by unfold InRange at hr; omega⟩
  · next hlevel =>
    rw [List.length_inits] at hlevel
    have hrange : InRange p l := by unfold InRange; omega
    have ha : p.take l.level.toNat ∈ p.inits := (List.mem_inits _ p).mpr (List.take_prefix _ p)
    have hnode := hg _ ha
    rw [getD_inits hrange, wp_bind]
    refine wp_index_grown hg ha ?_
    split
    · next l' hl' =>
      have hsub (index : Index) :
          index.map Prod.fst ⊆ (Index.increase l.clause index).map Prod.fst := by
        rw [keys_increase]
        exact List.Subset.refl _
      have hext := extended_mapVal hnode hsub
      have hstored := hext.stores name _ (stores_of_lookup hl')
      exact ⟨hrange, (hg.mapVal _ _).of_lemmas rfl, hext.trans (extended_put hstored)⟩
    · have hext := extended_mapVal hnode (f := Index.addLemma l) fun _ _ hc =>
        mem_keys_addLemma.mpr (.inr hc)
      refine ⟨hrange, (hg.mapVal _ _).of_lemmas rfl, hext.trans (extended_put ?_)⟩
      rw [State.Stores, indexAt_mapVal hnode, if_pos ⟨rfl, rfl⟩]
      exact mem_keys_addLemma.mpr (.inl rfl)

theorem wp_push_owned {env : Env} {body : List NetLemma} (hg : Grown name p s) :
    wp (push env name client p.inits body)
      (fun _ t => (∀ l ∈ body, InRange p l) ∧ Extended s t)
      (fun e _ => e = .outOfRange ∧ ¬ ∀ l ∈ body, InRange p l) s := by
  have hcollected : Extended s
      (garbageCollect env body.length name (modifyMarks name client id s).2).2 :=
    extended_touch.trans (extended_garbageCollect env body.length)
  have hmarks : MarksOnly s
      (garbageCollect env body.length name (modifyMarks name client id s).2).2 :=
    marksOnly_collect env body.length
  rw [push, wp_bind]
  change wp (garbageCollect env body.length name >>= fun _ => _) _ _ (modifyMarks name client id s).2
  rw [wp_bind]
  change wp (forEach (pushLemma name client p.inits) body) _ _
    (garbageCollect env body.length name (modifyMarks name client id s).2).2
  refine wp_mono (wp_forEach (I := fun rest t => ∃ done, body = done ++ rest ∧
    (∀ l ∈ done, InRange p l) ∧ Grown name p t ∧ Extended s t) ?_
    ⟨[], rfl, by simp, hg.of_lemmas hmarks.1, hcollected⟩) ?_ fun _ _ h => h
  · rintro l rest t ⟨done, rfl, hdone, hgrown, hext⟩
    refine wp_mono (wp_pushLemma_owned hgrown) ?_ ?_
    · rintro - u ⟨hl, hgrown', hext'⟩
      refine ⟨done ++ [l], by simp, ?_, hgrown', hext.trans hext'⟩
      simpa [or_imp, forall_and] using ⟨hdone, hl⟩
    · rintro e u ⟨he, hl⟩
      exact ⟨he, fun hall => hl (hall l (by simp))⟩
  · rintro - t ⟨done, hbody, hdone, -, hext⟩
    rw [List.append_nil] at hbody
    exact ⟨hbody ▸ hdone, hext⟩

theorem wp_filter_owned {E : Exn → State → Prop} {ls : List (Pointer × Lemma)} {a : Address}
    (hg : Grown name p s) (ha : a ∈ p.inits) :
    wp (filter name client ls a)
      (fun ls' t => Extended s t ∧ t.lemmas = s.lemmas ∧ ∀ x ∈ ls', x ∈ ls ∨ s.Stores name x.1)
      E s := by
  rw [filter, wp_bind]
  refine wp_index_grown hg ha ?_
  refine wp_mono (wp_foldEach (I := fun ls' rest t => (∀ e ∈ rest, e ∈ s.indexAt name a) ∧
    Extended s t ∧ t.lemmas = s.lemmas ∧ ∀ x ∈ ls', x ∈ ls ∨ s.Stores name x.1) ?_
    ⟨fun _ h => h, .refl s, rfl, fun _ h => .inl h⟩) (fun _ _ h => h.2) fun _ _ h => h
  rintro ls' e rest t ⟨hrest, hext, hlemmas, hls⟩
  have hstored : s.Stores name (a, e.1) := List.mem_map_of_mem (hrest e List.mem_cons_self)
  have hrest' : ∀ e ∈ rest, e ∈ s.indexAt name a := fun e he => hrest e (List.mem_cons_of_mem _ he)
  have hext' : Extended s (marked name client (a, e.1) t).2 :=
    hext.trans (extended_put (hext.stores name _ hstored))
  rw [wp_bind, marked, wp_bind, modifyMarks, wp_modify, wp_gets]
  split
  · exact ⟨hrest', hext', hlemmas, hls⟩
  · refine ⟨hrest', hext', hlemmas, fun x hx => ?_⟩
    rcases List.mem_append.mp hx with hx | hx
    · exact hls x hx
    · exact .inr (List.mem_singleton.mp hx ▸ hstored)

theorem wp_forEach_mark_owned {E : Exn → State → Prop} {ls : List (Pointer × Lemma)}
    (hls : ∀ x ∈ ls, s.Stores name x.1) :
    wp (forEach (fun x => mark name client x.1) ls) (fun _ t => Extended s t) E s := by
  refine wp_mono (wp_forEach (I := fun rest t => (∀ x ∈ rest, s.Stores name x.1) ∧ Extended s t) ?_
    ⟨hls, .refl s⟩) (fun _ _ h => h.2) fun _ _ h => h
  rintro x rest t ⟨hrest, hext⟩
  exact ⟨fun y hy => hrest y (List.mem_cons_of_mem _ hy),
    hext.trans (extended_put (hext.stores name _ (hrest x List.mem_cons_self)))⟩

theorem wp_pull_owned {env : Env} {header : Header} {request : Nat}
    (hname : get header "name" = name) (hg : Grown name p s) :
    wp (pull env header client p.inits request) (fun _ t => Extended s t)
      (fun e t => e = .socketException ∧ Extended s t) s := by
  rw [pull, hname, wp_bind]
  change wp (foldEach (filter name client) [] p.inits >>= _) _ _ (modifyMarks name client id s).2
  rw [wp_bind]
  refine wp_mono (wp_foldEach (I := fun ls rest t => (∀ a ∈ rest, a ∈ p.inits) ∧ Extended s t ∧
    t.lemmas = s.lemmas ∧ ∀ x ∈ ls, t.Stores name x.1) ?_
    ⟨fun _ h => h, extended_touch, rfl, by simp⟩) ?_ fun _ _ h => h
  · rintro ls a rest t ⟨hrest, hext, hlemmas, hls⟩
    refine wp_mono (wp_filter_owned (hg.of_lemmas hlemmas) (hrest a List.mem_cons_self)) ?_
      fun _ _ h => h
    rintro ls' u ⟨hext', hlemmas', hls'⟩
    refine ⟨fun b hb => hrest b (List.mem_cons_of_mem _ hb), hext.trans hext',
      hlemmas'.trans hlemmas, fun x hx => hext'.stores name _ ?_⟩
    exact (hls' x hx).elim (hls x) id
  · rintro ls t ⟨-, hext, -, hls⟩
    have hsent : ∀ x ∈ (select env request ls).take request, t.Stores name x.1 :=
      fun x hx => hls x (mem_select (List.mem_of_mem_take hx))
    have hanswer (u : State) (h : Extended s u) (body : List NetLemma) :
        wp (answer env header client body) (fun _ t => Extended s t)
          (fun e t => e = .socketException ∧ Extended s t) u := by
      unfold answer
      split
      · exact ⟨h.stores, h.grounded⟩
      · exact ⟨rfl, h⟩
    rw [wp_bind, wp_gets, wp_bind, wp_when]
    refine ⟨fun _ => ?_, fun _ => hanswer t hext _⟩
    exact wp_mono (wp_forEach_mark_owned hsent) (fun _ u h => hanswer u (hext.trans h) _)
      fun _ _ h => h

theorem grounded_clear (s : State) (name : Bytes) : Grounded s (clear name s).2 := by
  refine fun n c l ⟨m, hm, hl⟩ => .inl ⟨m, ?_, hl⟩
  simp only [clear, modify_run] at hm
  by_cases hn : n = name
  · subst hn
    rw [Function.update_self] at hm
    exact absurd hm List.not_mem_nil
  · rwa [Function.update_of_ne hn] at hm

theorem wp_push_freed {env : Env} {body : List NetLemma} (hfreed : s.lemmas name = none) :
    wp (push env name client p.inits body) (fun _ t => body = [] ∧ Extended s t)
      (fun e _ => (e = .dangling ∨ e = .outOfRange) ∧ body ≠ []) s := by
  have hcollected : Extended s
      (garbageCollect env body.length name (modifyMarks name client id s).2).2 :=
    extended_touch.trans (extended_garbageCollect env body.length)
  have hmarks : MarksOnly s
      (garbageCollect env body.length name (modifyMarks name client id s).2).2 :=
    marksOnly_collect env body.length
  rw [push, wp_bind]
  change wp (garbageCollect env body.length name >>= fun _ => _) _ _ (modifyMarks name client id s).2
  rw [wp_bind]
  change wp (forEach (pushLemma name client p.inits) body) _ _
    (garbageCollect env body.length name (modifyMarks name client id s).2).2
  cases body with
  | nil => exact ⟨rfl, hcollected⟩
  | cons l body =>
    rw [forEach, wp_bind, pushLemma]
    split
    · exact ⟨.inr rfl, List.cons_ne_nil l body⟩
    · rw [wp_bind, LemmaServer.index, wp_bind, wp_gets, hmarks.1, hfreed]
      exact ⟨.inl rfl, List.cons_ne_nil l body⟩

theorem wp_pull_freed {env : Env} {header : Header} {request : Nat}
    (hname : get header "name" = name) (hfreed : s.lemmas name = none) :
    wp (pull env header client p.inits request) (fun _ _ => False) (fun e _ => e = .dangling) s := by
  obtain ⟨as, has⟩ : ∃ as, p.inits = [] :: as := by cases p <;> simp
  rw [pull, hname, wp_bind, modifyMarks, wp_modify, wp_bind, has, foldEach, wp_bind, filter, wp_bind,
    LemmaServer.index, wp_bind, wp_gets, hfreed]
  rfl

/-- What a message may ask of the nodes on its path. -/
def Event.Harmless (event : Event) (p : List Nat) (request : Nat) : Prop :=
  (event.sign.head? = some '+'.toUInt8 →
    (request = 0 → event.body = []) ∧ ∀ l ∈ event.body, InRange p l) ∧
  (event.sign.head? = some '-'.toUInt8 → request ≠ 0)

/-- Reading a node that is gone, or past the end of the path. -/
def Exn.Stray (e : Exn) : Prop := e = .dangling ∨ e = .outOfRange

theorem wp_serve_owned {env : Env} {event : Event} {request : Nat}
    (hg : Grown (get event.header "name") p s) :
    wp (serve env client event p.inits request)
      (fun _ t => event.Harmless p request ∧ Grounded s t)
      (fun e t => e = .socketException ∧ event.Harmless p request ∧ Grounded s t ∨
        e.Stray ∧ ¬ event.Harmless p request) s := by
  rw [serve, wp_bind, wp_when]
  refine ⟨fun hzero => ?_, fun hzero => ?_⟩
  · have hfreed : (clear (get event.header "name") s).2.lemmas (get event.header "name") = none :=
      Function.update_self ..
    have hground := grounded_clear s (get event.header "name")
    change wp _ _ _ (clear (get event.header "name") s).2
    split
    · next hsign =>
      refine wp_mono (wp_push_freed hfreed) ?_ ?_
      · rintro - t ⟨hbody, hext⟩
        refine ⟨⟨fun _ => ⟨fun _ => hbody, fun l hl => ?_⟩, fun h => ?_⟩, hground.extend hext⟩
        · rw [hbody] at hl
          exact absurd hl List.not_mem_nil
        · rw [hsign] at h
          exact absurd h (by decide)
      · rintro e t ⟨he, hbody⟩
        exact .inr ⟨he, fun h => hbody ((h.1 hsign).1 hzero)⟩
    · next hplus =>
      split
      · next hsign =>
        refine wp_mono (wp_pull_freed rfl hfreed) (fun _ _ h => h.elim) ?_
        rintro e t he
        exact .inr ⟨.inl he, fun h => h.2 hsign hzero⟩
      · next hminus =>
        exact ⟨⟨fun h => absurd h hplus, fun h => absurd h hminus⟩, hground⟩
  · split
    · next hsign =>
      refine wp_mono (wp_push_owned hg) ?_ ?_
      · rintro - t ⟨hbody, hext⟩
        refine ⟨⟨fun _ => ⟨fun h => absurd h hzero, hbody⟩, fun h => ?_⟩, hext.grounded⟩
        rw [hsign] at h
        exact absurd h (by decide)
      · rintro e t ⟨he, hbody⟩
        exact .inr ⟨.inr he, fun h => hbody (h.1 hsign).2⟩
    · next hplus =>
      split
      · have hharmless : event.Harmless p request := ⟨fun h => absurd h hplus, fun _ => hzero⟩
        exact wp_mono (wp_pull_owned rfl hg) (fun _ _ hext => ⟨hharmless, hext.grounded⟩)
          fun _ _ h => .inl ⟨h.1, hharmless, h.2.grounded⟩
      · next hminus =>
        exact ⟨⟨fun h => absurd h hplus, fun h => absurd h hminus⟩, fun _ _ _ h => .inl h⟩

end Serving

/-- Once the path is resolved, the worker reads and writes only nodes that are part of the
store at that moment, and enters only lemmas that are stored. -/
def Owned (env : Env) (client : Nat) (event : Event) (s : State) : Prop :=
  ∀ path request t, resolve event s = (.ok (path, request), t) →
    wp (serve env client event path request) (fun _ u => Grounded t u)
      (fun e u => ¬ e.Stray ∧ Grounded t u) t

/-- The worker only touches nodes it owns if and only if the message does not ask for a clear
and then for a push of something or a pull, and its levels lie on the path. -/
theorem nodes_owned (env : Env) (client : Nat) (event : Event) (s : State) :
    Owned env client event s ↔
      ∀ request p, event.count = some request → event.path = some p →
        event.Harmless p request := by
  have hresolved := wp_resolve_event (s := s) event
  constructor
  · intro h request p hcount hpath
    rcases hr : resolve event s with ⟨e | ⟨path, n⟩, t⟩
    · obtain ⟨-, hnone | hnone, -⟩ := wp_error hresolved hr
      · rw [hcount] at hnone
        cases hnone
      · rw [hpath] at hnone
        cases hnone
    · obtain ⟨n', p', hcount', hpath', heq, hgrown, -⟩ := wp_ok hresolved hr
      obtain ⟨rfl, rfl⟩ := Prod.mk.inj heq
      obtain rfl := Option.some.inj (hcount.symm.trans hcount')
      obtain rfl := Option.some.inj (hpath.symm.trans hpath')
      rcases hserve : serve env client event p.inits request t with ⟨e | a, u⟩
      · rcases wp_error (wp_serve_owned hgrown) hserve with ⟨-, hharmless, -⟩ | ⟨hstray, -⟩
        · exact hharmless
        · exact absurd hstray (wp_error (h _ _ t hr) hserve).1
      · exact (wp_ok (wp_serve_owned hgrown) hserve).1
  · intro h path n t hr
    obtain ⟨n', p, hcount, hpath, heq, hgrown, -⟩ := wp_ok hresolved hr
    obtain ⟨rfl, rfl⟩ := Prod.mk.inj heq
    refine wp_mono (wp_serve_owned hgrown) (fun _ _ h => h.2) fun e u hu => ?_
    rcases hu with ⟨rfl, -, hground⟩ | ⟨-, hnot⟩
    · exact ⟨by simp [Exn.Stray], hground⟩
    · exact absurd (h n p hcount hpath) hnot

/-- A message that asks for a clear and a pull. -/
def clearPull : Task where
  client := 1
  name := utf8 "a.smt2"
  path := []
  push := false
  count := 0

/-- The pull reads the root that the clear has deleted. -/
theorem nodes_freed :
    (lemmaWorker .sorting 1 clearPull.event {}).1 = .error .dangling ∧
      ¬ Owned .sorting 1 clearPull.event {} := by
  refine ⟨rfl, fun h => ?_⟩
  exact (h [[]] 0 _ rfl).1 (.inl rfl)

end Smts.LemmaServer
