import Smts.LemmaServer.Freshness

namespace Smts.LemmaServer

open Smts.Lib
open Smts.Lib.Prog

/-- The lemmas of a node, none where there is no such node. -/
def State.indexAt (s : State) (name : Bytes) (a : Address) : Index :=
  ((s.lemmas name).bind (Trie.lookup a)).getD []

/-- The numbers of the children that the loop over a path visits.  It stops at a number
that is no index. -/
def childNumbers : List Bytes → Option (List Nat)
  | _ :: token :: tokens =>
    match stoi token with
    | .ok i => if 0 ≤ i then (childNumbers tokens).map (i.toNat :: ·) else none
    | .error _ => none
  | _ => some []

namespace Event

variable (event : Event)

def sign : Bytes := get event.header "lemmas"

/-- The number of lemmas a message asks for, as an `uint32_t`. -/
def count : Option Nat :=
  match (substr1 event.sign).bind stoi with
  | .ok n => some (n % 2 ^ 32).toNat
  | .error _ => none

/-- The node a message is about. -/
def path : Option (List Nat) :=
  match inner (get event.header "node") with
  | .ok code => childNumbers (tokens (eraseSpaces code))
  | .error _ => none

end Event

section Task

variable (t : Task)

theorem sign_event :
    t.event.sign = t.sign :: decimal t.count := get_lemmas t

theorem count_event : t.event.count = if t.count < 2 ^ 31 then some t.count else none := by
  rw [Event.count, sign_event, substr1, if_neg (List.cons_ne_nil _ _)]
  simp only [List.drop_succ_cons, List.drop_zero, Except.bind, stoi_decimal]
  split
  · next h =>
    split at h
    · cases h
      rw [if_pos ‹_›]
      congr 1
      omega
    · cases h
  · next h =>
    split at h
    · cases h
    · rw [if_neg ‹_›]

theorem childNumbers_digits (p : List Nat) :
    childNumbers (p.map decimal) =
      if ∀ i ∈ ands p, i < 2 ^ 31 then some (ands p) else none := by
  induction p using ands.induct with
  | case1 o a p ih =>
    simp only [List.map_cons, childNumbers, stoi_decimal, ands, List.forall_mem_cons]
    by_cases ha : a < 2 ^ 31
    · simp only [ha, if_true, true_and, Int.natCast_nonneg, Int.toNat_natCast, ih]
      split <;> rfl
    · simp only [ha, if_false, false_and]
  | case2 p hp =>
    cases p with
    | nil => rfl
    | cons o rest =>
      cases rest with
      | nil => rfl
      | cons a p => exact absurd rfl (hp o a p)

theorem path_event :
    t.event.path = if ∀ i ∈ ands t.path, i < 2 ^ 31 then some (ands t.path) else none := by
  rw [Event.path, get_node, inner_render]
  simp only [tokens_render, childNumbers_digits]

end Task

/-- The first half of `lemma_worker`: the count and the nodes on the path. -/
def resolve (event : Event) : M (List Address × Nat) := do
  let request ← ofExcept ((substr1 event.sign).bind stoi)
  open_ (get event.header "name")
  let code ← ofExcept (inner (get event.header "node"))
  let (path, _) ← foldEach (visit (get event.header "name")) ([[]], 0) (tokens (eraseSpaces code))
  pure (path, (request % 2 ^ 32).toNat)

/-- The second half of `lemma_worker`. -/
def serve (env : Env) (client : Nat) (event : Event) (path : List Address) (request : Nat) :
    M Unit := do
  when (request = 0) (clear (get event.header "name"))
  if event.sign.head? = some '+'.toUInt8 then
    push env (get event.header "name") client path event.body
  else if event.sign.head? = some '-'.toUInt8 then pull env event.header client path request
  else pure ()

theorem lemmaWorker_eq (env : Env) (client : Nat) (event : Event) :
    lemmaWorker env client event =
      resolve event >>= fun r => serve env client event r.1 r.2 := by
  simp only [lemmaWorker, resolve, serve, bind_bind]
  rfl

section Errors

/-- What `substr`, `stoi` and an index that is out of range end with. -/
def Exn.Malformed (e : Exn) : Prop := e = .outOfRange ∨ e = .invalidArgument

variable {l : Bytes} {e : Exn}

theorem malformed_stoiDigits {negative : Bool} (h : stoiDigits negative l = .error e) :
    e.Malformed := by
  unfold stoiDigits at h
  extract_lets digits n value at h
  split at h
  · exact .inr (Except.error.inj h).symm
  · split at h
    · exact absurd h (by simp)
    · exact .inl (Except.error.inj h).symm

theorem stoiDigits_lt {negative : Bool} {i : Int} (h : stoiDigits negative l = .ok i) :
    i < 2 ^ 31 := by
  unfold stoiDigits at h
  extract_lets digits n value at h
  split at h
  · exact absurd h (by simp)
  · split at h
    · next hv => exact Except.ok.inj h ▸ hv.2
    · exact absurd h (by simp)

theorem stoi_eq_digits (l : Bytes) : ∃ negative l', stoi l = stoiDigits negative l' := by
  unfold stoi
  extract_lets l
  split
  · exact ⟨_, _, rfl⟩
  · split
    · exact ⟨_, _, rfl⟩
    · exact ⟨_, _, rfl⟩

theorem stoi_lt {i : Int} (h : stoi l = .ok i) : i < 2 ^ 31 := by
  obtain ⟨negative, l', hl⟩ := stoi_eq_digits l
  exact stoiDigits_lt (hl ▸ h)

theorem malformed_stoi (h : stoi l = .error e) : e.Malformed := by
  obtain ⟨negative, l', hl⟩ := stoi_eq_digits l
  exact malformed_stoiDigits (hl ▸ h)

theorem malformed_substr1 (h : substr1 l = .error e) : e.Malformed := by
  rw [substr1] at h
  split at h
  · cases h
    exact .inl rfl
  · cases h

theorem malformed_inner (h : inner l = .error e) : e.Malformed := by
  rw [inner] at h
  split at h
  · cases h
    exact .inl rfl
  · cases h

theorem malformed_count (h : (substr1 l).bind stoi = .error e) : e.Malformed := by
  cases hl : substr1 l with
  | error e' =>
    rw [hl] at h
    cases h
    exact malformed_substr1 hl
  | ok l' =>
    rw [hl] at h
    exact malformed_stoi h

end Errors

section Nodes

variable {s t u : State} {name n : Bytes} {a b : Address} {f : Index → Index} {p : List Nat}

/-- Nodes without lemmas may be new. -/
structure Opened (s t : State) : Prop where
  indexAt : t.indexAt = s.indexAt
  frame : t = { s with lemmas := t.lemmas }

theorem Opened.refl (s : State) : Opened s s := ⟨rfl, rfl⟩

theorem Opened.trans (h : Opened s t) (h' : Opened t u) : Opened s u where
  indexAt := h'.indexAt.trans h.indexAt
  frame := by rw [h'.frame, h.frame]

theorem opened_of_lemmas {o : Option (Trie Index)}
    (h : ∀ b, (o.bind (Trie.lookup b)).getD [] = s.indexAt name b) :
    Opened s { s with lemmas := Function.update s.lemmas name o } := by
  refine ⟨funext fun n => funext fun b => ?_, rfl⟩
  simp only [State.indexAt]
  by_cases hn : n = name
  · subst hn
    rw [Function.update_self]
    exact h b
  · rw [Function.update_of_ne hn]

theorem opened_open (s : State) (name : Bytes) : Opened s (open_ name s).2 := by
  refine opened_of_lemmas fun b => ?_
  rw [Option.bind_some, State.indexAt]
  cases s.lemmas name with
  | some t => rfl
  | none =>
    cases b with
    | nil => rfl
    | cons => rfl

theorem opened_grow (s : State) (name : Bytes) (a : Address) (k : Nat) :
    Opened s (modifyTree name (Trie.update (Trie.grow [] k) a) s).2 := by
  refine opened_of_lemmas fun b => ?_
  rw [State.indexAt]
  cases s.lemmas name with
  | none => rfl
  | some t =>
    rw [Option.map_some, Option.bind_some, Option.bind_some]
    cases hb : t.lookup b with
    | some v => rw [Trie.lookup_update_grow a hb]
    | none =>
      cases hb' : Trie.lookup b (Trie.update (Trie.grow [] k) a t) with
      | none => rfl
      | some v =>
        rcases Trie.eq_of_lookup_update_grow a hb' with h | rfl
        · exact absurd (hb.symm.trans h) (Option.some_ne_none v).symm
        · rfl

theorem grown_root (h : (s.lemmas name).isSome) : Grown name [] s := by
  intro a ha
  obtain ⟨t, ht⟩ := Option.isSome_iff_exists.mp h
  obtain rfl := List.mem_singleton.mp ha
  rw [ht]
  rfl

/-- The loop over the path, of whose texts every second one is a child number. -/
theorem wp_visits (tokens : List Bytes) {k : Nat} (hk : k % 2 = 0) (hg : Grown name p s) :
    wp (foldEach (visit name) (p.inits, k) tokens)
      (fun acc t => ∃ q, childNumbers tokens = some q ∧ acc.1 = (p ++ q).inits ∧
        Grown name (p ++ q) t ∧ Opened s t)
      (fun e t => e.Malformed ∧ childNumbers tokens = none ∧ Opened s t) s := by
  have hodd : (k + 1) % 2 = 1 := by omega
  induction tokens using childNumbers.induct generalizing p k s with
  | case1 first token tokens i hi hpos ih =>
    have hlt := stoi_lt hi
    rw [childNumbers, hi, foldEach, visit, if_neg (by omega), wp_bind, wp_pure, foldEach, visit]
    simp only [if_pos hodd, hi, hpos, if_true]
    rw [wp_bind, wp_bind, wp_ofExcept_ok, wp_bind, child, wp_bind, if_neg (by omega)]
    have hgrown := hg.child (i := i.toNat) (n := (i % 2 ^ 32).toNat + 1) (by omega)
    have hrest := ih (k := k + 1 + 1) (by omega) hgrown (by omega)
    rw [inits_concat] at hrest
    rw [getLastD_inits, modifyTree, wp_modify, wp_pure, wp_pure]
    refine wp_mono hrest ?_ ?_
    · rintro acc t ⟨q, hq, hacc, hgrown', hopened⟩
      rw [List.append_assoc] at hacc hgrown'
      exact ⟨i.toNat :: q, by rw [hq]; rfl, hacc, hgrown', (opened_grow s name p _).trans hopened⟩
    · rintro e t ⟨he, hnone, hopened⟩
      exact ⟨he, by rw [hnone]; rfl, (opened_grow s name p _).trans hopened⟩
  | case2 first token tokens i hi hneg =>
    rw [childNumbers, hi, foldEach, visit, if_neg (by omega), wp_bind, wp_pure, foldEach, visit]
    simp only [if_pos hodd, hi, hneg, if_false]
    rw [wp_bind, wp_bind, wp_ofExcept_ok, wp_bind, child, wp_bind, if_pos (by omega),
      getLastD_inits]
    exact ⟨.inl rfl, trivial, opened_grow s name p _⟩
  | case3 first token tokens e he =>
    rw [childNumbers, he, foldEach, visit, if_neg (by omega), wp_bind, wp_pure, foldEach, visit]
    simp only [if_pos hodd, he]
    rw [wp_bind, wp_bind, wp_ofExcept_error]
    exact ⟨malformed_stoi he, trivial, .refl s⟩
  | case4 tokens hshort =>
    have hdone : ∃ j, wp (foldEach (visit name) (p.inits, k) tokens)
        (fun acc t => acc = (p.inits, j) ∧ t = s) (fun _ _ => False) s := by
      cases tokens with
      | nil => exact ⟨k, rfl, rfl⟩
      | cons first rest =>
        cases rest with
        | nil =>
          refine ⟨k + 1, ?_⟩
          rw [foldEach, visit, if_neg (by omega)]
          exact ⟨rfl, rfl⟩
        | cons token tokens => exact absurd rfl (hshort first token tokens)
    obtain ⟨j, hdone⟩ := hdone
    refine wp_mono hdone ?_ fun _ _ h => h.elim
    rintro acc t ⟨rfl, rfl⟩
    rw [childNumbers.eq_2 _ hshort]
    exact ⟨[], rfl, by rw [List.append_nil], by rwa [List.append_nil], .refl t⟩

theorem wp_resolve_event (event : Event) :
    wp (resolve event) (fun r t => ∃ n p, event.count = some n ∧ event.path = some p ∧
        r = (p.inits, n) ∧ Grown (get event.header "name") p t ∧ Opened s t)
      (fun e t => e.Malformed ∧ (event.count = none ∨ event.path = none) ∧ Opened s t) s := by
  rw [resolve, wp_bind, Event.count, Event.path]
  cases hn : (substr1 event.sign).bind stoi with
  | error e => exact ⟨malformed_count hn, .inl rfl, .refl s⟩
  | ok n =>
    rw [wp_ofExcept_ok, wp_bind, open_, wp_modify, wp_bind]
    cases hc : inner (get event.header "node") with
    | error e => exact ⟨malformed_inner hc, .inr rfl, opened_open s _⟩
    | ok code =>
      rw [wp_ofExcept_ok, wp_bind]
      refine wp_mono (wp_visits (p := []) _ rfl (grown_root open_root)) ?_ ?_
      · rintro ⟨path, k⟩ t ⟨q, hq, rfl, hgrown, hopened⟩
        exact ⟨_, q, rfl, hq, rfl, hgrown, (opened_open s _).trans hopened⟩
      · rintro e t ⟨he, hnone, hopened⟩
        exact ⟨he, .inr hnone, (opened_open s _).trans hopened⟩

end Nodes

end Smts.LemmaServer
