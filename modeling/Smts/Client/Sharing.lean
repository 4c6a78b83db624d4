import Mathlib.Data.Set.Lattice
import Smts.Client.PullWorker
import Smts.LemmaServer.Scoping

namespace Smts.Client

open Smts.Lib
open Smts.LemmaServer (NetLemma Reply)

/-- A client with the lemmas that it deals in.  Each of `lemmas` is asserted in the frame of the
node it stands with.  `learned` is what the solver has left in the channel, `publishing` what the
push worker has taken from there, and `contents` what the pulled batches consist of.  The pull
worker holds `lemma_mutex` while it is `asking`; it has read `answer`, which it has not yet put
into the channel. -/
structure Sharer extends Schedular where
  name : Bytes
  lemmas : List (Branch × NetLemma) := []
  learned : Table Branch (List NetLemma) := []
  publishing : Table Branch (List NetLemma) := []
  contents : List (List NetLemma) := []
  asking : Bool := false
  answer : Option (List NetLemma) := none

namespace Sharer

def start (name : Bytes) (node : Branch) : Sharer := { Schedular.start node with name }

/-- What is relied on of the channel where a solver leaves lemmas: whatever it holds then was there
under this branch, or is one of these lemmas and stands under the branch of the header. -/
def Stores (s : Sharer) (ls : List NetLemma) (learned : Table Branch (List NetLemma)) : Prop :=
  ∀ e ∈ learned, (e.1 = s.currentHeader ∨ ∃ e' ∈ s.learned, e'.1 = e.1) ∧
    ∀ l ∈ e.2, (∃ e' ∈ s.learned, e'.1 = e.1 ∧ l ∈ e'.2) ∨ e.1 = s.currentHeader ∧ l ∈ ls

/-- What is relied on of `swap_learned_clauses`: what is taken and what stays was there. -/
def Swaps (s : Sharer) (taken left : Table Branch (List NetLemma)) : Prop :=
  taken ⊆ s.learned ∧ left ⊆ s.learned

/-- A channel that adds the lemmas to those under the branch of the header. -/
def learn (s : Sharer) (ls : List NetLemma) : Table Branch (List NetLemma) :=
  Table.put s.currentHeader (Table.find [] s.currentHeader s.learned ++ ls) s.learned

theorem stores_learn (s : Sharer) (ls : List NetLemma) : s.Stores ls (s.learn ls) := by
  intro e he
  rcases Table.mem_put he with rfl | he
  · refine ⟨.inl rfl, fun l hl => ?_⟩
    rcases List.mem_append.mp hl with hl | hl
    · rcases Table.find_mem (d := []) s.currentHeader s.learned with hf | hf
      · rw [hf] at hl
        exact absurd hl List.not_mem_nil
      · exact .inl ⟨_, hf, rfl, hl⟩
    · exact .inr ⟨rfl, hl⟩
  · exact ⟨.inr ⟨e, he, rfl⟩, fun l hl => .inl ⟨e, he, rfl, hl⟩⟩

/-- `Schedular::lemma_push`. -/
def pushed (s : Sharer) (client : Nat) (b : Branch) (ls : List NetLemma) : List LemmaServer.Task :=
  if ls = [] then []
  else [{ client, name := s.name, path := b, push := true, count := ls.length, body := ls }]

/-- The request that `Schedular::lemma_pull` writes. -/
def request (s : Sharer) (client : Nat) (p : Branch) (amount : Nat) (query : Bytes) :
    LemmaServer.Task where
  client := client
  name := s.name
  path := p
  push := false
  count := amount
  rest := [(utf8 "query", query)]

/-- `Schedular::read_lemma` has got no lemmas. -/
def giveUp (s : Sharer) : Sharer := { s with header := none, asking := false }

/-- The rest of `Schedular::lemma_pull`, once the reply is there. -/
def read (s : Sharer) (r : Reply) : Sharer :=
  if LemmaServer.get r.header "name" ≠ s.name ∨ r.body = [] then s.giveUp
  else { s with asking := false, answer := some r.body }

/-- What `add_constraint` asserts for an event of this branch. -/
def pulled (s : Sharer) (branch : Branch) : List NetLemma :=
  ((s.pulledClauses.zip s.contents).filter fun e =>
    isPrefix (inner e.1.branch) (inner branch)).flatMap (·.2)

/-- The frames that are not above the new node are popped. -/
def load (s : Sharer) : Option Sharer :=
  (step s.toSchedular .load).map fun c =>
    { s with toSchedular := c, lemmas := s.lemmas.filter fun e => e.1.isPrefixOf c.loaded }

def execute (s : Sharer) : Option Sharer :=
  (step s.toSchedular .execute).map fun c =>
    match s.hand with
    | some (.clauseInjection node) => { s with
        toSchedular := c
        contents := []
        lemmas := s.lemmas ++ (s.pulled node).map (s.loaded, ·) }
    | _ => { s with toSchedular := c }

/-- `insert_pulled_clause`, and the event that tells of it. -/
def insert (s : Sharer) : Option Sharer :=
  match s.answer with
  | some ls => (step s.toSchedular .insert).map fun c =>
      { s with toSchedular := c, contents := s.contents ++ [ls], answer := none }
  | none => none

/-- A step that deals in no lemmas. -/
def plain (s : Sharer) (a : Act) : Option Sharer :=
  match a with
  | .pull | .receive _ | .pop => (step s.toSchedular a).map fun c => { s with toSchedular := c }
  | _ => none

/-- The pull worker is where it was. -/
structure Keeps (s t : Sharer) : Prop where
  name : t.name = s.name
  asking : t.asking = s.asking
  header : ∀ p, s.header = some p → t.header = some p

section Keeps

variable {s t : Sharer}

/-- A step that deals in no lemmas leaves the script and the batches alone. -/
theorem plain_cases {a : Act} (h : s.plain a = some t) :
    ∃ c, Client.step s.toSchedular a = some c ∧ t = { s with toSchedular := c } ∧
      InsertHarmless s.toSchedular a ∧ c.loaded = s.loaded ∧ c.pulledClauses = s.pulledClauses ∧
        ∀ p, s.header = some p → c.header = some p := by
  cases a with
  | pull =>
    obtain ⟨c, hc, rfl⟩ := Option.map_eq_some_iff.mp h
    obtain ⟨hnone, rfl⟩ := Option.ite_some_none_eq_some.mp hc
    exact ⟨_, hc, rfl, trivial, rfl, rfl, fun p hp => by simp [hnone] at hp⟩
  | receive e =>
    obtain ⟨c, hc, rfl⟩ := Option.map_eq_some_iff.mp h
    refine ⟨c, hc, rfl, trivial, ?_⟩
    cases e with
    | clauseInjection node => cases hc
    | _ =>
      cases hc
      exact ⟨rfl, rfl, fun _ hp => hp⟩
  | pop =>
    obtain ⟨c, hc, rfl⟩ := Option.map_eq_some_iff.mp h
    obtain ⟨e, es, -, -, rfl⟩ := step_pop hc
    exact ⟨_, hc, rfl, trivial, rfl, rfl, fun _ hp => hp⟩
  | _ => cases h

theorem keeps_plain {a : Act} (h : s.plain a = some t) : s.Keeps t := by
  obtain ⟨c, -, rfl, -, -, -, header⟩ := plain_cases h
  exact ⟨rfl, rfl, header⟩

theorem keeps_load (h : s.load = some t) : s.Keeps t := by
  obtain ⟨c, hc, rfl⟩ := Option.map_eq_some_iff.mp h
  obtain ⟨node, -, rfl⟩ := Option.map_eq_some_iff.mp hc
  exact ⟨rfl, rfl, fun _ hp => hp⟩

theorem keeps_execute (h : s.execute = some t) : s.Keeps t := by
  obtain ⟨c, hc, rfl⟩ := Option.map_eq_some_iff.mp h
  obtain ⟨e, hand, -, rfl⟩ := step_execute hc
  rw [hand]
  cases e with
  | _ => exact ⟨rfl, rfl, fun _ hp => hp⟩

/-- The pull worker has an answer to put into the channel. -/
theorem answered_of_insert (h : s.insert = some t) :
    (∃ ls, s.answer = some ls) ∧ t.name = s.name ∧ t.asking = s.asking := by
  unfold insert at h
  split at h
  · next ls hls =>
    obtain ⟨c, hc, rfl⟩ := Option.map_eq_some_iff.mp h
    exact ⟨⟨ls, hls⟩, rfl, rfl⟩
  · cases h

end Keeps

/-- All branches that a client knows of satisfy `N`. -/
structure Within (N : Branch → Prop) (s : Sharer) : Prop where
  here : N s.currentHeader
  loaded : N s.loaded
  loading : ∀ b, s.loading = some b → N b
  events : ∀ b, Event.incremental b ∈ s.pending → N b
  header : ∀ p, s.header = some p → N p
  learned : ∀ e ∈ s.learned, N e.1
  publishing : ∀ e ∈ s.publishing, N e.1

theorem within_start {N : Branch → Prop} (name : Bytes) {node : Branch} (h : N node) :
    (start name node).Within N where
  here := h
  loaded := h
  loading _ hb := nomatch hb
  events b hb := by simp [start, Schedular.start, Schedular.pending] at hb
  header _ hp := nomatch hp
  learned _ he := nomatch he
  publishing _ he := nomatch he

namespace Within

variable {N : Branch → Prop} {s t : Sharer}

theorem learn (hs : s.Within N) {ls : List NetLemma} {learned : Table Branch (List NetLemma)}
    (stores : s.Stores ls learned) : Within N { s with learned } where
  __ := hs
  learned e he := by
    rcases (stores e he).1 with here | ⟨e', he', same⟩
    · exact here ▸ hs.here
    · exact same ▸ hs.learned e' he'

theorem swap (hs : s.Within N) {taken left : Table Branch (List NetLemma)}
    (swaps : s.Swaps taken left) : Within N { s with publishing := taken, learned := left } where
  __ := hs
  learned e he := hs.learned e (swaps.2 he)
  publishing e he := hs.learned e (swaps.1 he)

theorem plain {a : Act} (hs : s.Within N) (known : ∀ b, a = .receive (.incremental b) → N b)
    (h : s.plain a = some t) : t.Within N := by
  cases a with
  | pull =>
    obtain ⟨c, hc, rfl⟩ := Option.map_eq_some_iff.mp h
    obtain ⟨-, rfl⟩ := Option.ite_some_none_eq_some.mp hc
    exact { hs with header := fun p hp => Option.some.inj hp ▸ hs.here }
  | receive e =>
    obtain ⟨c, hc, rfl⟩ := Option.map_eq_some_iff.mp h
    have events : ∀ b, Event.incremental b ∈ s.hand.toList ++ (s.queue ++ [e]) → N b := by
      intro b hb
      rw [← List.append_assoc] at hb
      rcases List.mem_append.mp hb with hb | hb
      · exact hs.events b hb
      · exact known b (congrArg Act.receive (List.mem_singleton.mp hb).symm)
    cases e with
    | clauseInjection node => cases hc
    | _ =>
      cases hc
      exact { hs with events := events }
  | pop =>
    obtain ⟨c, hc, rfl⟩ := Option.map_eq_some_iff.mp h
    obtain ⟨e, es, hand, queue, rfl⟩ := step_pop hc
    refine { hs with events := fun b hb => hs.events b ?_ }
    rw [Schedular.pending, hand, queue]
    exact hb
  | _ => cases h

theorem load (hs : s.Within N) (h : s.load = some t) : t.Within N := by
  obtain ⟨c, hc, rfl⟩ := Option.map_eq_some_iff.mp h
  obtain ⟨node, hnode, rfl⟩ := Option.map_eq_some_iff.mp hc
  exact { hs with loaded := hs.loading node hnode, loading := by simp }

theorem execute (hs : s.Within N) (h : s.execute = some t) : t.Within N := by
  obtain ⟨c, hc, rfl⟩ := Option.map_eq_some_iff.mp h
  obtain ⟨e, hand, -, rfl⟩ := step_execute hc
  have rest : ∀ b, Event.incremental b ∈ s.queue → N b := fun b hb =>
    hs.events b (List.mem_append_right _ hb)
  rw [hand]
  cases e with
  | incremental node =>
    have hnode : N node := hs.events node (by simp [Schedular.pending, hand])
    exact { hs with
      here := hnode
      loading := fun b hb => Option.some.inj hb ▸ hnode
      events := rest }
  | _ => exact { hs with events := rest }

theorem insert (hs : s.Within N) (h : s.insert = some t) : t.Within N := by
  unfold Sharer.insert at h
  split at h
  · next ls hls =>
    obtain ⟨c, hc, rfl⟩ := Option.map_eq_some_iff.mp h
    obtain ⟨p, hp, rfl⟩ := Option.map_eq_some_iff.mp hc
    refine { hs with events := fun b hb => hs.events b ?_, header := by simp }
    simpa [Schedular.pending] using hb
  · cases h

theorem giveUp (hs : s.Within N) : s.giveUp.Within N :=
  { hs with header := by simp [Sharer.giveUp] }

theorem read (hs : s.Within N) (r : Reply) : (s.read r).Within N := by
  unfold Sharer.read
  split
  · exact hs.giveUp
  · exact { hs with }

end Within

end Sharer

section Formulas

variable {Model : Type} {frame : Branch → Set Model} {sem : Bytes → Set Model} {p q : Branch}
  {l : NetLemma}

/-- What is asserted at an AND node and above. -/
def formula (frame : Branch → Set Model) (b : Branch) : Set Model :=
  { v | ∀ k, 2 * k ≤ b.length → v ∈ frame (b.take (2 * k)) }

theorem formula_anti (h : p <+: q) : formula frame q ⊆ formula frame p := by
  intro v hv k hk
  have htake : p.take (2 * k) = q.take (2 * k) := by
    obtain ⟨r, rfl⟩ := h
    exact (List.take_append_of_le_length hk).symm
  exact htake ▸ hv k (hk.trans h.length_le)

/-- A lemma follows from the frames of a node down to its own level. -/
def Entailed (frame : Branch → Set Model) (sem : Bytes → Set Model) (b : Branch)
    (l : NetLemma) : Prop :=
  ∃ k : Nat, l.level = k ∧ 2 * k ≤ b.length ∧ formula frame (b.take (2 * k)) ⊆ sem l.clause

namespace Sharer

/-- The models of what a solver has asserted down to a level, lemmas included. -/
def models (frame : Branch → Set Model) (sem : Bytes → Set Model) (s : Sharer) (k : Nat) :
    Set Model :=
  { v | v ∈ formula frame (s.loaded.take (2 * k)) ∧
    ∀ e ∈ s.lemmas, e.1.length ≤ 2 * k → v ∈ sem e.2.clause }

/-- What is relied on of a solver: a lemma follows from what is asserted down to its level. -/
def Learns (frame : Branch → Set Model) (sem : Bytes → Set Model) (s : Sharer)
    (l : NetLemma) : Prop :=
  ∃ k : Nat, l.level = k ∧ 2 * k ≤ s.loaded.length ∧ s.models frame sem k ⊆ sem l.clause

/-- All lemmas that a client has got or will send follow from the frames of their nodes. -/
structure Sound (frame : Branch → Set Model) (sem : Bytes → Set Model) (s : Sharer) : Prop where
  valid : Valid s.toSchedular
  lemmas : ∀ e ∈ s.lemmas, e.1 <+: s.loaded ∧ formula frame e.1 ⊆ sem e.2.clause
  learned : ∀ e ∈ s.learned, ∀ l ∈ e.2, Entailed frame sem e.1 l
  publishing : ∀ e ∈ s.publishing, ∀ l ∈ e.2, Entailed frame sem e.1 l
  contents : s.contents.length = s.pulledClauses.length
  pulled : ∀ e ∈ s.pulledClauses.zip s.contents, ∀ l ∈ e.2,
    formula frame e.1.request ⊆ sem l.clause
  answer : ∀ ls, s.answer = some ls → s.asking = false ∧
    ∃ p, s.header = some p ∧ ∀ l ∈ ls, formula frame p ⊆ sem l.clause

theorem sound_start (name : Bytes) (node : Branch) : (start name node).Sound frame sem where
  valid := valid_start node
  lemmas _ h := nomatch h
  learned _ h := nomatch h
  publishing _ h := nomatch h
  contents := rfl
  pulled _ h := nomatch h
  answer _ h := nomatch h

namespace Sound

variable {s t : Sharer}

/-- The lemmas add nothing to what is asserted anyway. -/
theorem models_eq (hs : s.Sound frame sem) (k : Nat) :
    s.models frame sem k = formula frame (s.loaded.take (2 * k)) := by
  refine Set.Subset.antisymm (fun v hv => hv.1) fun v hv => ⟨hv, fun e he hk => ?_⟩
  obtain ⟨hpre, hsem⟩ := hs.lemmas e he
  refine hsem (formula_anti ?_ hv)
  rw [List.prefix_take_iff]
  exact ⟨hpre, hk⟩

theorem entailed (hs : s.Sound frame sem) (hl : s.Learns frame sem l) :
    Entailed frame sem s.loaded l := by
  obtain ⟨k, hlevel, hk, hsub⟩ := hl
  exact ⟨k, hlevel, hk, hs.models_eq k ▸ hsub⟩

theorem learn (hs : s.Sound frame sem) (searching : s.loading = none) {ls : List NetLemma}
    (right : ∀ l ∈ ls, s.Learns frame sem l) {learned : Table Branch (List NetLemma)}
    (stores : s.Stores ls learned) : Sound frame sem { s with learned } where
  __ := hs
  learned e he l hl := by
    rcases (stores e he).2 l hl with ⟨e', he', same, hl⟩ | ⟨here, hl⟩
    · exact same ▸ hs.learned e' he' l hl
    · rw [here, ← hs.valid.loaded searching]
      exact hs.entailed (right l hl)

theorem swap (hs : s.Sound frame sem) {taken left : Table Branch (List NetLemma)}
    (swaps : s.Swaps taken left) :
    Sound frame sem { s with publishing := taken, learned := left } where
  __ := hs
  learned e he := hs.learned e (swaps.2 he)
  publishing e he := hs.learned e (swaps.1 he)

/-- A step that leaves the script, the batches and the request alone. -/
theorem keep {c : Schedular} (hs : s.Sound frame sem) (valid : Valid c)
    (loaded : c.loaded = s.loaded) (batches : c.pulledClauses = s.pulledClauses)
    (header : ∀ p, s.header = some p → c.header = some p) :
    Sound frame sem { s with toSchedular := c } where
  valid := valid
  lemmas e he := loaded ▸ hs.lemmas e he
  learned := hs.learned
  publishing := hs.publishing
  contents := batches ▸ hs.contents
  pulled := batches ▸ hs.pulled
  answer ls hls := by
    obtain ⟨hask, p, hp, hl⟩ := hs.answer ls hls
    exact ⟨hask, p, header p hp, hl⟩

theorem plain {a : Act} (hs : s.Sound frame sem) (h : s.plain a = some t) :
    t.Sound frame sem := by
  obtain ⟨c, hc, rfl, harmless, loaded, batches, header⟩ := plain_cases h
  exact hs.keep (hs.valid.step harmless hc) loaded batches header

theorem load (hs : s.Sound frame sem) (h : s.load = some t) : t.Sound frame sem := by
  obtain ⟨c, hc, rfl⟩ := Option.map_eq_some_iff.mp h
  have valid := hs.valid.step (a := .load) trivial hc
  obtain ⟨node, -, rfl⟩ := Option.map_eq_some_iff.mp hc
  refine ⟨valid, fun e he => ?_, hs.learned, hs.publishing, hs.contents, hs.pulled, hs.answer⟩
  obtain ⟨he, hpre⟩ := List.mem_filter.mp he
  exact ⟨List.isPrefixOf_iff_prefix.mp hpre, (hs.lemmas e he).2⟩

/-- The batches that pass the test were asked for at ancestors of the loaded node. -/
theorem injected {node : Branch} (hs : s.Sound frame sem)
    (hand : s.hand = some (.clauseInjection node)) (loaded : s.loading = none)
    (hl : l ∈ s.pulled node) : formula frame s.loaded ⊆ sem l.clause := by
  obtain ⟨e, he, hle⟩ := List.mem_flatMap.mp hl
  obtain ⟨he, htest⟩ := List.mem_filter.mp he
  have harmless := (hs.valid.stored e.1 (List.of_mem_zip he).1).2
  rw [Schedular.pending, hand] at harmless
  have hpre : e.1.request <+: s.currentHeader := harmless (node, s.currentHeader) rfl htest
  rw [hs.valid.loaded loaded]
  exact (formula_anti hpre).trans (hs.pulled e he l hle)

theorem execute (hs : s.Sound frame sem) (h : s.execute = some t) : t.Sound frame sem := by
  obtain ⟨c, hc, rfl⟩ := Option.map_eq_some_iff.mp h
  have valid := hs.valid.step (a := .execute) trivial hc
  obtain ⟨e, hand, loaded, rfl⟩ := step_execute hc
  rw [hand]
  cases e with
  | clauseInjection node =>
    refine ⟨valid, fun e he => ?_, hs.learned, hs.publishing, rfl, by simp, hs.answer⟩
    rcases List.mem_append.mp he with he | he
    · exact hs.lemmas e he
    · obtain ⟨l, hl, rfl⟩ := List.mem_map.mp he
      exact ⟨List.prefix_rfl, hs.injected hand loaded hl⟩
  | _ => exact ⟨valid, hs.lemmas, hs.learned, hs.publishing, hs.contents, hs.pulled, hs.answer⟩

theorem insert (hs : s.Sound frame sem) (harmless : InsertHarmless s.toSchedular .insert)
    (h : s.insert = some t) : t.Sound frame sem := by
  unfold Sharer.insert at h
  split at h
  · next ls hls =>
    obtain ⟨c, hc, rfl⟩ := Option.map_eq_some_iff.mp h
    have valid := hs.valid.step harmless hc
    obtain ⟨p, hp, rfl⟩ := Option.map_eq_some_iff.mp hc
    obtain ⟨-, p', hp', hl⟩ := hs.answer ls hls
    cases hp.symm.trans hp'
    refine ⟨valid, hs.lemmas, hs.learned, hs.publishing, ?_, fun e he => ?_, fun _ h => nomatch h⟩
    · rw [List.length_append, List.length_append, hs.contents]
      rfl
    · rw [List.zip_append hs.contents.symm] at he
      rcases List.mem_append.mp he with he | he
      · exact hs.pulled e he
      · obtain rfl := List.mem_singleton.mp he
        exact hl
  · cases h

theorem giveUp (hs : s.Sound frame sem) (waiting : s.answer = none) : s.giveUp.Sound frame sem where
  valid := ⟨hs.valid.loading, hs.valid.loaded, hs.valid.stored, hs.valid.asserted⟩
  lemmas := hs.lemmas
  learned := hs.learned
  publishing := hs.publishing
  contents := hs.contents
  pulled := hs.pulled
  answer _ hls := nomatch waiting.symm.trans hls

theorem read {r : Reply} {p : Branch} (hs : s.Sound frame sem) (waiting : s.answer = none)
    (header : s.header = some p) (right : ∀ l ∈ r.body, formula frame p ⊆ sem l.clause) :
    (s.read r).Sound frame sem := by
  unfold Sharer.read
  split
  · exact hs.giveUp waiting
  · refine ⟨hs.valid, hs.lemmas, hs.learned, hs.publishing, hs.contents, hs.pulled, ?_⟩
    intro ls hls
    obtain rfl := Option.some.inj hls
    exact ⟨rfl, p, header, right⟩

end Sound

end Sharer

end Formulas

end Smts.Client
