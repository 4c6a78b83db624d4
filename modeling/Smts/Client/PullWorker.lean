import Mathlib.Data.List.Infix
import Smts.Lib.Run
import Smts.Server.Framework

namespace Smts.Client

open Smts.Server (render)

/-- The path of a node, as it stands in the `NODE` field of a header. -/
abbrev Branch := List Nat

inductive Event
  | resume
  | partition
  | incremental (node : Branch)
  | clauseInjection (node : Branch)
  deriving DecidableEq

/-- A batch of pulled clauses under the branch it is stored for.  `request` is the
branch it was asked for; the channel does not keep it. -/
structure Batch where
  branch : Branch
  request : Branch
  deriving DecidableEq

/-- A batch that was asserted while the solver had the script of `loaded`. -/
structure Assertion where
  request : Branch
  loaded : Branch
  deriving DecidableEq

/-- A solver client after the command `SOLVE`.  `hand` is the event that the
communicator has popped and not yet executed, `loading` the script that a solver
task still has to read. -/
structure Schedular where
  currentHeader : Branch
  queue : List Event
  hand : Option Event := none
  pulledClauses : List Batch := []
  header : Option Branch := none
  loaded : Branch
  loading : Option Branch := none
  asserted : List Assertion := []
  deriving DecidableEq

def Schedular.start (node : Branch) : Schedular where
  currentHeader := node
  queue := [.resume]
  loaded := node

/-- `branch.substr(1, branch.size() - 2)`. -/
def inner (b : Branch) : List Char := ((render b).toList.drop 1).dropLast

/-- `s.size() >= t.size() and std::equal(t.begin(), t.end(), s.begin())`. -/
def isPrefix (s t : List Char) : Bool := t.isPrefixOf s

/-- `SolverProcess::add_constraint`: the batches whose branch passes the test. -/
def addConstraint (clauses : List Batch) (branch : Branch) : List Batch :=
  clauses.filter fun b => isPrefix (inner b.branch) (inner branch)

/-- `Schedular::execute_event`, and the solver task that is started after it. -/
def executeEvent (c : Schedular) : Event → Schedular
  | .incremental node => { c with currentHeader := node, loading := some node }
  | .clauseInjection node => { c with
      pulledClauses := []
      asserted := c.asserted ++
        (addConstraint c.pulledClauses node).map fun b => ⟨b.request, c.loaded⟩ }
  | .resume | .partition => c

inductive Act
  | pull
  | insert
  | nothingPulled
  | receive (e : Event)
  | pop
  | load
  | execute
  deriving DecidableEq

/-- One step of the pull worker, the listener, the communicator or a solver task.
Each holds the lock of the channel while it touches it. -/
def step (c : Schedular) : Act → Option Schedular
  | .pull => if c.header = none then some { c with header := some c.currentHeader } else none
  | .insert => c.header.map fun p => { c with
      pulledClauses := c.pulledClauses ++ [⟨c.currentHeader, p⟩]
      queue := c.queue ++ [.clauseInjection p]
      header := none }
  | .nothingPulled => c.header.map fun _ => { c with header := none }
  | .receive (.clauseInjection _) => none
  | .receive e => some { c with queue := c.queue ++ [e] }
  | .pop =>
    match c.hand, c.queue with
    | none, e :: es => some { c with hand := some e, queue := es }
    | _, _ => none
  | .load => c.loading.map fun node => { c with loaded := node, loading := none }
  | .execute =>
    -- the communicator waits for the solver task before it executes an event
    match c.hand, c.loading with
    | some e, none => some { executeEvent c e with hand := none }
    | _, _ => none

theorem step_pop {c d : Schedular} (h : step c .pop = some d) :
    ∃ e es, c.hand = none ∧ c.queue = e :: es ∧ d = { c with hand := some e, queue := es } := by
  simp only [step] at h
  split at h
  · next e es hh hq => exact ⟨e, es, hh, hq, (Option.some.inj h).symm⟩
  · exact nomatch h

theorem step_execute {c d : Schedular} (h : step c .execute = some d) :
    ∃ e, c.hand = some e ∧ c.loading = none ∧ d = { executeEvent c e with hand := none } := by
  simp only [step] at h
  split at h
  · next e hh hl => exact ⟨e, hh, hl, (Option.some.inj h).symm⟩
  · exact nomatch h

/-- The next injection among the events, and where the solver will be by then. -/
def nextInjection : Branch → List Event → Option (Branch × Branch)
  | _, [] => none
  | _, .incremental node :: es => nextInjection node es
  | at_, .clauseInjection node :: _ => some (node, at_)
  | at_, .resume :: es | at_, .partition :: es => nextInjection at_ es

/-- The events that are still to be executed. -/
def Schedular.pending (c : Schedular) : List Event := c.hand.toList ++ c.queue

/-- The batch stored under `branch` and asked for at `request` passes the test at
the next injection only if it is valid there. -/
def Harmless (c : Schedular) (pending : List Event) (branch request : Branch) : Prop :=
  ∀ r ∈ nextInjection c.currentHeader pending,
    isPrefix (inner branch) (inner r.1) = true → request <+: r.2

/-- What has to hold where the pull worker inserts a batch. -/
def InsertHarmless (c : Schedular) : Act → Prop
  | .insert => ∀ p ∈ c.header,
      Harmless c (c.pending ++ [.clauseInjection p]) c.currentHeader p
  | _ => True

instance (c : Schedular) (pending : List Event) (branch request : Branch) :
    Decidable (Harmless c pending branch request) :=
  inferInstanceAs (Decidable (∀ r ∈ nextInjection c.currentHeader pending,
    isPrefix (inner branch) (inner r.1) = true → request <+: r.2))

instance (c : Schedular) : (a : Act) → Decidable (InsertHarmless c a)
  | .insert => inferInstanceAs (Decidable (∀ p ∈ c.header,
      Harmless c (c.pending ++ [.clauseInjection p]) c.currentHeader p))
  | .pull | .nothingPulled | .receive _ | .pop | .load | .execute => .isTrue trivial

section NextInjection

variable {b : Branch} {l : List Event} {e : Event} {r : Branch × Branch}

theorem nextInjection_append (h : nextInjection b l = some r) (k : List Event) :
    nextInjection b (l ++ k) = some r := by
  induction l generalizing b with
  | nil => exact nomatch h
  | cons e es ih =>
    cases e with
    | resume => exact ih h
    | partition => exact ih h
    | incremental node => exact ih h
    | clauseInjection node => exact h

theorem nextInjection_concat (b : Branch) (l : List Event) (p : Branch) :
    ∃ r, nextInjection b (l ++ [.clauseInjection p]) = some r := by
  induction l generalizing b with
  | nil => exact ⟨_, rfl⟩
  | cons e es ih =>
    cases e with
    | resume => exact ih b
    | partition => exact ih b
    | incremental node => exact ih node
    | clauseInjection node => exact ⟨_, rfl⟩

end NextInjection

/-- The task loads the script of the current header, every stored batch is
harmless at the next injection, and everything asserted so far was valid. -/
structure Valid (c : Schedular) : Prop where
  loading : ∀ node, c.loading = some node → node = c.currentHeader
  loaded : c.loading = none → c.loaded = c.currentHeader
  stored : ∀ b ∈ c.pulledClauses, (∃ r, nextInjection c.currentHeader c.pending = some r) ∧
    Harmless c c.pending b.branch b.request
  asserted : ∀ a ∈ c.asserted, a.request <+: a.loaded

theorem valid_start (node : Branch) : Valid (Schedular.start node) where
  loading _ h := nomatch h
  loaded _ := rfl
  stored _ h := nomatch h
  asserted _ h := nomatch h

namespace Valid

variable {c d : Schedular}

/-- More events at the end change nothing for a stored batch. -/
theorem stored_append (h : Valid c) (k : List Event) (b : Batch) (hb : b ∈ c.pulledClauses) :
    (∃ r, nextInjection c.currentHeader (c.pending ++ k) = some r) ∧
      Harmless c (c.pending ++ k) b.branch b.request := by
  obtain ⟨⟨r, hr⟩, hh⟩ := h.stored b hb
  have happ := nextInjection_append hr k
  refine ⟨⟨r, happ⟩, fun r' hn hp => ?_⟩
  rw [happ, ← hr] at hn
  exact hh r' hn hp

theorem insert {p : Branch} (h : Valid c)
    (hc : Harmless c (c.pending ++ [.clauseInjection p]) c.currentHeader p) :
    Valid { c with
      pulledClauses := c.pulledClauses ++ [⟨c.currentHeader, p⟩]
      queue := c.queue ++ [.clauseInjection p]
      header := none } where
  loading := h.loading
  loaded := h.loaded
  stored b hb := by
    have hpend : c.hand.toList ++ (c.queue ++ [.clauseInjection p]) =
        c.pending ++ [.clauseInjection p] := (List.append_assoc _ _ _).symm
    rw [Schedular.pending]
    simp only [hpend]
    rcases List.mem_append.mp hb with hb | hb
    · exact h.stored_append _ b hb
    · rw [List.mem_singleton] at hb
      subst hb
      exact ⟨nextInjection_concat _ _ _, hc⟩
  asserted := h.asserted

theorem receive {e : Event} (h : Valid c) : Valid { c with queue := c.queue ++ [e] } where
  loading := h.loading
  loaded := h.loaded
  stored b hb := by
    have hpend : c.hand.toList ++ (c.queue ++ [e]) = c.pending ++ [e] :=
      (List.append_assoc _ _ _).symm
    rw [Schedular.pending]
    simp only [hpend]
    exact h.stored_append _ b hb
  asserted := h.asserted

/-- Executing the popped event keeps what is known of the stored batches: an
injection finds the solver where it was expected. -/
theorem execute {e : Event} (h : Valid c) (hhand : c.hand = some e) (hload : c.loading = none) :
    Valid { executeEvent c e with hand := none } := by
  have hpend : c.pending = e :: c.queue := by rw [Schedular.pending, hhand]; rfl
  cases e with
  | resume =>
    refine ⟨h.loading, h.loaded, fun b hb => ?_, h.asserted⟩
    have := h.stored b hb
    rw [hpend] at this
    exact this
  | partition =>
    refine ⟨h.loading, h.loaded, fun b hb => ?_, h.asserted⟩
    have := h.stored b hb
    rw [hpend] at this
    exact this
  | incremental node =>
    refine ⟨fun n hn => ?_, fun hn => (nomatch hn), fun b hb => ?_, h.asserted⟩
    · exact (Option.some.inj hn).symm
    · have := h.stored b hb
      rw [hpend] at this
      exact this
  | clauseInjection node =>
    refine ⟨h.loading, h.loaded, fun b hb => (nomatch hb), fun a ha => ?_⟩
    rcases List.mem_append.mp ha with ha | ha
    · exact h.asserted a ha
    · obtain ⟨b, hb, rfl⟩ := List.mem_map.mp ha
      obtain ⟨hb, htest⟩ := List.mem_filter.mp hb
      have hh := (h.stored b hb).2
      rw [hpend] at hh
      rw [h.loaded hload]
      exact hh (node, c.currentHeader) rfl htest

theorem step {a : Act} (h : Valid c) (hG : InsertHarmless c a) (hs : Client.step c a = some d) :
    Valid d := by
  cases a with
  | pull =>
    obtain ⟨-, rfl⟩ := Option.ite_some_none_eq_some.mp hs
    exact ⟨h.loading, h.loaded, h.stored, h.asserted⟩
  | insert =>
    obtain ⟨p, hp, rfl⟩ := Option.map_eq_some_iff.mp hs
    exact h.insert (hG p hp)
  | nothingPulled =>
    obtain ⟨p, -, rfl⟩ := Option.map_eq_some_iff.mp hs
    exact ⟨h.loading, h.loaded, h.stored, h.asserted⟩
  | receive e =>
    cases e with
    | clauseInjection node => exact nomatch hs
    | resume => cases hs; exact h.receive
    | partition => cases hs; exact h.receive
    | incremental node => cases hs; exact h.receive
  | pop =>
    obtain ⟨e, es, hhand, hqueue, rfl⟩ := step_pop hs
    refine ⟨h.loading, h.loaded, fun b hb => ?_, h.asserted⟩
    have hpend : c.pending = e :: es := by rw [Schedular.pending, hhand, hqueue]; rfl
    have hst := h.stored b hb
    rw [hpend] at hst
    exact hst
  | load =>
    obtain ⟨node, hnode, rfl⟩ := Option.map_eq_some_iff.mp hs
    exact ⟨fun _ hn => (nomatch hn), fun _ => h.loading node hnode, h.stored, h.asserted⟩
  | execute =>
    obtain ⟨e, hhand, hload, rfl⟩ := step_execute hs
    exact h.execute hhand hload

theorem run (h : Valid c) (hr : Lib.Run Client.step InsertHarmless c d) : Valid d :=
  hr.invariant (fun _ _ _ hc hG hs => hc.step hG hs) h

end Valid

/-- While every batch goes in where the next injection may use it, what is asserted
was asked for at an ancestor of the node whose script is loaded. -/
theorem pulled_clauses_valid {node : Branch} {c : Schedular}
    (hr : Lib.Run step InsertHarmless (.start node) c) : ∀ a ∈ c.asserted, a.request <+: a.loaded :=
  ((valid_start node).run hr).asserted

/-- A batch asked for at the root goes in after the move to a child. -/
def descent : List Act :=
  [.pull, .receive (.incremental [0, 1]), .pop, .execute, .pop, .execute, .load, .insert, .pop,
    .execute]

theorem pulled_clauses_valid_descent :
    ∃ c, descent.foldlM (Lib.guarded step InsertHarmless) (.start []) = some c ∧
      c.asserted = [⟨[], [0, 1]⟩] ∧ ∀ a ∈ c.asserted, a.request <+: a.loaded := by
  have h := (Option.some_get (x := descent.foldlM (Lib.guarded step InsertHarmless) (.start []))
    (by decide)).symm
  exact ⟨_, h, by decide, pulled_clauses_valid (.of_script h)⟩

/-- The same move, but from a node to its sibling. -/
def sidestep : List Act :=
  [.receive (.incremental [0, 0]), .pop, .execute, .pop, .execute, .load, .pull,
    .receive (.incremental [0, 1]), .insert, .pop, .execute, .load, .pop, .execute]

theorem pulled_clauses_sibling :
    ∃ c, Lib.Run step (fun _ _ => True) (.start []) c ∧ ∃ a ∈ c.asserted, ¬ a.request <+: a.loaded := by
  have h := (Option.some_get (x := sidestep.foldlM (Lib.guarded step fun _ _ => True) (.start []))
    (by decide)).symm
  exact ⟨_, Lib.Run.of_script h, ⟨[0, 0], [0, 1]⟩, by decide, by decide⟩

end Smts.Client
