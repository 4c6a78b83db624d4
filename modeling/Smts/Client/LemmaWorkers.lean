import Smts.Client.LemmaSocket

namespace Smts.Client.SolverServer

open Smts.Server

/-- The workers that exchange clauses with the lemma server. -/
def lemmaWorkers : List TaskName := [.clausePush, .clausePull, .clauseLearn]

/-- How often a task was handed to the thread pool. -/
def handed (c : SolverServer) (w : TaskName) : Nat := c.tasks.countP (·.name = w)

/-- A command `SOLVE` whose seed is not zero. -/
def Solves (parts : Parts) (h : Header) : Prop :=
  (h.lookup Constant.logMode).any parts.toBool = false ∧
    h.lookup Constant.command = some Constant.solve ∧ atoi (parts.seed h) ≠ 0

instance (parts : Parts) (h : Header) : Decidable (Solves parts h) :=
  inferInstanceAs (Decidable (_ ∧ _ ∧ _))

/-- In every state on the way no worker was started twice, and once the client has read its
instance and has a socket to the lemma server, all of them were started. -/
def StartedOnce (parts : Parts) (messages : List Header) : Prop :=
  ∀ handled, handled <+: messages → ∀ w ∈ lemmaWorkers,
    (handled.foldl (handleEvent parts) {}).handed w ≤ 1 ∧
      ((handled.foldl (handleEvent parts) {}).lemmaServerSocket ≠ none →
        (∃ h ∈ handled, Solves parts h ∧ parts.parses h = true) →
        1 ≤ (handled.foldl (handleEvent parts) {}).handed w)

section Commands

variable {parts : Parts} {c : SolverServer} {h : Header} {w : TaskName}

theorem handed_pushToPool (t : PoolTask) :
    (c.pushToPool t).handed w = c.handed w + if t.name = w then 1 else 0 := by
  simp [handed, pushToPool, List.countP_append, List.countP_cons]

@[simp] theorem handed_increase (n : Nat) : (c.increase n).handed w = c.handed w := rfl

theorem handed_pushLemmaWorkers (hw : w ∈ lemmaWorkers) :
    c.pushLemmaWorkers.handed w = c.handed w + 1 := by
  simp only [lemmaWorkers, List.mem_cons, List.not_mem_nil, or_false] at hw
  simp only [pushLemmaWorkers, handed_pushToPool]
  rcases hw with rfl | rfl | rfl <;> simp

theorem handed_queueEvent : (c.queueEvent h).handed w = c.handed w := by
  simp only [queueEvent]
  split
  · rfl
  · split <;> rfl

theorem handed_setUpThreadArch (hw : w ∈ lemmaWorkers) :
    (c.setUpThreadArch h).handed w =
      c.handed w + if c.seed ≠ 0 ∧ c.lemmaServerSocket ≠ none then 1 else 0 := by
  have hmemory : TaskName.memoryCheck ≠ w := by rintro rfl; simp [lemmaWorkers] at hw
  have hcommunication : TaskName.communication ≠ w := by rintro rfl; simp [lemmaWorkers] at hw
  simp only [setUpThreadArch, handed_pushToPool, if_neg hcommunication, handed_increase]
  split <;> split <;>
    simp [handed_pushToPool, handed_pushLemmaWorkers hw, hmemory]

theorem handed_handleLemmas (hw : w ∈ lemmaWorkers) :
    (c.handleLemmas h).handed w = c.handed w + if c.seed ≠ 0 then 1 else 0 := by
  have hpushed (d : SolverServer) (n : Nat) (hd : d.tasks = c.tasks) :
      (if d.seed ≠ 0 then (d.increase n).pushLemmaWorkers else d).handed w =
        c.handed w + if d.seed ≠ 0 then 1 else 0 := by
    have hsame : d.handed w = c.handed w := by rw [handed, handed, hd]
    split
    · rw [handed_pushLemmaWorkers hw, handed_increase, hsame]
    · exact hsame
  exact hpushed _ 3 rfl

theorem seed_handleLemmas : (c.handleLemmas h).seed = c.seed := by
  simp only [handleLemmas]
  split <;> rfl

theorem running_handleLemmas : (c.handleLemmas h).running = c.running := by
  simp only [handleLemmas]
  split <;> rfl

theorem seed_queueEvent : (c.queueEvent h).seed = c.seed := by
  simp only [queueEvent]
  split
  · rfl
  · split <;> rfl

theorem running_queueEvent (hcommand : h.lookup Constant.command = some Constant.solve) :
    (c.queueEvent h).running = c.running := by
  rw [queueEvent, entry, hcommand, if_neg (by decide)]
  split <;> rfl

theorem same_setUpThreadArch :
    (c.setUpThreadArch h).seed = c.seed ∧ (c.setUpThreadArch h).running = c.running := by
  simp only [setUpThreadArch]
  split <;> split <;> exact ⟨by simp only [pushToPool, increase, pushLemmaWorkers],
    by simp only [pushToPool, increase, pushLemmaWorkers]⟩

theorem handleEvent_told (hc : c.running = true) {a : String} (ht : told parts h = some a) :
    handleEvent parts c h = c.handleLemmas h ∧ entry h Constant.lemmas = a := by
  rw [told] at ht
  split at ht
  · simp at ht
  · rename_i hlog
    split at ht
    · rename_i hcommand
      refine ⟨?_, Option.some.inj ht⟩
      rw [handleEvent, if_neg (by simp [hc]), if_neg hlog, hcommand]
      rfl
    · simp at ht

theorem handleEvent_solves (hc : c.running = true) (hs : Solves parts h) :
    handleEvent parts c h = handleSolve parts c h := by
  rw [handleEvent, if_neg (by simp [hc]), if_neg (by simp [hs.1]), hs.2.1]
  rfl

theorem told_solves (hs : Solves parts h) : told parts h = none := by
  rw [told, if_neg (by simp [hs.1]), hs.2.1, if_neg (by decide)]

theorem not_solves_of_told {a : String} (ht : told parts h = some a) : ¬ Solves parts h :=
  fun hs => absurd (ht.symm.trans (told_solves hs)) (Option.some_ne_none a)

/-- What a run of commands `LEMMAS` does to a client. -/
theorem foldl_lemmas (messages : List Header) (hm : ∀ h ∈ messages, (told parts h).isSome)
    (hw : w ∈ lemmaWorkers) (hc : c.running = true) :
    let d := messages.foldl (handleEvent parts) c
    d.running = true ∧ d.seed = c.seed ∧
      d.handed w = c.handed w + (if c.seed ≠ 0 then messages.length else 0) := by
  induction messages generalizing c with
  | nil => simp [hc]
  | cons h messages ih =>
    obtain ⟨a, ha⟩ := Option.isSome_iff_exists.mp (hm h List.mem_cons_self)
    rw [List.foldl_cons, (handleEvent_told hc ha).1]
    obtain ⟨hr, hs, hn⟩ := ih (fun _ hg => hm _ (List.mem_cons_of_mem _ hg))
      (running_handleLemmas.trans hc)
    refine ⟨hr, hs.trans seed_handleLemmas, ?_⟩
    rw [hn, handed_handleLemmas hw, seed_handleLemmas, List.length_cons]
    split <;> omega

/-- What a command `SOLVE` does to a client. -/
theorem handed_solves (hw : w ∈ lemmaWorkers) (hc : c.running = true) (hs : Solves parts h) :
    let d := handleEvent parts c h
    d.running = true ∧ d.seed ≠ 0 ∧ d.lemmaServerSocket = c.lemmaServerSocket ∧
      d.handed w = c.handed w +
        if parts.parses h = true ∧ c.lemmaServerSocket ≠ none then 1 else 0 := by
  rw [handleEvent_solves hc hs]
  refine ⟨?_, ?_, lemmaServerSocket_handleSolve, ?_⟩
  · rw [handleSolve]
    split
    · exact (running_queueEvent hs.2.1).trans (same_setUpThreadArch.2.trans hc)
    · exact hc
  · rw [handleSolve]
    split
    · rw [seed_queueEvent, same_setUpThreadArch.1]
      exact hs.2.2
    · exact hs.2.2
  · rw [handleSolve]
    split
    · rename_i hp
      rw [handed_queueEvent, handed_setUpThreadArch hw]
      simp [hs.2.2, hp]
      rfl
    · rename_i hp
      simp [hp]
      rfl

end Commands

section Order

variable {parts : Parts} {before after : List Header} {solve : Header} {w : TaskName}

/-- An address of the lemma server was announced. -/
def Announced (parts : Parts) (messages : List Header) : Prop :=
  ∃ a ∈ messages.filterMap (told parts), a ≠ ""

instance (parts : Parts) (messages : List Header) : Decidable (Announced parts messages) :=
  inferInstanceAs (Decidable (∃ a ∈ _, _))

theorem socket_iff_announced (messages : List Header)
    (hr : (messages.foldl (handleEvent parts) {}).running = true) :
    (messages.foldl (handleEvent parts) {}).lemmaServerSocket ≠ none ↔
      Announced parts messages := by
  rw [lemmaServerSocket_foldl messages hr, foldl_connect, Announced, Ne, List.find?_eq_none]
  push Not
  simp only [decide_eq_true_eq]

theorem handed_before (hb : ∀ h ∈ before, (told parts h).isSome) (hw : w ∈ lemmaWorkers) :
    (before.foldl (handleEvent parts) {}).running = true ∧
      (before.foldl (handleEvent parts) {}).handed w = 0 := by
  obtain ⟨hr, -, hn⟩ := foldl_lemmas (c := {}) before hb hw rfl
  exact ⟨hr, by simpa [handed] using hn⟩

/-- How often a worker is started: by the command `SOLVE` if the client has a socket by then,
and by every later command `LEMMAS`. -/
theorem handed_through (hb : ∀ h ∈ before, (told parts h).isSome)
    (ha : ∀ h ∈ after, (told parts h).isSome) (hs : Solves parts solve) (hw : w ∈ lemmaWorkers) :
    ((before ++ solve :: after).foldl (handleEvent parts) {}).running = true ∧
      ((before ++ solve :: after).foldl (handleEvent parts) {}).handed w =
        (if parts.parses solve = true ∧ Announced parts before then 1 else 0) + after.length := by
  obtain ⟨hr, hn⟩ := handed_before hb hw
  obtain ⟨hr', hseed, -, hn'⟩ := handed_solves hw hr hs
  obtain ⟨hr'', -, hn''⟩ := foldl_lemmas after ha hw hr'
  rw [List.foldl_append, List.foldl_cons]
  refine ⟨hr'', ?_⟩
  rw [hn'', hn', hn, if_pos hseed, zero_add]
  simp only [socket_iff_announced before hr]

theorem cut_through {handled : List Header} (h : handled <+: before ++ solve :: after) :
    handled <+: before ∨ ∃ some, some <+: after ∧ handled = before ++ solve :: some := by
  rcases List.prefix_or_prefix_of_prefix h (List.prefix_append before (solve :: after)) with h' | h'
  · exact .inl h'
  · obtain ⟨rest, rfl⟩ := h'
    rw [List.prefix_append_right_inj] at h
    rcases List.prefix_cons_iff.mp h with rfl | ⟨some, rfl, hsome⟩
    · exact .inl (by simp)
    · exact .inr ⟨some, hsome, rfl⟩

/-- The workers are started once if and only if a client that had an address before the command
`SOLVE` gets no command `LEMMAS` after it, and any other client gets one at most. -/
theorem workers_started_once (parts : Parts) (before after : List Header) (solve : Header)
    (hb : ∀ h ∈ before, (told parts h).isSome) (ha : ∀ h ∈ after, (told parts h).isSome)
    (hs : Solves parts solve) :
    StartedOnce parts (before ++ solve :: after) ↔
      after.length ≤ 1 ∧ (parts.parses solve = true → Announced parts before → after = []) := by
  constructor
  · intro h
    have hw : TaskName.clausePush ∈ lemmaWorkers := by decide
    have hle := (h _ List.prefix_rfl _ hw).1
    rw [(handed_through hb ha hs hw).2] at hle
    refine ⟨by omega, fun hp hannounced => ?_⟩
    rw [if_pos ⟨hp, hannounced⟩] at hle
    exact List.length_eq_zero_iff.mp (by omega)
  · rintro ⟨hlength, hlate⟩ handled hhandled w hw
    rcases cut_through hhandled with hcut | ⟨some, hsome, rfl⟩
    · have hb' : ∀ h ∈ handled, (told parts h).isSome := fun h hh => hb h (hcut.subset hh)
      refine ⟨by simp [(handed_before hb' hw).2], fun _ => ?_⟩
      rintro ⟨h, hh, hsolves, -⟩
      obtain ⟨a, ht⟩ := Option.isSome_iff_exists.mp (hb' h hh)
      exact absurd hsolves (not_solves_of_told ht)
    · have ha' : ∀ h ∈ some, (told parts h).isSome := fun h hh => ha h (hsome.subset hh)
      obtain ⟨hr, hn⟩ := handed_through hb ha' hs hw
      have hle := hsome.length_le
      rw [hn]
      constructor
      · split
        · rename_i hearly
          rw [hlate hearly.1 hearly.2, List.length_nil] at hle
          omega
        · omega
      · rw [socket_iff_announced _ hr]
        rintro ⟨a, hmem, hne⟩ ⟨h, hh, hsolves, hp⟩
        have heq : h = solve := by
          simp only [List.mem_append, List.mem_cons] at hh
          rcases hh with hh | rfl | hh
          · obtain ⟨b, ht⟩ := Option.isSome_iff_exists.mp (hb h hh)
            exact absurd hsolves (not_solves_of_told ht)
          · rfl
          · obtain ⟨b, ht⟩ := Option.isSome_iff_exists.mp (ha' h hh)
            exact absurd hsolves (not_solves_of_told ht)
        subst heq
        by_cases hearly : Announced parts before
        · rw [if_pos ⟨hp, hearly⟩]
          omega
        · have hlater : some ≠ [] := by
            rintro rfl
            refine hearly ⟨a, ?_, hne⟩
            simpa [List.filterMap_append, List.filterMap_cons_none (told_solves hsolves)] using hmem
          have := List.length_pos_iff.mpr hlater
          omega

end Order

/-- An instance is solved while two lemma servers register. -/
def twoLemmaServers : List Server.Event :=
  [.accept "a", .message 1 [(Constant.solver, "OpenSMT2")] (some ""), .accept "b",
    .message 3 [(Constant.command, Constant.solve), (Constant.name, "a.smt2")]
      (some "(assert true)"), .timeout, .accept "c", .accept "d",
    .message 4 [(Constant.lemmas, ":5000")] (some ""),
    .message 5 [(Constant.lemmas, ":6000")] (some "")]

def solveCommand : Header :=
  [("parameter.seed", "75674532"), ("parameter.split-type", ":scatter-split"),
    (Constant.command, Constant.solve), (Constant.name, "a.smt2"), (Constant.node, "[]"),
    (Constant.query, "(check-sat)"), ("max_memory", "10000")]

def lemmasCommand (address : String) : Header :=
  [(Constant.command, Constant.lemmas), (Constant.lemmaAmount, "1000"),
    (Constant.lemmas, address), (Constant.lemmaPushMin, "15000"), (Constant.lemmaPullMin, "20000"),
    (Constant.lemmaPushMax, "30000"), (Constant.lemmaPullMax, "40000")]

theorem workers_started_once_lemmas :
    (∀ h ∈ [lemmasCommand ""], (told plainly h).isSome) ∧ Solves plainly solveCommand ∧
      StartedOnce plainly ([lemmasCommand ""] ++ solveCommand :: [lemmasCommand "c:5000"]) := by
  have hb : ∀ h ∈ [lemmasCommand ""], (told plainly h).isSome := by decide +kernel
  have hs : Solves plainly solveCommand := by decide +kernel
  refine ⟨hb, hs, ?_⟩
  exact (workers_started_once plainly [lemmasCommand ""] [lemmasCommand "c:5000"] solveCommand hb
    (by decide +kernel) hs).mpr ⟨by decide, by decide +kernel⟩

/-- The second lemma server makes the solver start its workers again. -/
theorem workers_started_twice :
    ∃ s, Turns (fun _ _ => True) (State.init Env.steady {}) s ∧
      messagesTo s 2 = [solveCommand, lemmasCommand "c:5000", lemmasCommand "d:6000"] ∧
      Solves plainly solveCommand ∧
      (∀ h ∈ [lemmasCommand "c:5000", lemmasCommand "d:6000"], (told plainly h).isSome) ∧
      ¬ StartedOnce plainly (messagesTo s 2) := by
  obtain ⟨s, h, messages, solves, telling, twice⟩ := Lib.exists_of_any
    (o := twoLemmaServers.foldlM (Lib.guarded (State.turn 0) fun _ _ => True)
      (State.init Env.steady {}))
    (P := fun s => messagesTo s 2 =
        [solveCommand, lemmasCommand "c:5000", lemmasCommand "d:6000"] ∧
      Solves plainly solveCommand ∧
      (∀ h ∈ [lemmasCommand "c:5000", lemmasCommand "d:6000"], (told plainly h).isSome) ∧
      ¬ ((messagesTo s 2).foldl (handleEvent plainly) {}).handed .clausePush ≤ 1)
    (by decide +kernel)
  exact ⟨s, .of_run (.of_script h), messages, solves, telling, fun hstarted =>
    twice (hstarted _ List.prefix_rfl .clausePush (by decide)).1⟩

end Smts.Client.SolverServer
