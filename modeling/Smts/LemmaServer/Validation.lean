import Smts.LemmaServer.Ownership
import Smts.LemmaServer.Threads

namespace Smts.LemmaServer

open Smts.Lib
open Smts.Lib.Prog

/-- The worker gets to its end, or to a socket that cannot be written to. -/
def Completes (r : Except Exn Unit) : Prop := r = .ok () ∨ r = .error .socketException

/-- A message that is queued has the three keys, and the worker completes on it. -/
def Validated (env : Env) (client : Nat) (event : Event) (s : State) : Prop :=
  ∀ e, handleEvent event = .task e →
    (event.header.has "name" ∧ event.header.has "node" ∧ event.header.has "lemmas") ∧
      Completes (lemmaWorker env client e s).1

namespace Event

variable (event : Event)

/-- What `handle_event` lets pass: a missing key `lemmas` is none of its concerns. -/
def Queued : Prop :=
  get event.header "lemmas" ≠ utf8 "0" ∧ event.header.has "max_memory" = false ∧
    event.header.has "name" = true ∧ event.header.has "node" = true ∧
    2 ≤ (get event.header "node").length

/-- The message once the key `lemmas` has been looked up, which enters it. -/
def entered : Event :=
  { event with
    header := if event.header.has "lemmas" then event.header else event.header.set "lemmas" [] }

def WellFormed : Prop :=
  ∃ request p, event.count = some request ∧ event.path = some p ∧ event.Harmless p request

end Event

theorem completes_iff (env : Env) (client : Nat) (event : Event) (s : State) :
    Completes (lemmaWorker env client event s).1 ↔ event.WellFormed := by
  have hresolved := wp_resolve_event (s := s) event
  rw [lemmaWorker_eq, bind_run]
  rcases hr : resolve event s with ⟨e | ⟨path, n⟩, t⟩
  · obtain ⟨he, hnone, -⟩ := wp_error hresolved hr
    refine iff_of_false ?_ ?_
    · rintro (h | h)
      · cases h
      · cases h
        rcases he with h | h <;> cases h
    · rintro ⟨request, p, hcount, hpath, -⟩
      rcases hnone with h | h
      · rw [hcount] at h
        cases h
      · rw [hpath] at h
        cases h
  · obtain ⟨n', p, hcount, hpath, heq, hgrown, -⟩ := wp_ok hresolved hr
    obtain ⟨rfl, rfl⟩ := Prod.mk.inj heq
    have hwell : event.WellFormed ↔ event.Harmless p n := by
      refine ⟨fun ⟨n', p', hcount', hpath', h⟩ => ?_, fun h => ⟨n, p, hcount, hpath, h⟩⟩
      obtain rfl := Option.some.inj (hcount.symm.trans hcount')
      obtain rfl := Option.some.inj (hpath.symm.trans hpath')
      exact h
    rw [hwell]
    dsimp only
    rcases hserve : serve env client event p.inits n t with ⟨e | a, u⟩
    · rcases wp_error (wp_serve_owned hgrown) hserve with ⟨rfl, hharmless, -⟩ | ⟨hstray, hnot⟩
      · exact iff_of_true (.inr rfl) hharmless
      · refine iff_of_false ?_ hnot
        rintro (h | h)
        · cases h
        · cases h
          rcases hstray with h | h <;> cases h
    · exact iff_of_true (.inl rfl) (wp_ok (wp_serve_owned hgrown) hserve).1

section Entered

variable (event : Event)

theorem get_entered (k : String) : get event.entered.header k = get event.header k := by
  unfold Event.entered
  split
  · rfl
  · next h =>
    rw [get, Header.set, Table.find_put, get]
    split
    · next hk =>
      rw [Header.has, decide_eq_true_eq, hk] at h
      exact (Table.find_of_notMem h).symm
    · rfl

theorem has_entered {k : String} (hk : k ≠ "lemmas") :
    event.entered.header.has k = event.header.has k := by
  unfold Event.entered
  split
  · rfl
  · rw [Header.has, Header.set, Header.has, decide_eq_decide, Table.mem_keys_put]
    exact or_iff_right fun h => hk (utf8_injective h)

theorem has_entered_lemmas : event.entered.header.has "lemmas" = true := by
  unfold Event.entered
  split
  · next h => exact h
  · exact decide_eq_true (Table.mem_keys_put.mpr (.inl rfl))

theorem wellFormed_entered : event.entered.WellFormed ↔ event.WellFormed := by
  have hbody : event.entered.body = event.body := rfl
  simp only [Event.WellFormed, Event.count, Event.path, Event.Harmless, Event.sign, get_entered,
    hbody]

theorem handleEvent_eq_task (e : Event) :
    handleEvent event = .task e ↔ event.Queued ∧ event.entered = e := by
  have hhandle : handleEvent event =
      if get event.entered.header "lemmas" = utf8 "0" then .exit
      else if event.entered.header.has "max_memory" then .nothing
      else if !event.entered.header.has "name" || !event.entered.header.has "node" ||
        !event.entered.header.has "lemmas" then .nothing
      else if (get event.entered.header "node").length < 2 then .nothing
      else .task event.entered := rfl
  rw [hhandle, has_entered_lemmas, get_entered, get_entered, has_entered event (by decide),
    has_entered event (by decide), has_entered event (by decide), Event.Queued]
  by_cases hexit : get event.header "lemmas" = utf8 "0"
  · simp [hexit]
  · rw [if_neg hexit]
    by_cases hmemory : event.header.has "max_memory" = true
    · simp [hmemory]
    · rw [if_neg hmemory]
      by_cases hkeys : event.header.has "name" = true ∧ event.header.has "node" = true
      · rw [if_neg (by simp [hkeys.1, hkeys.2])]
        by_cases hsize : (get event.header "node").length < 2
        · simp [hsize]
        · simp [hsize, hexit, hmemory, hkeys.1, hkeys.2, Nat.le_of_not_lt hsize]
      · rw [if_pos (by simpa [imp_iff_not_or] using hkeys)]
        simpa using fun _ _ hname hnode => absurd ⟨hname, hnode⟩ hkeys

end Entered

theorem has_of_count {event : Event} {n : Nat} (h : event.count = some n) :
    event.header.has "lemmas" = true := by
  by_contra hlemmas
  rw [Header.has, decide_eq_true_eq] at hlemmas
  rw [Event.count, Event.sign, get, Table.find_of_notMem hlemmas] at h
  cases h

/-- Validation is complete if and only if what `handle_event` lets pass is well formed. -/
theorem validation_complete (env : Env) (client : Nat) (event : Event) (s : State) :
    Validated env client event s ↔ (event.Queued → event.WellFormed) := by
  constructor
  · intro h hq
    obtain ⟨-, hrun⟩ := h event.entered ((handleEvent_eq_task event _).mpr ⟨hq, rfl⟩)
    exact (wellFormed_entered event).mp ((completes_iff env client _ s).mp hrun)
  · intro h e he
    obtain ⟨hq, rfl⟩ := (handleEvent_eq_task event e).mp he
    have hwell := h hq
    refine ⟨⟨hq.2.2.1, hq.2.2.2.1, ?_⟩, ?_⟩
    · obtain ⟨n, p, hcount, -⟩ := hwell
      exact has_of_count hcount
    · exact (completes_iff env client _ s).mpr ((wellFormed_entered event).mpr hwell)

/-- A message without lemmas. -/
def lemmaless : Event where
  header := [(utf8 "name", utf8 "a.smt2"), (utf8 "node", utf8 "[]")]

/-- It is queued, and the worker looks behind the first letter of nothing. -/
theorem validation_incomplete :
    lemmaless.header.has "lemmas" = false ∧ handleEvent lemmaless = .task lemmaless.entered ∧
      (lemmaWorker .sorting 1 lemmaless.entered {}).1 = .error .outOfRange ∧
      ¬ Validated .sorting 1 lemmaless {} := by
  have hqueued : handleEvent lemmaless = .task lemmaless.entered := by rfl
  have hrun : (lemmaWorker .sorting 1 lemmaless.entered {}).1 = .error .outOfRange := by rfl
  refine ⟨by decide, hqueued, hrun, fun h => ?_⟩
  rcases (h _ hqueued).2 with hok | hsocket
  · rw [hrun] at hok
    cases hok
  · rw [hrun] at hsocket
    cases hsocket

end Smts.LemmaServer
