import Smts.Client.Communicator

namespace Smts.Client

namespace Communicator

variable {c d : Communicator} {i j : Nat} {t : Task} {p : Phase} {r : Result} {b : Branch}

/-- The task fits to the header of the channel: it has loaded that script, or is about
to, and its result was computed there. -/
def Aligned (header loaded : Branch) (t : Task) : Prop :=
  match t.phase with
  | .submitted => t.event.branch loaded = header
  | .searching => loaded = header
  | .computed _ b | .raised _ b | .returned _ b => b = header ∧ loaded = header

/-- The points between taking a result and submitting the next task. -/
def Pc.between : Pc → Prop
  | .reporting .. | .answering .. | .executing _ | .submitting _ => True
  | .waiting | .taking | .holding _ | .stopping _ => False

def Returned (c : Communicator) (i : Nat) (r : Result) (b : Branch) : Prop :=
  ∃ e, c.tasks[i]? = some ⟨e, .returned r b⟩

/-- The script is the one of the header, or will be once the next task has loaded it. -/
def Settled (c : Communicator) : Prop :=
  match c.pc with
  | .submitting e => e.branch c.loaded = c.currentHeader
  | _ => c.loaded = c.currentHeader

/-- The result in hand is that of a task that ran under the header. -/
def InHand (c : Communicator) : Prop :=
  match c.pc with
  | .reporting i r | .answering _ i r =>
    c.Returned i r c.currentHeader ∧ i ∉ c.reports.map Report.task
  | _ => True

structure Consistent (c : Communicator) : Prop where
  idle : ∀ i t, c.tasks[i]? = some t → c.future ≠ some i → ∃ r b, t.phase = .returned r b
  future : ∀ i, c.future = some i →
    (∃ t, c.tasks[i]? = some t ∧ Aligned c.currentHeader c.loaded t) ∧
      i ∉ c.reports.map Report.task
  between : Pc.between c.pc → c.future = none
  settled : c.future = none → c.Settled
  inHand : c.InHand
  reported : ∀ p ∈ c.reports, c.Returned p.task p.result p.node
  nodup : (c.reports.map Report.task).Nodup

theorem consistent_start (node : Branch) : Consistent (start node) where
  idle _ _ ht := nomatch ht
  future _ hf := nomatch hf
  between _ := rfl
  settled _ := rfl
  inHand := trivial
  reported _ hp := nomatch hp
  nodup := List.nodup_nil

@[simp] theorem setPhase_getElem? (c : Communicator) (i j : Nat) (p : Phase) :
    (c.setPhase i p).tasks[j]? =
      if i = j then (c.tasks[j]?).map (fun t => { t with phase := p }) else c.tasks[j]? := by
  simp only [setPhase, List.getElem?_modify]
  split <;> simp

theorem outcome_eq_some : c.outcome i = some r ↔ ∃ b, c.Returned i r b := by
  unfold outcome Returned
  constructor
  · intro h
    split at h
    · next e r' b' ht =>
      cases h
      exact ⟨b', e, ht⟩
    · exact nomatch h
  · rintro ⟨b, e, ht⟩
    rw [ht]

namespace Consistent

/-- Only the task behind the future is still at work. -/
theorem running (h : Consistent c) (ht : c.tasks[i]? = some t)
    (hp : ∀ r b, t.phase ≠ .returned r b) : c.future = some i := by
  by_contra hne
  obtain ⟨r, b, hr⟩ := h.idle i t ht hne
  exact hp r b hr

/-- A task that moves on and stays aligned disturbs nothing. -/
theorem advance {loaded : Branch} {flag : Bool} (h : Consistent c) (hf : c.future = some i)
    (ht : c.tasks[i]? = some t) (ha : Aligned c.currentHeader loaded { t with phase := p }) :
    Consistent { c.setPhase i p with loaded := loaded, shallStop := flag } := by
  have hpc : ¬ Pc.between c.pc := fun hb => nomatch hf.symm.trans (h.between hb)
  have hfresh := (h.future i hf).2
  have hsame (j : Nat) (hj : j ≠ i) : (c.setPhase i p).tasks[j]? = c.tasks[j]? := by
    rw [setPhase_getElem?, if_neg hj.symm]
  constructor
  · intro j t' ht' hj
    have hji : j ≠ i := fun he => hj (he ▸ hf)
    exact h.idle j t' ((hsame j hji).symm.trans ht') hj
  · intro j hj
    obtain rfl := Option.some.inj (hf.symm.trans hj)
    refine ⟨⟨{ t with phase := p }, ?_, ha⟩, hfresh⟩
    show (c.setPhase i p).tasks[i]? = _
    rw [setPhase_getElem?, if_pos rfl, ht]
    rfl
  · exact fun hb => absurd hb hpc
  · exact fun hn => nomatch hf.symm.trans hn
  · show InHand { c.setPhase i p with loaded := loaded, shallStop := flag }
    unfold InHand
    split
    · next he => exact absurd (show Pc.between c.pc from he ▸ trivial) hpc
    · next he => exact absurd (show Pc.between c.pc from he ▸ trivial) hpc
    · trivial
  · intro q hq
    have hqi : q.task ≠ i := fun he => hfresh (he ▸ List.mem_map_of_mem hq)
    obtain ⟨e, he⟩ := h.reported q hq
    exact ⟨e, (hsame q.task hqi).trans he⟩
  · exact h.nodup

/-- The result of the future is taken. -/
theorem take {pc : Pc} (h : Consistent c) (hf : c.future = some i) (ho : c.outcome i = some r)
    (hpc : (∃ e, pc = .answering e i r ∨ pc = .executing e) ∨ pc = .reporting i r) :
    Consistent { c with future := none, pc := pc } := by
  obtain ⟨b, e, ht⟩ := outcome_eq_some.mp ho
  obtain ⟨⟨t, ht', ha⟩, hfresh⟩ := h.future i hf
  obtain rfl := Option.some.inj (ht.symm.trans ht')
  obtain ⟨rfl, hl⟩ : b = c.currentHeader ∧ c.loaded = c.currentHeader := ha
  constructor
  · intro j t' ht'' _
    by_cases hj : j = i
    · subst hj
      obtain rfl := Option.some.inj (ht.symm.trans ht'')
      exact ⟨_, _, rfl⟩
    · exact h.idle j t' ht'' fun he => hj (Option.some.inj (he.symm.trans hf))
  · exact fun j hj => nomatch hj
  · exact fun _ => rfl
  · intro _
    rcases hpc with ⟨e, rfl | rfl⟩ | rfl <;> exact hl
  · rcases hpc with ⟨e', rfl | rfl⟩ | rfl
    · exact ⟨⟨e, ht⟩, hfresh⟩
    · trivial
    · exact ⟨⟨e, ht⟩, hfresh⟩
  · exact h.reported
  · exact h.nodup

/-- The result in hand is reported. -/
theorem report {pc : Pc} (h : Consistent c) (hnone : c.future = none)
    (hhand : c.Returned i r c.currentHeader ∧ i ∉ c.reports.map Report.task)
    (hl : c.loaded = c.currentHeader) (hpc : (∃ e, pc = .executing e) ∨ pc = .waiting) :
    Consistent { c.report i r with pc := pc } where
  idle := h.idle
  future j hj := by cases hnone.symm.trans hj
  between _ := hnone
  settled _ := by rcases hpc with ⟨e, rfl⟩ | rfl <;> exact hl
  inHand := by rcases hpc with ⟨e, rfl⟩ | rfl <;> trivial
  reported q hq := by
    rcases List.mem_append.mp hq with hq | hq
    · exact h.reported q hq
    · obtain rfl := List.mem_singleton.mp hq
      exact hhand.1
  nodup := by
    simp only [Communicator.report, List.map_append, List.map_cons, List.map_nil]
    exact h.nodup.append (List.nodup_singleton i) (by simpa using hhand.2)

/-- A step of the communicator that leaves tasks and reports alone. -/
theorem quiet {queue : List Event} {flag flag' : Bool} {pc : Pc} (h : Consistent c)
    (hl : c.future = none → c.loaded = c.currentHeader)
    (hpc : (pc = .waiting ∨ pc = .taking ∨ (∃ e, pc = .holding e) ∨ ∃ e, pc = .stopping e) ∨
      c.future = none ∧ ∃ e, pc = .executing e) :
    Consistent { c with queue := queue, shallStop := flag, shouldStop := flag', pc := pc } where
  idle := h.idle
  future := h.future
  between hb := by rcases hpc with (rfl | rfl | ⟨e, rfl⟩ | ⟨e, rfl⟩) | ⟨hn, -⟩ <;> trivial
  settled hn := by
    rcases hpc with (rfl | rfl | ⟨e, rfl⟩ | ⟨e, rfl⟩) | ⟨-, e, rfl⟩ <;> exact hl hn
  inHand := by
    rcases hpc with (rfl | rfl | ⟨e, rfl⟩ | ⟨e, rfl⟩) | ⟨-, e, rfl⟩ <;> trivial
  reported := h.reported
  nodup := h.nodup

/-- The header of the channel moves on with the event. -/
theorem execute {e : Event} (h : Consistent c) (hpc : c.pc = .executing e) :
    Consistent { c with
      shouldStop := false
      currentHeader := e.branch c.currentHeader
      pc := .submitting e } where
  idle := h.idle
  future j hj := by
    have hnone := h.between (show Pc.between c.pc by rw [hpc]; trivial)
    cases hnone.symm.trans hj
  between _ := h.between (by rw [hpc]; trivial)
  settled hn := by
    have hs := h.settled hn
    rw [Settled, hpc] at hs
    exact congrArg e.branch hs
  inHand := trivial
  reported := h.reported
  nodup := h.nodup

theorem submit {e : Event} (h : Consistent c) (hpc : c.pc = .submitting e) :
    Consistent { c with
      tasks := c.tasks ++ [{ event := e }]
      future := some c.tasks.length
      pc := .waiting } := by
  have hnone := h.between (show Pc.between c.pc by rw [hpc]; trivial)
  have hold {j : Nat} {t : Task} (ht : c.tasks[j]? = some t) :
      (c.tasks ++ [{ event := e }])[j]? = some t := by
    obtain ⟨hlt, _⟩ := List.getElem?_eq_some_iff.mp ht
    rw [List.getElem?_append_left hlt, ht]
  constructor
  · intro j t ht hj
    rcases Nat.lt_trichotomy j c.tasks.length with hlt | rfl | hgt
    · rw [List.getElem?_append_left hlt] at ht
      exact h.idle j t ht fun he => absurd (he.symm.trans hnone) (Option.some_ne_none _)
    · exact absurd rfl hj
    · have hlen : (c.tasks ++ [({ event := e } : Task)]).length ≤ j := by
        rw [List.length_append, List.length_singleton]
        exact hgt
      rw [List.getElem?_eq_none hlen] at ht
      cases ht
  · intro j hj
    obtain rfl := Option.some.inj hj
    refine ⟨⟨{ event := e }, by simp, ?_⟩, fun hm => ?_⟩
    · have hs := h.settled hnone
      rw [Settled, hpc] at hs
      exact hs
    · obtain ⟨q, hq, he⟩ := List.mem_map.mp hm
      obtain ⟨e', ht⟩ := h.reported q hq
      obtain ⟨hlt, _⟩ := List.getElem?_eq_some_iff.mp ht
      omega
  · exact fun hb => hb.elim
  · exact fun hn => absurd hn (Option.some_ne_none _)
  · trivial
  · intro q hq
    obtain ⟨e', ht⟩ := h.reported q hq
    exact ⟨e', hold ht⟩
  · exact h.nodup

theorem loaded_eq (h : Consistent c) (hpc : ∀ e, c.pc ≠ .submitting e) (hn : c.future = none) :
    c.loaded = c.currentHeader := by
  have hs := h.settled hn
  unfold Settled at hs
  split at hs
  · next e he => exact absurd he (hpc e)
  · exact hs

theorem communicate (h : Consistent c) (hs : c.communicate = some d) : Consistent d := by
  have hset := h.loaded_eq
  have hhand := h.inHand
  rw [InHand] at hhand
  unfold Communicator.communicate at hs
  split at hs
  case h_1 hpc =>
    have hl := hset fun e he => nomatch hpc.symm.trans he
    split at hs
    · cases hs
      exact h.quiet hl (.inl (.inr (.inl rfl)))
    · split at hs
      · next e es _ =>
        cases hs
        exact h.quiet hl (.inl (.inr (.inr (.inl ⟨e, rfl⟩))))
      · exact nomatch hs
  case h_2 hpc =>
    have hl := hset fun e he => nomatch hpc.symm.trans he
    split at hs
    · next i hf =>
      obtain ⟨r, ho, rfl⟩ := Option.map_eq_some_iff.mp hs
      exact h.take hf ho (.inr rfl)
    · cases hs
      exact h.quiet hl (.inl (.inl rfl))
  case h_3 i r hpc =>
    cases hs
    have hnone := h.between (show Pc.between c.pc by rw [hpc]; trivial)
    rw [hpc] at hhand
    exact h.report hnone hhand (hset (fun e he => nomatch hpc.symm.trans he) hnone) (.inr rfl)
  case h_4 e hpc =>
    have hl := hset fun e he => nomatch hpc.symm.trans he
    cases hs
    exact h.quiet hl (.inl (.inr (.inr (.inr ⟨e, rfl⟩))))
  case h_5 e hpc =>
    have hl := hset fun e he => nomatch hpc.symm.trans he
    split at hs
    · next i hf =>
      obtain ⟨r, ho, rfl⟩ := Option.map_eq_some_iff.mp hs
      refine h.take hf ho (.inl ⟨e, ?_⟩)
      split
      · exact .inr rfl
      · exact .inl rfl
    · next hf =>
      cases hs
      exact h.quiet hl (.inr ⟨hf, e, rfl⟩)
  case h_6 e i r hpc =>
    cases hs
    have hnone := h.between (show Pc.between c.pc by rw [hpc]; trivial)
    rw [hpc] at hhand
    exact h.report hnone hhand (hset (fun e he => nomatch hpc.symm.trans he) hnone) (.inl ⟨e, rfl⟩)
  case h_7 e hpc =>
    cases hs
    exact h.execute hpc
  case h_8 e hpc =>
    cases hs
    exact h.submit hpc

/-- A task keeps its result, and the branch where it was computed, to the end. -/
theorem step {m : Move} (h : Consistent c) (hs : c.step m = some d) : Consistent d := by
  cases m with
  | receive e =>
    cases hs
    exact ⟨h.idle, h.future, h.between, h.settled, h.inHand, h.reported, h.nodup⟩
  | communicate => exact h.communicate hs
  | load i =>
    simp only [Communicator.step] at hs
    split at hs
    · next e ht =>
      cases hs
      have hf := h.running ht fun _ _ he => nomatch he
      obtain ⟨⟨t, ht', ha⟩, -⟩ := h.future i hf
      obtain rfl := Option.some.inj (ht.symm.trans ht')
      exact h.advance hf ht ha
    · exact nomatch hs
  | compute i r =>
    simp only [Communicator.step] at hs
    split at hs
    · next e ht =>
      cases hs
      have hf := h.running ht fun _ _ he => nomatch he
      obtain ⟨⟨t, ht', ha⟩, -⟩ := h.future i hf
      obtain rfl := Option.some.inj (ht.symm.trans ht')
      exact h.advance hf ht ⟨ha, ha⟩
    · exact nomatch hs
  | raise i =>
    simp only [Communicator.step] at hs
    split at hs
    · next e r b ht =>
      obtain ⟨-, rfl⟩ := Option.ite_some_none_eq_some.mp hs
      have hf := h.running ht fun _ _ he => nomatch he
      obtain ⟨⟨t, ht', ha⟩, -⟩ := h.future i hf
      obtain rfl := Option.some.inj (ht.symm.trans ht')
      exact h.advance hf ht ha
    · exact nomatch hs
  | finish i =>
    have last {e : Event} {p : Phase} {r : Result} {b : Branch} (ht : c.tasks[i]? = some ⟨e, p⟩)
        (hp : p = .raised r b ∨ p = .computed r b) : Consistent (c.setPhase i (.returned r b)) := by
      have hf := h.running ht (by rcases hp with rfl | rfl <;> exact fun _ _ he => nomatch he)
      obtain ⟨⟨t, ht', ha⟩, -⟩ := h.future i hf
      obtain rfl := Option.some.inj (ht.symm.trans ht')
      exact h.advance hf ht (by rcases hp with rfl | rfl <;> exact ha)
    simp only [Communicator.step] at hs
    split at hs
    · next ht =>
      cases hs
      exact last ht (.inl rfl)
    · next ht =>
      split at hs
      · exact nomatch hs
      · cases hs
        exact last ht (.inr rfl)
    · exact nomatch hs

end Consistent

/-- Any order of steps. -/
def anyOrder (_ : Communicator) (_ : Move) : Prop := True

instance : ∀ c a, Decidable (anyOrder c a) := fun _ _ => .isTrue trivial

theorem consistent_run {G : Communicator → Move → Prop} {node : Branch}
    (hr : Lib.Run step G (start node) c) : Consistent c :=
  hr.invariant (fun _ _ _ h _ hs => h.step hs) (consistent_start node)

/-- No result is reported twice, and a report names the branch whose script was loaded
when the result was computed. -/
theorem reports_branch {node : Branch} (hr : Lib.Run step anyOrder (start node) c) :
    (c.reports.map Report.task).Nodup ∧
      ∀ p ∈ c.reports, ∃ e, c.tasks[p.task]? = some ⟨e, .returned p.result p.node⟩ :=
  ⟨(consistent_run hr).nodup, (consistent_run hr).reported⟩

/-- One result taken after the solver has finished by itself, and one taken when an event
comes in at that moment. -/
def twoWays : List Move :=
  [.communicate, .communicate, .communicate, .communicate, .communicate, .load 0,
    .compute 0 .unsat, .raise 0, .finish 0, .receive (.incremental [0, 1]), .communicate,
    .communicate, .communicate, .communicate, .communicate, .communicate, .communicate,
    .communicate, .load 1, .receive .partition, .communicate, .compute 1 .sat, .raise 1, .finish 1,
    .communicate, .communicate, .communicate]

theorem reports_branch_twoWays :
    ∃ c, twoWays.foldlM (Lib.guarded step anyOrder) (start []) = some c ∧
      c.reports = [⟨0, .unsat, []⟩, ⟨1, .sat, [0, 1]⟩] ∧
      (c.reports.map Report.task).Nodup ∧
      ∀ p ∈ c.reports, ∃ e, c.tasks[p.task]? = some ⟨e, .returned p.result p.node⟩ := by
  have h := (Option.some_get (x := twoWays.foldlM (Lib.guarded step anyOrder) (start []))
    (by decide)).symm
  exact ⟨_, h, by decide, reports_branch (.of_script h)⟩

section Flag

/-- The task has set the flag: its search has ended. -/
def Raised (c : Communicator) (i : Nat) : Prop :=
  ∃ e r b, r.definite ∧ (c.tasks[i]? = some ⟨e, .raised r b⟩ ∨ c.tasks[i]? = some ⟨e, .returned r b⟩)

/-- An event has been popped and the future has not been taken yet. -/
def Pc.interrupts : Pc → Bool
  | .holding _ | .stopping _ => true
  | .waiting | .taking | .reporting .. | .answering .. | .executing _ | .submitting _ => false

/-- No search ends with an answer between the popping of an event and the taking of the
future. -/
def InTime (c : Communicator) : Move → Prop
  | .raise _ => Pc.interrupts c.pc = false
  | _ => True

instance (c : Communicator) : ∀ m, Decidable (InTime c m)
  | .raise _ => inferInstanceAs (Decidable (_ = false))
  | .receive _ | .communicate | .load _ | .compute .. | .finish _ => .isTrue trivial

/-- The flag is the one of the task behind the future. -/
structure Timely (c : Communicator) : Prop where
  consistent : Consistent c
  flag : c.shallStop = true → c.pc = .waiting ∧ ∃ i, c.future = some i ∧ c.Raised i
  taking : c.pc = .taking → ∀ i, c.future = some i → c.Raised i

theorem timely_start (node : Branch) : Timely (start node) where
  consistent := consistent_start node
  flag h := nomatch h
  taking h := nomatch h

namespace Timely

/-- The task behind the future moves on, and stays one that has set the flag. -/
theorem advance {loaded : Branch} (h : Timely c) (hf : c.future = some i)
    (hd : Consistent { c.setPhase i p with loaded := loaded })
    (hr : c.Raised i → Raised { c.setPhase i p with loaded := loaded } i) :
    Timely { c.setPhase i p with loaded := loaded } where
  consistent := hd
  flag hs := by
    obtain ⟨hpc, j, hj, hraised⟩ := h.flag hs
    obtain rfl := Option.some.inj (hj.symm.trans hf)
    exact ⟨hpc, j, hj, hr hraised⟩
  taking hpc j hj := by
    obtain rfl := Option.some.inj (Eq.trans (show some j = c.future from hj.symm) hf)
    exact hr (h.taking hpc j hf)

theorem not_raised (ht : c.tasks[i]? = some t) (h1 : ∀ r b, t.phase ≠ .raised r b)
    (h2 : ∀ r b, r.definite → t.phase ≠ .returned r b) : ¬ c.Raised i := by
  rintro ⟨e, r, b, hr, he | he⟩
  · obtain rfl := Option.some.inj (ht.symm.trans he)
    exact h1 r b rfl
  · obtain rfl := Option.some.inj (ht.symm.trans he)
    exact h2 r b hr rfl

theorem communicate (h : Timely c) (hs : c.communicate = some d) : Timely d := by
  have hd := h.consistent.communicate hs
  by_cases hflag : c.shallStop = true
  · obtain ⟨hpc, i, hi, hr⟩ := h.flag hflag
    simp only [Communicator.communicate, hpc, hflag, if_true, Option.some.injEq] at hs
    subst hs
    refine ⟨hd, fun hs => (nomatch hs), fun _ j hj => ?_⟩
    obtain rfl := Option.some.inj (hj.symm.trans hi)
    exact hr
  · have hrest : d.shallStop = c.shallStop ∧ d.pc ≠ .taking := by
      unfold Communicator.communicate at hs
      split at hs
      case h_1 =>
        rw [if_neg hflag] at hs
        split at hs
        · cases hs
          exact ⟨rfl, nofun⟩
        · exact nomatch hs
      case h_2 =>
        split at hs
        · obtain ⟨r, -, rfl⟩ := Option.map_eq_some_iff.mp hs
          exact ⟨rfl, nofun⟩
        · cases hs
          exact ⟨rfl, nofun⟩
      case h_5 e _ =>
        split at hs
        · obtain ⟨r, -, rfl⟩ := Option.map_eq_some_iff.mp hs
          refine ⟨rfl, ?_⟩
          simp only
          split
          · exact nofun
          · exact nofun
        · cases hs
          exact ⟨rfl, nofun⟩
      all_goals
        cases hs
        exact ⟨rfl, nofun⟩
    exact ⟨hd, fun hs => absurd (hrest.1 ▸ hs) hflag, fun hpc => absurd hpc hrest.2⟩

/-- A search that ends while the communicator waits leaves the flag of its own. -/
theorem raise {e : Event} (h : Timely c) (hG : InTime c (.raise i))
    (ht : c.tasks[i]? = some ⟨e, .computed r b⟩) (hr : r.definite)
    (hd : Consistent { c.setPhase i (.raised r b) with shallStop := true }) :
    Timely { c.setPhase i (.raised r b) with shallStop := true } := by
  have hf := h.consistent.running ht fun _ _ he => nomatch he
  have hnot : ¬ c.Raised i := not_raised ht (fun _ _ he => nomatch he) fun _ _ _ he => nomatch he
  have hpc : c.pc = .waiting := by
    have hbetween : ¬ Pc.between c.pc := fun hb => nomatch hf.symm.trans (h.consistent.between hb)
    cases hcpc : c.pc with
    | waiting => rfl
    | taking => exact absurd (h.taking hcpc i hf) hnot
    | holding | stopping =>
      rw [InTime, hcpc] at hG
      exact nomatch hG
    | reporting | answering | executing | submitting =>
      rw [hcpc] at hbetween
      exact absurd trivial hbetween
  refine ⟨hd, fun _ => ⟨hpc, i, hf, e, r, b, hr, .inl ?_⟩, fun he => nomatch hpc.symm.trans he⟩
  show (c.setPhase i (.raised r b)).tasks[i]? = _
  rw [setPhase_getElem?, if_pos rfl, ht]
  rfl

theorem step {m : Move} (h : Timely c) (hG : InTime c m) (hs : c.step m = some d) : Timely d := by
  have hd := h.consistent.step hs
  cases m with
  | receive e =>
    cases hs
    exact ⟨hd, h.flag, h.taking⟩
  | communicate => exact h.communicate hs
  | load i =>
    simp only [Communicator.step] at hs
    split at hs
    · next e ht =>
      cases hs
      have hf := h.consistent.running ht fun _ _ he => nomatch he
      exact h.advance hf hd fun hr => absurd hr
        (not_raised ht (fun _ _ he => nomatch he) fun _ _ _ he => nomatch he)
    · exact nomatch hs
  | compute i r =>
    simp only [Communicator.step] at hs
    split at hs
    · next e ht =>
      cases hs
      have hf := h.consistent.running ht fun _ _ he => nomatch he
      exact h.advance hf hd fun hr => absurd hr
        (not_raised ht (fun _ _ he => nomatch he) fun _ _ _ he => nomatch he)
    · exact nomatch hs
  | raise i =>
    simp only [Communicator.step] at hs
    split at hs
    · next e r b ht =>
      obtain ⟨hr, rfl⟩ := Option.ite_some_none_eq_some.mp hs
      exact h.raise hG ht hr hd
    · exact nomatch hs
  | finish i =>
    simp only [Communicator.step] at hs
    split at hs
    · next e r b ht =>
      cases hs
      have hf := h.consistent.running ht fun _ _ he => nomatch he
      refine h.advance hf hd fun hr => ?_
      obtain ⟨e', r', b', hr', he⟩ := hr
      rw [ht] at he
      obtain he | he := he
      · cases he
        refine ⟨e, r, b, hr', .inr ?_⟩
        show (c.setPhase i (.returned r b)).tasks[i]? = _
        rw [setPhase_getElem?, if_pos rfl, ht]
        rfl
      · exact nomatch he
    · next e r b ht =>
      split at hs
      · exact nomatch hs
      · cases hs
        have hf := h.consistent.running ht fun _ _ he => nomatch he
        exact h.advance hf hd fun hr => absurd hr
          (not_raised ht (fun _ _ he => nomatch he) fun _ _ _ he => nomatch he)
    · exact nomatch hs

end Timely

/-- While no answer comes in between, `get` is only called for a search that has ended. -/
theorem awaited_ended {node : Branch} (hr : Lib.Run step InTime (start node) c)
    (hpc : c.pc = .taking) : ∀ i, c.future = some i → c.Raised i :=
  (hr.invariant (I := Timely) (fun _ _ _ h hG hs => h.step hG hs) (timely_start node)).taking hpc

/-- The solver finishes while the communicator waits, and the result is taken. -/
def onTime : List Move :=
  [.communicate, .communicate, .communicate, .communicate, .communicate, .load 0,
    .compute 0 .unsat, .raise 0, .communicate]

theorem awaited_ended_onTime :
    ∃ c, onTime.foldlM (Lib.guarded step InTime) (start []) = some c ∧ c.future = some 0 ∧
      c.Raised 0 := by
  have h := (Option.some_get (x := onTime.foldlM (Lib.guarded step InTime) (start []))
    (by decide)).symm
  have hf : ((onTime.foldlM (Lib.guarded step InTime) (start [])).get (by decide)).future =
      some 0 := by decide
  exact ⟨_, h, hf, awaited_ended (.of_script h) (by decide) 0 hf⟩

/-- The solver finishes after the communicator has popped an event.  The result is taken
by the event's branch, the flag stays and meets the next task. -/
def tooLate : List Move :=
  [.communicate, .communicate, .communicate, .communicate, .communicate, .load 0,
    .receive (.incremental [0, 0]), .communicate, .compute 0 .unsat, .raise 0, .finish 0,
    .communicate, .communicate, .communicate, .communicate, .communicate, .communicate]

theorem awaited_running :
    ∃ c, Lib.Run step anyOrder (start []) c ∧ c.pc = .taking ∧ c.future = some 1 ∧
      c.tasks[1]? = some ⟨.incremental [0, 0], .submitted⟩ := by
  have h := (Option.some_get (x := tooLate.foldlM (Lib.guarded step anyOrder) (start []))
    (by decide)).symm
  exact ⟨_, .of_script h, by decide, by decide, by decide⟩

end Flag

end Communicator

end Smts.Client
