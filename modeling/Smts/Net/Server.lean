import Mathlib.Data.List.Nodup
import Mathlib.Data.List.Perm.Basic
import Mathlib.Tactic.Tauto

namespace Smts.Net

/-- A socket object.  An accepted client is given an `id`. -/
structure Socket where
  object : Nat
  fd : Int
  id : Int := 0
  deriving DecidableEq

inductive Reading
  | returned | closed | failed
  deriving DecidableEq

/-- What the loop calls.  `accept` gets the descriptors that are in use; it yields a new one and
the place of the new object in the order of the set, or fails.  `handle_event` comes with the
`read` before it.  The other handlers tell whether they return, or raise. -/
structure Outside (W : Type) where
  accept : List Int → W → Option (Nat × Nat) × W
  fresh : ∀ used w fd place, (accept used w).1 = some (fd, place) → (fd : Int) ∉ used
  handleAccept : Socket → W → Bool × W
  handleEvent : Socket → W → Reading × W
  handleClose : Socket → W → Bool × W
  handleException : Socket → W → Bool × W

inductive Handled
  | accepted (client : Socket)
  | refused
  | event
  | closed
  | failed
  deriving DecidableEq

structure Round (W : Type) where
  readset : List Int
  world : W
  counter : Int := 0
  objects : Nat
  log : List (Socket × Handled) := []

/-- One pass through the body of the inner loop: where the iterator stands afterwards, or the
sockets that are registered when a handler raises. -/
inductive Turn (W : Type)
  | next (passed rest : List Socket) (r : Round W)
  | raised (sockets : List Socket) (r : Round W)

namespace Round

variable {W : Type} (r : Round W)

def clear (fd : Int) : Round W := { r with readset := r.readset.filter (· ≠ fd) }

def handle (socket : Socket) (h : Handled) (world : W) : Round W :=
  { r with world, log := r.log ++ [(socket, h)] }

end Round

section Loop

variable {W : Type} (env : Outside W) (socket : Option Int)

def proceed (returned : Bool) (passed rest : List Socket) (r : Round W) : Turn W :=
  if returned then .next passed rest r else .raised (passed ++ rest) r

/-- The branch for a socket whose bit is set.  `socket` is the descriptor of the socket that
listens, if there is one. -/
def serve (passed : List Socket) (s : Socket) (rest : List Socket) (r : Round W) : Turn W :=
  let r := r.clear s.fd
  let sockets := passed ++ s :: rest
  if socket = some s.fd then
    match env.accept (sockets.map Socket.fd) r.world with
    | (none, world) => .next (passed ++ [s]) rest (r.handle s .refused world)
    | (some (fd, place), world) =>
      let client : Socket := ⟨r.objects, fd, r.counter + 1⟩
      let (returned, world) := env.handleAccept client world
      proceed returned [] (sockets.take place ++ client :: sockets.drop place)
        ({ r with objects := r.objects + 1, counter := r.counter + 1 }.handle s (.accepted client)
          world)
  else
    match env.handleEvent s r.world with
    | (.returned, world) => .next [] sockets (r.handle s .event world)
    | (.closed, world) =>
      let (returned, world) := env.handleClose s world
      proceed returned [] (passed ++ rest) (r.handle s .closed world)
    | (.failed, world) =>
      let (returned, world) := env.handleException s world
      proceed returned [] sockets (r.handle s .failed world)

def turn (passed : List Socket) (s : Socket) (rest : List Socket) (r : Round W) : Turn W :=
  if s.fd < 0 then .next [] (passed ++ rest) r
  else if s.fd ∈ r.readset then serve env socket passed s rest r
  else .next (passed ++ [s]) rest r

def Handled.leaves (s : Socket) : Handled → List Socket
  | .closed => [s]
  | _ => []

def Handled.joins : Handled → List Socket
  | .accepted client => [client]
  | _ => []

/-- Handling `s` takes it out of the ready set, and a client that joins is a new object under a
descriptor that is not in use. -/
structure Serves (sockets sockets' : List Socket) (s : Socket) (r r' : Round W) (h : Handled) :
    Prop where
  readset : r'.readset = r.readset.filter (· ≠ s.fd)
  log : r'.log = r.log ++ [(s, h)]
  perm : (sockets' ++ h.leaves s).Perm (h.joins ++ sockets)
  fresh : ∀ c ∈ h.joins, 0 ≤ c.fd ∧ c.fd ∉ sockets.map Socket.fd ∧ c.object = r.objects
  objects : r'.objects = r.objects + h.joins.length

def Turn.Serving (passed : List Socket) (s : Socket) (rest : List Socket) (r : Round W) :
    Turn W → Prop
  | .next p q r' => (∃ h, Serves (passed ++ s :: rest) (p ++ q) s r r' h) ∧ p ⊆ passed ++ [s]
  | .raised sockets r' => ∃ h, Serves (passed ++ s :: rest) sockets s r r' h

variable {env socket} {passed rest : List Socket} {s : Socket} {r : Round W}

theorem Turn.Serving.proceed {returned : Bool} {sockets : List Socket} {r' : Round W} {h : Handled}
    (hs : Serves (passed ++ s :: rest) sockets s r r' h) :
    (proceed returned [] sockets r').Serving passed s rest r := by
  rw [Net.proceed]
  split
  · exact ⟨⟨h, hs⟩, List.nil_subset _⟩
  · exact ⟨h, hs⟩

theorem serves_same {world : W} {h : Handled} (hjoins : h.joins = []) (hleaves : h.leaves s = []) :
    Serves (passed ++ s :: rest) (passed ++ s :: rest) s r ((r.clear s.fd).handle s h world) h where
  readset := rfl
  log := rfl
  perm := by rw [hjoins, hleaves, List.append_nil, List.nil_append]
  fresh := by simp [hjoins]
  objects := by rw [hjoins]; rfl

theorem serves_closed {world : W} :
    Serves (passed ++ s :: rest) (passed ++ rest) s r ((r.clear s.fd).handle s .closed world)
      .closed where
  readset := rfl
  log := rfl
  perm := (List.perm_append_singleton s _).trans List.perm_middle.symm
  fresh := by simp [Handled.joins]
  objects := rfl

theorem serves_accepted {world : W} {fd : Nat} {id : Int} (place : Nat)
    (hfd : (fd : Int) ∉ (passed ++ s :: rest).map Socket.fd) {r' : Round W}
    (hreadset : r'.readset = r.readset.filter (· ≠ s.fd)) (hlog : r'.log = r.log)
    (hobjects : r'.objects = r.objects + 1) :
    Serves (passed ++ s :: rest)
      ((passed ++ s :: rest).take place ++ ⟨r.objects, fd, id⟩ :: (passed ++ s :: rest).drop place)
      s r (r'.handle s (.accepted ⟨r.objects, fd, id⟩) world) (.accepted ⟨r.objects, fd, id⟩) where
  readset := hreadset
  log := by rw [Round.handle, hlog]
  perm := by
    simp only [Handled.leaves, Handled.joins, List.append_nil, List.singleton_append]
    refine List.perm_middle.trans ?_
    rw [List.take_append_drop]
  fresh := by simpa [Handled.joins] using hfd
  objects := hobjects

theorem serving_serve : (serve env socket passed s rest r).Serving passed s rest r := by
  rw [serve]
  split
  · cases haccept : env.accept ((passed ++ s :: rest).map Socket.fd) (r.clear s.fd).world with
    | mk accepted world =>
      cases accepted with
      | none =>
        refine ⟨⟨.refused, ?_⟩, fun _ h => h⟩
        rw [List.append_assoc, List.singleton_append]
        exact serves_same rfl rfl
      | some accepted =>
        obtain ⟨fd, place⟩ := accepted
        have hfd := env.fresh _ _ fd place (congrArg Prod.fst haccept)
        exact .proceed (serves_accepted (r := r) place hfd rfl rfl rfl)
  · cases hevent : env.handleEvent s (r.clear s.fd).world with
    | mk reading world =>
      cases reading with
      | returned => exact ⟨⟨.event, serves_same rfl rfl⟩, List.nil_subset _⟩
      | closed => exact .proceed serves_closed
      | failed => exact .proceed (serves_same rfl rfl)

theorem turn_cases (env : Outside W) (socket : Option Int) (passed : List Socket) (s : Socket)
    (rest : List Socket) (r : Round W) :
    (s.fd < 0 ∧ turn env socket passed s rest r = .next [] (passed ++ rest) r) ∨
    (0 ≤ s.fd ∧ s.fd ∈ r.readset ∧ (turn env socket passed s rest r).Serving passed s rest r) ∨
    (0 ≤ s.fd ∧ s.fd ∉ r.readset ∧ turn env socket passed s rest r = .next (passed ++ [s]) rest r) := by
  rw [turn]
  split
  · exact .inl ⟨‹_›, rfl⟩
  · split
    · exact .inr (.inl ⟨by omega, ‹_›, serving_serve⟩)
    · exact .inr (.inr ⟨by omega, ‹_›, rfl⟩)

def pending (sockets : List Socket) (r : Round W) : Nat :=
  sockets.countP (·.fd < 0) + r.readset.length

theorem Serves.pending_lt {sockets sockets' : List Socket} {r' : Round W} {h : Handled}
    (hs : Serves sockets sockets' s r r' h) (hready : s.fd ∈ r.readset) :
    pending sockets' r' < pending sockets r := by
  have hcount := hs.perm.countP_eq (fun t => t.fd < 0)
  have hjoins : h.joins.countP (fun t => t.fd < 0) = 0 :=
    List.countP_eq_zero.mpr fun c hc => by simpa using (hs.fresh c hc).1
  have hlength : r'.readset.length < r.readset.length := by
    rw [hs.readset]
    exact List.length_filter_lt_length_iff_exists.mpr ⟨s.fd, hready, by simp⟩
  rw [List.countP_append, List.countP_append, hjoins] at hcount
  simp only [pending]
  omega

theorem turn_decreases {p q : List Socket} {r' : Round W}
    (h : turn env socket passed s rest r = .next p q r') :
    pending (p ++ q) r' < pending (passed ++ s :: rest) r ∨
      pending (p ++ q) r' = pending (passed ++ s :: rest) r ∧ q.length < (s :: rest).length := by
  rcases turn_cases env socket passed s rest r with ⟨hneg, ht⟩ | ⟨-, hready, hserving⟩ | ⟨-, -, ht⟩
  · cases ht.symm.trans h
    left
    simp [pending, List.countP_append, hneg]
  · rw [h] at hserving
    obtain ⟨⟨handled, hs⟩, -⟩ := hserving
    exact .inl (hs.pending_lt hready)
  · cases ht.symm.trans h
    right
    rw [List.append_assoc, List.singleton_append]
    exact ⟨rfl, Nat.lt_succ_self _⟩

structure Selected (W : Type) where
  sockets : List Socket
  round : Round W
  returned : Bool

/-- The inner loop of `run_forever`, from the iterator between `passed` and `rest` on. -/
def select (env : Outside W) (socket : Option Int) (passed rest : List Socket) (r : Round W) :
    Selected W :=
  match rest with
  | [] => ⟨passed, r, true⟩
  | s :: rest =>
    match _ht : turn env socket passed s rest r with
    | .next passed rest r => select env socket passed rest r
    | .raised sockets r => ⟨sockets, r, false⟩
termination_by (pending (passed ++ rest) r, rest.length)
decreasing_by
  rcases turn_decreases _ht with hlt | ⟨heq, hlt⟩
  · exact Prod.Lex.left _ _ hlt
  · rw [heq]
    exact Prod.Lex.right _ hlt

theorem select_nil (passed : List Socket) (r : Round W) :
    select env socket passed [] r = ⟨passed, r, true⟩ := by
  rw [select]

theorem select_next {p q : List Socket} {r' : Round W}
    (ht : turn env socket passed s rest r = .next p q r') :
    select env socket passed (s :: rest) r = select env socket p q r' := by
  rw [select]
  split
  · rename_i hn
    cases ht.symm.trans hn
    rfl
  · rename_i hn
    cases ht.symm.trans hn

theorem log_select_next {p q : List Socket} {r' : Round W} {log : List (Socket × Handled)}
    (ht : turn env socket passed s rest r = .next p q r')
    (hlog : (select env socket p q r').round.log = log) :
    (select env socket passed (s :: rest) r).round.log = log := by
  rwa [select_next ht]

theorem select_raised {sockets : List Socket} {r' : Round W}
    (ht : turn env socket passed s rest r = .raised sockets r') :
    select env socket passed (s :: rest) r = ⟨sockets, r', false⟩ := by
  rw [select]
  split
  · rename_i hn
    cases ht.symm.trans hn
  · rename_i hn
    cases ht.symm.trans hn
    rfl

/-- The sockets that are registered: one object for a descriptor, and only open descriptors are
ready. -/
structure Registered (sockets : List Socket) (r : Round W) : Prop where
  nodup : sockets.Nodup
  distinct : ∀ s ∈ sockets, ∀ t ∈ sockets, 0 ≤ s.fd → s.fd = t.fd → s = t
  ready : ∀ fd ∈ r.readset, ∃ s ∈ sockets, s.fd = fd ∧ 0 ≤ fd
  objects : ∀ s ∈ sockets, s.object < r.objects

theorem Registered.sub {sockets sockets' : List Socket} (h : Registered sockets r)
    (hsub : sockets'.Sublist sockets) (hopen : ∀ s ∈ sockets, 0 ≤ s.fd → s ∈ sockets') :
    Registered sockets' r where
  nodup := h.nodup.sublist hsub
  distinct := fun s hs t ht => h.distinct s (hsub.subset hs) t (hsub.subset ht)
  ready := by
    intro fd hfd
    obtain ⟨s, hs, rfl, hpos⟩ := h.ready fd hfd
    exact ⟨s, hopen s hs hpos, rfl, hpos⟩
  objects := fun s hs => h.objects s (hsub.subset hs)

theorem mem_leaves {t : Socket} {h : Handled} : t ∈ h.leaves s ↔ t = s ∧ h = .closed := by
  cases h <;> simp [Handled.leaves]

theorem mem_joins {t : Socket} {h : Handled} : t ∈ h.joins ↔ h = .accepted t := by
  cases h <;> simp [Handled.joins, eq_comm]

section Serving

variable {sockets sockets' : List Socket} {r' : Round W} {h : Handled}

theorem Serves.not_mem_joins (hs : Serves sockets sockets' s r r' h) {t : Socket}
    (ht : t ∈ sockets) : t ∉ h.joins :=
  fun hj => (hs.fresh t hj).2.1 (List.mem_map_of_mem ht)

theorem Serves.nodup (hs : Serves sockets sockets' s r r' h) (hr : sockets.Nodup) :
    (sockets' ++ h.leaves s).Nodup := by
  refine hs.perm.nodup_iff.mpr (List.nodup_append.mpr ⟨?_, hr, fun t hj u hu heq => ?_⟩)
  · cases h <;> simp [Handled.joins]
  · exact hs.not_mem_joins hu (heq ▸ hj)

theorem Serves.mem_iff (hs : Serves sockets sockets' s r r' h) (hr : sockets.Nodup) {t : Socket} :
    t ∈ sockets' ↔ (h = .accepted t ∨ t ∈ sockets) ∧ ¬ (t = s ∧ h = .closed) := by
  have hperm := hs.perm.mem_iff (a := t)
  rw [List.mem_append, List.mem_append, mem_leaves, mem_joins] at hperm
  rw [← hperm]
  refine ⟨fun ht => ⟨.inl ht, fun hclosed => ?_⟩, fun ht => ht.1.resolve_right ht.2⟩
  exact (List.nodup_append.mp (hs.nodup hr)).2.2 t ht t (mem_leaves.mpr hclosed) rfl

theorem Serves.mem_readset (hs : Serves sockets sockets' s r r' h) {fd : Int} :
    fd ∈ r'.readset ↔ fd ∈ r.readset ∧ fd ≠ s.fd := by
  rw [hs.readset, List.mem_filter, decide_eq_true_eq]

theorem Serves.registered (hs : Serves sockets sockets' s r r' h) (hr : Registered sockets r) :
    Registered sockets' r' where
  nodup := (List.nodup_append.mp (hs.nodup hr.nodup)).1
  distinct := by
    intro t ht u hu hpos heq
    rw [hs.mem_iff hr.nodup] at ht hu
    rcases ht.1 with ht | ht <;> rcases hu.1 with hu | hu
    · rw [ht] at hu
      exact Handled.accepted.inj hu
    · exact absurd (heq ▸ List.mem_map_of_mem hu) (hs.fresh t (mem_joins.mpr ht)).2.1
    · exact absurd (heq ▸ List.mem_map_of_mem ht) (hs.fresh u (mem_joins.mpr hu)).2.1
    · exact hr.distinct t ht u hu hpos heq
  ready := by
    intro fd hfd
    rw [hs.mem_readset] at hfd
    obtain ⟨t, ht, rfl, hpos⟩ := hr.ready fd hfd.1
    exact ⟨t, (hs.mem_iff hr.nodup).mpr ⟨.inr ht, fun hclosed => hfd.2 (hclosed.1 ▸ rfl)⟩, rfl, hpos⟩
  objects := by
    intro t ht
    rw [hs.objects]
    rcases ((hs.mem_iff hr.nodup).mp ht).1 with ht | ht
    · have hj := mem_joins.mpr ht
      rw [(hs.fresh t hj).2.2]
      exact Nat.lt_add_of_pos_right (List.length_pos_of_mem hj)
    · exact Nat.lt_add_right _ (hr.objects t ht)

end Serving

structure Complete (sockets : List Socket) (r : Round W) (new : List (Socket × Handled))
    (res : Selected W) : Prop where
  only : ∀ e ∈ new, e.1 ∈ sockets ∧ e.1.fd ∈ r.readset
  once : (new.map Prod.fst).Nodup
  later : ∀ l c, (l, .accepted c) ∈ new → r.objects ≤ c.object
  all : res.returned = true → ∀ s ∈ sockets, s.fd ∈ r.readset → s ∈ new.map Prod.fst
  left : res.returned = true → ∀ s, s ∈ res.sockets ↔
    (s ∈ sockets ∧ 0 ≤ s.fd ∧ (s, .closed) ∉ new) ∨ ∃ l, (l, .accepted s) ∈ new

theorem Serves.complete {sockets sockets' : List Socket} {r' : Round W} {h : Handled}
    {new : List (Socket × Handled)} {res : Selected W} (hs : Serves sockets sockets' s r r' h)
    (hr : Registered sockets r) (hmem : s ∈ sockets) (hready : s.fd ∈ r.readset)
    (hnew : Complete sockets' r' new res) :
    Complete sockets r ((s, h) :: new) res := by
  have honly : ∀ e ∈ new, e.1 ∈ sockets ∧ e.1.fd ∈ r.readset ∧ e.1.fd ≠ s.fd := by
    intro e he
    obtain ⟨hin, hfd⟩ := hnew.only e he
    rw [hs.mem_readset] at hfd
    refine ⟨((hs.mem_iff hr.nodup).mp hin).1.resolve_left fun hj => ?_, hfd⟩
    obtain ⟨t, ht, heq, -⟩ := hr.ready _ hfd.1
    exact (hs.fresh e.1 (mem_joins.mpr hj)).2.1 (heq ▸ List.mem_map_of_mem ht)
  have hnot : ∀ k, (s, k) ∉ new := fun k hk => (honly _ hk).2.2 rfl
  refine ⟨?_, ?_, ?_, ?_, ?_⟩
  · rw [List.forall_mem_cons]
    exact ⟨⟨hmem, hready⟩, fun e he => ⟨(honly e he).1, (honly e he).2.1⟩⟩
  · rw [List.map_cons, List.nodup_cons]
    refine ⟨fun hin => ?_, hnew.once⟩
    obtain ⟨e, he, heq⟩ := List.mem_map.mp hin
    exact (honly e he).2.2 (congrArg Socket.fd heq)
  · intro l c hc
    rcases List.mem_cons.mp hc with hc | hc
    · exact Nat.le_of_eq (hs.fresh c (mem_joins.mpr (Prod.mk.inj hc).2.symm)).2.2.symm
    · exact Nat.le_trans (hs.objects ▸ Nat.le_add_right _ _) (hnew.later l c hc)
  · intro hret t ht hfd
    rw [List.map_cons, List.mem_cons]
    by_cases heq : t = s
    · exact .inl heq
    · obtain ⟨u, hu, hfdu, hpos⟩ := hr.ready _ hfd
      have hne : t.fd ≠ s.fd := fun hfds => heq (hr.distinct t ht s hmem hpos hfds)
      exact .inr (hnew.all hret t ((hs.mem_iff hr.nodup).mpr ⟨.inr ht, fun hc => heq hc.1⟩)
        (hs.mem_readset.mpr ⟨hfd, hne⟩))
  · intro hret t
    rw [hnew.left hret, hs.mem_iff hr.nodup]
    by_cases hj : h = .accepted t
    · refine iff_of_true (.inl ⟨⟨.inl hj, fun hc => ?_⟩, ?_, ?_⟩) (.inr ⟨s, by simp [hj]⟩)
      · cases hj.symm.trans hc.2
      · exact (hs.fresh t (mem_joins.mpr hj)).1
      · exact fun hc => hs.not_mem_joins (honly _ hc).1 (mem_joins.mpr hj)
    · simp only [List.mem_cons, Prod.mk.injEq, Ne.symm hj, and_false, false_or, hj,
        eq_comm (a := h)]
      tauto

theorem select_complete (hr : Registered (passed ++ rest) r)
    (hpassed : ∀ s ∈ passed, 0 ≤ s.fd ∧ s.fd ∉ r.readset) :
    ∃ new, (select env socket passed rest r).round.log = r.log ++ new ∧
      Complete (passed ++ rest) r new (select env socket passed rest r) := by
  induction passed, rest, r using select.induct env socket with
  | case1 passed r =>
    rw [select_nil]
    refine ⟨[], by simp, by simp, List.nodup_nil, by simp, ?_, ?_⟩
    · intro _ s hs hready
      exact absurd hready (hpassed s (by simpa using hs)).2
    · intro _ s
      simp only [List.append_nil, List.not_mem_nil, not_false_eq_true, and_true, exists_false,
        or_false]
      exact ⟨fun hs => ⟨hs, (hpassed s hs).1⟩, And.left⟩
  | case2 passed r s rest p q r' ht ih =>
    rw [select_next ht]
    rcases turn_cases env socket passed s rest r with ⟨hneg, hd⟩ | ⟨hpos, hready, hs⟩ | ⟨hpos, hready, hd⟩
    · cases hd.symm.trans ht
      have hopen : ∀ t ∈ passed ++ s :: rest, 0 ≤ t.fd → t ∈ passed ++ rest := by
        intro t htm htpos
        rcases List.mem_append.mp htm with htm | htm
        · exact List.mem_append_left _ htm
        · rcases List.mem_cons.mp htm with rfl | htm
          · omega
          · exact List.mem_append_right _ htm
      have hsub : (passed ++ rest).Sublist (passed ++ s :: rest) :=
        (List.sublist_cons_self s rest).append_left passed
      obtain ⟨new, hlog, hnew⟩ := ih (hr.sub hsub hopen) (by simp)
      refine ⟨new, hlog, ?_, hnew.once, hnew.later, ?_, ?_⟩
      · exact fun e he => ⟨hsub.subset (hnew.only e he).1, (hnew.only e he).2⟩
      · intro hret t htm hfd
        obtain ⟨u, -, -, hpos⟩ := hr.ready _ hfd
        exact hnew.all hret t (hopen t htm hpos) hfd
      · intro hret t
        rw [hnew.left hret]
        exact or_congr_left ⟨fun hl => ⟨hsub.subset hl.1, hl.2⟩, fun hl => ⟨hopen t hl.1 hl.2.1, hl.2⟩⟩
    · rw [ht] at hs
      obtain ⟨⟨h, hs⟩, hsub⟩ := hs
      obtain ⟨new, hlog, hnew⟩ := ih (hs.registered hr) fun t htp => by
        rcases List.mem_append.mp (hsub htp) with htp | htp
        · exact ⟨(hpassed t htp).1, fun hfd => (hpassed t htp).2 (hs.mem_readset.mp hfd).1⟩
        · obtain rfl := List.mem_singleton.mp htp
          exact ⟨hpos, fun hfd => (hs.mem_readset.mp hfd).2 rfl⟩
      refine ⟨(s, h) :: new, ?_, hs.complete hr (by simp) hready hnew⟩
      rw [hlog, hs.log, List.append_assoc, List.singleton_append]
    · cases hd.symm.trans ht
      have happend : passed ++ [s] ++ rest = passed ++ s :: rest := by simp
      rw [happend] at ih
      refine ih hr fun t htm => ?_
      rcases List.mem_append.mp htm with htm | htm
      · exact hpassed t htm
      · obtain rfl := List.mem_singleton.mp htm
        exact ⟨hpos, hready⟩
  | case3 passed r s rest sockets r' ht =>
    rw [select_raised ht]
    rcases turn_cases env socket passed s rest r with ⟨-, hd⟩ | ⟨-, hready, hs⟩ | ⟨-, -, hd⟩
    · cases hd.symm.trans ht
    · rw [ht] at hs
      obtain ⟨h, hs⟩ := hs
      refine ⟨[(s, h)], hs.log, by simp [hready], by simp, fun l c hc => ?_, by simp, by simp⟩
      have hj := mem_joins.mpr (Prod.mk.inj (List.mem_singleton.mp hc)).2.symm
      exact Nat.le_of_eq (hs.fresh c hj).2.2.symm
    · cases hd.symm.trans ht

structure Outside.Returns (env : Outside W) : Prop where
  handleAccept : ∀ s w, (env.handleAccept s w).1 = true
  handleClose : ∀ s w, (env.handleClose s w).1 = true
  handleException : ∀ s w, (env.handleException s w).1 = true

theorem Outside.Returns.turn (henv : env.Returns) {sockets : List Socket} {r' : Round W} :
    turn env socket passed s rest r ≠ .raised sockets r' := by
  rw [Net.turn]
  split
  · simp
  · split
    · rw [serve]
      split
      · split
        · simp
        · simp only [henv.handleAccept, proceed, if_true]
          simp
      · split
        · simp
        · simp only [henv.handleClose, proceed, if_true]
          simp
        · simp only [henv.handleException, proceed, if_true]
          simp
    · simp

theorem Outside.Returns.select (henv : env.Returns) :
    (select env socket passed rest r).returned = true := by
  induction passed, rest, r using select.induct env socket with
  | case1 passed r => rw [select_nil]
  | case2 passed r s rest p q r' ht ih => rwa [select_next ht]
  | case3 passed r s rest sockets r' ht => exact absurd ht henv.turn

/-- A round serves only sockets that were registered and ready, none of them twice; a client
that it accepts is not among them.  When it comes to its end, which only a handler can prevent,
it has served each of them, and left those with a descriptor that were not closed, and the
clients. -/
theorem round_complete (env : Outside W) (socket : Option Int) (sockets : List Socket)
    (r : Round W) (hr : Registered sockets r) (hlog : r.log = []) :
    let res := select env socket [] sockets r
    let served := res.round.log.map Prod.fst
    (∀ s ∈ served, s ∈ sockets ∧ s.fd ∈ r.readset) ∧ served.Nodup ∧
      (∀ l c, (l, .accepted c) ∈ res.round.log → c ∉ served) ∧
      (env.Returns → res.returned = true) ∧
      (res.returned = true →
        (∀ s ∈ sockets, served.count s = if s.fd ∈ r.readset then 1 else 0) ∧
        (∀ s, s ∈ res.sockets ↔
          (s ∈ sockets ∧ 0 ≤ s.fd ∧ (s, .closed) ∉ res.round.log) ∨
            ∃ l, (l, .accepted s) ∈ res.round.log)) := by
  obtain ⟨new, hnew, hcomplete⟩ := @select_complete _ env socket [] sockets r hr (by simp)
  rw [hlog, List.nil_append] at hnew
  rw [List.nil_append] at hcomplete
  intro res served
  have hserved : ∀ s ∈ served, s ∈ sockets ∧ s.fd ∈ r.readset := by
    intro s hs
    obtain ⟨e, he, rfl⟩ := List.mem_map.mp hs
    exact hcomplete.only e (hnew ▸ he)
  have honce : served.Nodup := by
    simp only [served, res, hnew]
    exact hcomplete.once
  refine ⟨hserved, honce, fun l c hc hin => ?_, fun henv => henv.select, fun hret => ⟨?_, ?_⟩⟩
  · exact absurd (hr.objects c (hserved c hin).1) (Nat.not_lt.mpr (hcomplete.later l c (hnew ▸ hc)))
  · intro s hs
    split
    · rename_i hready
      have hin := hcomplete.all hret s hs hready
      rw [← hnew] at hin
      exact List.count_eq_one_of_mem honce hin
    · rename_i hready
      exact List.count_eq_zero.mpr fun hin => hready (hserved s hin).2
  · intro s
    simp only [res, hnew]
    exact hcomplete.left hret s

end Loop

/-- A system that hands out the lowest descriptor from 3 on, and a client with descriptor 4 that
closes its connection. -/
def reusing : Outside Unit where
  accept used _ :=
    (((List.range' 3 (used.length + 1)).find? fun (n : Nat) => (n : Int) ∉ used).map (·, 0), ())
  fresh := by
    intro used w fd place h
    simp only [Option.map_eq_some_iff, Prod.mk.injEq] at h
    obtain ⟨n, hn, rfl, -⟩ := h
    simpa using List.find?_some hn
  handleAccept _ _ := (true, ())
  handleEvent s _ := (if s.fd = 4 then .closed else .returned, ())
  handleClose _ _ := (true, ())
  handleException _ _ := (true, ())

def listening : List Socket := [⟨0, 4, 1⟩, ⟨1, 3, 0⟩, ⟨2, -1, 0⟩, ⟨3, 5, 2⟩]

/-- The descriptor of the client that closes goes to the one that is accepted. -/
theorem round_complete_reused :
    let r : Round Unit := { readset := [3, 4], world := (), counter := 2, objects := 4 }
    Registered listening r ∧
      let res := select reusing (some 3) [] listening r
      (∀ s ∈ listening, (res.round.log.map Prod.fst).count s = if s.fd ∈ [3, 4] then 1 else 0) ∧
        ⟨4, 4, 3⟩ ∈ res.sockets ∧ ⟨4, 4, 3⟩ ∉ res.round.log.map Prod.fst := by
  intro r
  have hr : Registered listening r := ⟨by decide, by decide, by decide, by decide⟩
  obtain ⟨-, -, hlater, hreturns, hall⟩ := round_complete reusing (some 3) listening r hr rfl
  have hres := hall (hreturns ⟨fun _ _ => rfl, fun _ _ => rfl, fun _ _ => rfl⟩)
  have hlog : (select reusing (some 3) [] listening r).round.log =
      [(⟨0, 4, 1⟩, .closed), (⟨1, 3, 0⟩, .accepted ⟨4, 4, 3⟩)] := by
    iterate 8 refine log_select_next rfl ?_
    rw [select_nil]
    rfl
  have hclient : (⟨1, 3, 0⟩, Handled.accepted ⟨4, 4, 3⟩) ∈
      (select reusing (some 3) [] listening r).round.log := by
    rw [hlog]
    decide
  exact ⟨hr, hres.1, (hres.2 _).mpr (.inr ⟨_, hclient⟩), hlater _ _ hclient⟩

end Smts.Net
