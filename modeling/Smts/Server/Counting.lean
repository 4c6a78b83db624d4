import Mathlib.Algebra.Order.BigOperators.Group.List
import Smts.Server.Clearing
import Smts.Server.Headcount

namespace Smts.Server

open Smts.Lib Smts.Lib.Prog

variable {s t u : State} {i : InstId} {n a g : NodeId} {ns : List NodeId} {x : SockId}
  {xs : List SockId}

/-- What a pass over the nodes reads of the clock and of the node timeout, both of which it
changes. -/
structure Watch where
  limit : Option Time
  tick : Nat

namespace State

def watch (s : State) : Watch := ⟨s.config.nodeTimeout, s.world.clockTick⟩

/-- An AND node that has been solved, which no pass has processed. -/
def Fallen (s : State) (n : NodeId) : Prop :=
  s.heap.isAnd n = true ∧ (s.heap.attrs n).processed = false ∧ s.heap.status n = .unsat

/-- The node whose partition is `n`. -/
def whole (s : State) (n : NodeId) : Option NodeId := (s.heap.truthyParent n).bind s.heap.parent

/-- The node has partitions. -/
def Parted (s : State) (n : NodeId) : Prop :=
  (s.heap.attrs n).partitioning = true ∧ ∃ o ∈ (s.heap.children n).head?, s.heap.children o ≠ []

/-- The watch after the automatic choice of the node timeout. -/
def chosen (s : State) (i : InstId) (w : Watch) : Watch :=
  let clock := s.world.env.clock
  match (s.heap.attrs (s.root i)).started with
  | none => { w with tick := w.tick + 1 }
  | some started =>
    if roundTo second (clock w.tick - started) < 60 * second then ⟨some (60 * second), w.tick + 1⟩
    else ⟨some (roundTo second (clock (w.tick + 1) - started + 5 * second)), w.tick + 2⟩

/-- Whether a node is out of time when the pass comes to it, and the watch after it. -/
def expires (s : State) (i : InstId) (w : Watch) (n : NodeId) : Bool × Watch :=
  if s.heap.isAnd n = true ∧ (s.heap.attrs n).processed = false ∧ s.heap.status n ≠ .unsat then
    match truthy w.limit, truthy (s.heap.attrs n).started with
    | some limit, some started =>
      (decide (started + limit ≤ s.world.env.clock w.tick), { w with tick := w.tick + 1 })
    | _, _ =>
      (false, if truthy w.limit = none ∧ s.heap.len n = 0 ∧ (s.solvers (.at (some n))).length = 1
        then s.chosen i w else w)
  else (false, w)

/-- The nodes that are out of time when the pass comes to them. -/
def expired (s : State) (i : InstId) : Watch → List NodeId → List NodeId
  | _, [] => []
  | w, n :: ns =>
    if (s.expires i w n).1 then n :: s.expired i (s.expires i w n).2 ns
    else s.expired i (s.expires i w n).2 ns

instance (s : State) (n : NodeId) : Decidable (s.Fallen n) :=
  inferInstanceAs (Decidable (_ ∧ _ ∧ _))
instance (s : State) (n : NodeId) : Decidable (s.Parted n) := inferInstanceAs (Decidable (_ ∧ _))

/-- How often a pass takes a solver on node `a` off the count: when the node is solved or out of
time while the solver works, and for every solved partition of the node, save once for a solver
that is idle by then. -/
def discounts (s : State) (i : InstId) (w : Watch) (ns : List NodeId) (a : NodeId) (idle : Bool) :
    Nat :=
  let late := decide (a ∈ s.expired i w ns)
  let assumed := (s.heap.attrs a).assumedTimout
  let leaves := decide (a ∈ ns ∧ s.Fallen a) || (late && !assumed)
  let rests := idle || (late && (!assumed || decide (s.Parted a)))
  let partitions := if s.heap.status a = .unknown then
    ns.countP fun n => decide (s.Fallen n ∧ s.whole n = some a) else 0
  (leaves && !idle).toNat + (partitions - rests.toNat)

/-- How often the pass takes solvers off the count. -/
def due (s : State) (i : InstId) (w : Watch) (ns : List NodeId) (idle : List SockId) : Nat :=
  ((s.solvers .all).map fun x =>
    (s.solver x).node.elim 0 fun a => s.discounts i w ns a (decide (x ∈ idle))).sum

/-- The same for the next pass over the tree of the instance. -/
def passDue (s : State) (i : InstId) : Nat :=
  s.due i s.watch (s.heap.sortByLevel (s.heap.all (s.root i))) s.idleSolvers

end State

section Discounts

variable {w : Watch} {idle idle' : Bool}

theorem State.expired_subset : s.expired i w ns ⊆ ns := by
  induction ns generalizing w with
  | nil => simp [State.expired]
  | cons n ns ih =>
    rw [State.expired]
    split
    · exact List.cons_subset_cons n ih
    · exact List.Subset.trans ih (List.subset_cons_self n ns)

theorem State.notMem_expired (h : a ∉ ns) : a ∉ s.expired i w ns := fun ha => h (expired_subset ha)

theorem State.Fallen.expires (h : s.Fallen n) : s.expires i w n = (false, w) :=
  if_neg fun hlive => hlive.2.2 h.2.2

theorem discounts_zero (hn : n ∉ ns) (hu : s.heap.status n ≠ .unknown) :
    s.discounts i w ns n idle = 0 := by
  simp [State.discounts, hn, State.notMem_expired hn, hu]

/-- A node that is neither solved nor out of time. -/
theorem discounts_skip (hfallen : ¬ s.Fallen n) (hlate : (s.expires i w n).1 = false) :
    s.discounts i w (n :: ns) a idle = s.discounts i (s.expires i w n).2 ns a idle := by
  have hexpired : s.expired i w (n :: ns) = s.expired i (s.expires i w n).2 ns := by
    rw [State.expired, hlate]
    rfl
  have hleaves : (a ∈ n :: ns ∧ s.Fallen a) ↔ (a ∈ ns ∧ s.Fallen a) := by
    refine and_congr_left fun ha => ⟨fun h => ?_, List.mem_cons_of_mem _⟩
    exact (List.mem_cons.mp h).resolve_left fun he => hfallen (he ▸ ha)
  simp only [State.discounts, hexpired, hleaves, List.countP_cons, hfallen, false_and, decide_false,
    Bool.false_eq_true, if_false, Nat.add_zero]

/-- A node that is out of time. -/
theorem discounts_late (idle : Bool) (hfallen : ¬ s.Fallen n)
    (hlate : (s.expires i w n).1 = true) (hn : n ∉ ns) :
    s.discounts i w (n :: ns) a idle =
      if a = n then (!idle && !(s.heap.attrs n).assumedTimout).toNat +
        s.discounts i (s.expires i w n).2 ns n
          (idle || !(s.heap.attrs n).assumedTimout || decide (s.Parted n))
      else s.discounts i (s.expires i w n).2 ns a idle := by
  have hexpired : s.expired i w (n :: ns) = n :: s.expired i (s.expires i w n).2 ns := by
    rw [State.expired, hlate]
    rfl
  split
  · next he =>
    subst he
    simp only [State.discounts, hexpired, List.mem_cons_self, hfallen, State.notMem_expired hn,
      List.countP_cons]
    cases idle
    all_goals cases (s.heap.attrs a).assumedTimout
    all_goals simp
  · next he =>
    simp only [State.discounts, hexpired, List.mem_cons, he, false_or, hfallen, List.countP_cons,
      false_and, decide_false, Bool.false_eq_true, if_false, Nat.add_zero]

/-- A solved node: its solvers leave. -/
theorem discounts_fallen (hfallen : s.Fallen n) (hn : n ∉ ns) :
    s.discounts i w (n :: ns) n idle = (!idle).toNat := by
  have hu : s.heap.status n ≠ .unknown := by
    rw [hfallen.2.2]
    decide
  have hexpired : s.expired i w (n :: ns) = s.expired i w ns := by
    rw [State.expired, hfallen.expires]
    rfl
  simp [State.discounts, hexpired, hfallen, hu, State.notMem_expired hn]

/-- A solved node: so do those of the node it is a partition of. -/
theorem discounts_whole (hfallen : s.Fallen n) (hwhole : s.whole n = some a) (ha : a ∉ n :: ns)
    (hu : s.heap.status a = .unknown) :
    (!idle).toNat + s.discounts i w ns a idle' ≤ s.discounts i w (n :: ns) a idle := by
  have hexpired : s.expired i w (n :: ns) = s.expired i w ns := by
    rw [State.expired, hfallen.expires]
    rfl
  have hns : a ∉ ns := fun h => ha (List.mem_cons_of_mem _ h)
  simp only [State.discounts, hexpired, ha, hns, State.notMem_expired hns, hu, List.countP_cons,
    hfallen, hwhole, and_self, false_and, decide_false, decide_true, Bool.false_and, Bool.or_false,
    if_true, Bool.toNat_false, Nat.zero_add]
  cases idle
  all_goals
    simp only [Bool.not_true, Bool.not_false, Bool.toNat_true, Bool.toNat_false]
    omega

theorem discounts_other (hfallen : s.Fallen n) (ha : a ≠ n)
    (hwhole : s.heap.status a = .unknown → s.whole n ≠ some a) :
    s.discounts i w (n :: ns) a idle = s.discounts i w ns a idle := by
  have hexpired : s.expired i w (n :: ns) = s.expired i w ns := by
    rw [State.expired, hfallen.expires]
    rfl
  simp only [State.discounts, hexpired, List.mem_cons, ha, false_or]
  by_cases hu : s.heap.status a = .unknown
  · simp [hu, hwhole hu]
  · simp [hu]

end Discounts

section Sums

variable {α : Type} {l : List α} {f g : α → Nat} {p q : α → Bool}

/-- Whatever is counted in one sum is missing in the other. -/
theorem countP_add_sum_le (h : ∀ x ∈ l, (p x).toNat + (q x).toNat + g x ≤ f x) :
    l.countP p + l.countP q + (l.map g).sum ≤ (l.map f).sum := by
  induction l with
  | nil => simp
  | cons x l ih =>
    have hx := h x List.mem_cons_self
    have hl := ih fun y hy => h y (List.mem_cons_of_mem _ hy)
    simp only [List.countP_cons, List.map_cons, List.sum_cons]
    cases hp : p x
    all_goals cases hq : q x
    all_goals
      simp only [hp, hq, Bool.toNat_true, Bool.toNat_false] at hx
      simp only [if_true, Bool.false_eq_true, if_false]
      omega

theorem sum_le_countP (h : ∀ x ∈ l, f x ≤ (p x).toNat) : (l.map f).sum ≤ l.countP p := by
  induction l with
  | nil => simp
  | cons x l ih =>
    have hx := h x List.mem_cons_self
    have hl := ih fun y hy => h y (List.mem_cons_of_mem _ hy)
    simp only [List.countP_cons, List.map_cons, List.sum_cons]
    cases hp : p x
    all_goals
      simp only [hp, Bool.toNat_true, Bool.toNat_false] at hx
      simp only [if_true, Bool.false_eq_true, if_false]
      omega

end Sums

/-- How many solvers of a node work. -/
def State.working (s : State) (a : NodeId) (idle : List SockId) : Nat :=
  (s.solvers (.at (some a))).countP fun x => decide (x ∉ idle)

theorem State.working_eq {idle : List SockId} : s.working a idle =
    (s.solvers .all).countP fun x => decide ((s.solver x).node = some a ∧ x ∉ idle) := by
  have hat : s.solvers (.at (some a)) =
      (s.solvers .all).filter fun x => decide ((s.solver x).node = some a) := by
    simp only [State.solvers, List.filter_filter, Which.holds]
    exact List.filter_congr fun x _ => by simp [Bool.and_comm]
  rw [State.working, hat, List.countP_filter]
  exact List.countP_congr fun x _ => by simp [and_comm]

section Due

variable {w : Watch} {l l₁ l₂ : List SockId}

theorem discounts_antitone {idle idle' : Bool} (h : idle = true → idle' = true) :
    s.discounts i w ns a idle' ≤ s.discounts i w ns a idle := by
  cases idle with
  | true => rw [h rfl]
  | false =>
    cases idle' with
    | false => exact Nat.le_refl _
    | true =>
      simp only [State.discounts, Bool.not_true, Bool.and_false, Bool.toNat_false, Bool.true_or,
        Bool.toNat_true, Nat.zero_add]
      exact Nat.le_add_left_of_le (Nat.sub_le_sub_left (Bool.toNat_le _) _)

theorem due_skip (hfallen : ¬ s.Fallen n) (hlate : (s.expires i w n).1 = false) :
    s.due i w (n :: ns) l = s.due i (s.expires i w n).2 ns l := by
  simp only [State.due, discounts_skip hfallen hlate]

theorem due_late (hfallen : ¬ s.Fallen n) (hlate : (s.expires i w n).1 = true) (hn : n ∉ ns)
    (others : ∀ x, (s.solver x).node ≠ some n → (x ∈ l₁ ↔ x ∈ l))
    (rest : ∀ x ∈ s.solvers .all, (s.solver x).node = some n →
      x ∈ l ∨ (s.heap.attrs n).assumedTimout = false ∨ s.Parted n → x ∈ l₁) :
    (if (s.heap.attrs n).assumedTimout then 0 else s.working n l) +
      s.due i (s.expires i w n).2 ns l₁ ≤ s.due i w (n :: ns) l := by
  have hcount : (if (s.heap.attrs n).assumedTimout then 0 else s.working n l) =
      (s.solvers .all).countP fun x => decide ((s.solver x).node = some n ∧ x ∉ l) &&
        !(s.heap.attrs n).assumedTimout := by
    rw [State.working_eq]
    cases (s.heap.attrs n).assumedTimout
    all_goals simp
  have hsum := countP_add_sum_le (l := s.solvers .all) (q := fun _ => false)
    (p := fun x => decide ((s.solver x).node = some n ∧ x ∉ l) && !(s.heap.attrs n).assumedTimout)
    (f := fun x => (s.solver x).node.elim 0 fun a => s.discounts i w (n :: ns) a (decide (x ∈ l)))
    (g := fun x => (s.solver x).node.elim 0 fun a =>
      s.discounts i (s.expires i w n).2 ns a (decide (x ∈ l₁))) fun x hx => ?_
  · simpa [hcount, State.due] using hsum
  · cases hnode : (s.solver x).node with
    | none => simp
    | some a =>
      have hlt := discounts_late (a := a) (decide (x ∈ l)) hfallen hlate hn
      by_cases ha : a = n
      · subst ha
        rw [if_pos rfl] at hlt
        have hrest : s.discounts i (s.expires i w a).2 ns a (decide (x ∈ l₁)) ≤
            s.discounts i (s.expires i w a).2 ns a
              (decide (x ∈ l) || !(s.heap.attrs a).assumedTimout || decide (s.Parted a)) :=
          discounts_antitone fun h =>
            decide_eq_true (rest x hx hnode (by simpa [or_assoc] using h))
        simp only [Option.elim_some, hlt, true_and, decide_not]
        simp only [Bool.toNat_false]
        omega
      · have hne : (s.solver x).node ≠ some n := by simpa [hnode] using ha
        rw [if_neg ha] at hlt
        simp [hlt, ha, others x hne]

theorem due_fallen (hfallen : s.Fallen n) (hn : n ∉ ns)
    (hwhole : ∀ a, s.whole n = some a → s.heap.status a ≠ .unknown)
    (others : ∀ x, (s.solver x).node ≠ some n → (x ∈ l₁ ↔ x ∈ l)) :
    s.working n l + s.due i w ns l₁ ≤ s.due i w (n :: ns) l := by
  have hsum := countP_add_sum_le (l := s.solvers .all) (q := fun _ => false)
    (p := fun x => decide ((s.solver x).node = some n ∧ x ∉ l))
    (f := fun x => (s.solver x).node.elim 0 fun a => s.discounts i w (n :: ns) a (decide (x ∈ l)))
    (g := fun x => (s.solver x).node.elim 0 fun a => s.discounts i w ns a (decide (x ∈ l₁)))
    fun x _ => ?_
  · simpa [State.working_eq, State.due] using hsum
  · cases hnode : (s.solver x).node with
    | none => simp
    | some a =>
      by_cases ha : a = n
      · subst ha
        have hu : s.heap.status a ≠ .unknown := by
          rw [hfallen.2.2]
          decide
        simp [discounts_fallen hfallen hn, discounts_zero hn hu]
      · have hne : (s.solver x).node ≠ some n := by simpa [hnode] using ha
        have hother : s.discounts i w (n :: ns) a (decide (x ∈ l)) =
            s.discounts i w ns a (decide (x ∈ l)) :=
          discounts_other hfallen ha fun hu hw => hwhole a hw hu
        simp [hother, ha, others x hne]

theorem due_whole (hfallen : s.Fallen n) (hn : n ∉ ns) (hwhole : s.whole n = some g)
    (hu : s.heap.status g = .unknown) (hg : g ∉ n :: ns)
    (others : ∀ x, (s.solver x).node ≠ some g → (x ∈ l₁ ↔ x ∈ l))
    (others' : ∀ x, (s.solver x).node ≠ some n → (x ∈ l₂ ↔ x ∈ l₁)) :
    s.working g l + s.working n l₁ + s.due i w ns l₂ ≤ s.due i w (n :: ns) l := by
  have hgn : g ≠ n := fun he => hg (he ▸ List.mem_cons_self)
  have hsum := countP_add_sum_le (l := s.solvers .all)
    (p := fun x => decide ((s.solver x).node = some g ∧ x ∉ l))
    (q := fun x => decide ((s.solver x).node = some n ∧ x ∉ l₁))
    (f := fun x => (s.solver x).node.elim 0 fun a => s.discounts i w (n :: ns) a (decide (x ∈ l)))
    (g := fun x => (s.solver x).node.elim 0 fun a => s.discounts i w ns a (decide (x ∈ l₂)))
    fun x _ => ?_
  · simpa [State.working_eq, State.due] using hsum
  · cases hnode : (s.solver x).node with
    | none => simp
    | some a =>
      by_cases hag : a = g
      · subst hag
        have hle : (!decide (x ∈ l)).toNat + s.discounts i w ns a (decide (x ∈ l₂)) ≤
            s.discounts i w (n :: ns) a (decide (x ∈ l)) :=
          discounts_whole hfallen hwhole hg hu
        simpa [hgn] using hle
      · have hne : (s.solver x).node ≠ some g := by simpa [hnode] using hag
        by_cases ha : a = n
        · subst ha
          have hun : s.heap.status a ≠ .unknown := by
            rw [hfallen.2.2]
            decide
          simp [discounts_fallen hfallen hn, discounts_zero hn hun, hag, others x hne]
        · have hne' : (s.solver x).node ≠ some n := by simpa [hnode] using ha
          have hother : s.discounts i w (n :: ns) a (decide (x ∈ l)) =
              s.discounts i w ns a (decide (x ∈ l)) :=
            discounts_other hfallen ha fun _ hw => hag (Option.some.inj (hw.symm.trans hwhole))
          simp [hother, ha, hag, others' x hne', others x hne]

end Due

section Scenes

/-- What a pass over the nodes only reads. -/
structure Scene where
  clock : Nat → Time
  forest : Forest
  label : NodeId → Label
  status : NodeId → SolveStatus
  partitioning : NodeId → Bool
  started : NodeId → Option Time
  solver : SockId → SolverData
  rlist : List SockId
  kind : SockId → Kind
  root : InstId → NodeId

def State.scene (s : State) : Scene where
  clock := s.world.env.clock
  forest := s.heap.toForest
  label := s.heap.label
  status := s.heap.status
  partitioning n := (s.heap.attrs n).partitioning
  started n := (s.heap.attrs n).started
  solver := s.solver
  rlist := s.rlist
  kind := s.kind
  root := s.root

/-- What the pass at a node neither counts nor flags. -/
def State.setting (s : State) : Scene × Watch × Heap := (s.scene, s.watch, s.heap)

theorem State.scene_modifyNode (s : State) (n : NodeId) {f : Attrs → Attrs}
    (h : ∀ a, (f a).status = a.status ∧ (f a).partitioning = a.partitioning ∧
      (f a).started = a.started) : ({ s with heap := s.heap.modify n f } : State).scene = s.scene := by
  have hstatus : (s.heap.modify n f).status = s.heap.status := by
    funext m
    by_cases hm : m = n
    · subst hm
      simp [Heap.status, Heap.modify, h]
    · simp [Heap.status, Heap.modify, hm]
  have hpartitioning : (fun m => ((s.heap.modify n f).attrs m).partitioning) =
      fun m => (s.heap.attrs m).partitioning := by
    funext m
    by_cases hm : m = n
    · subst hm
      simp [Heap.modify, h]
    · simp [Heap.modify, hm]
  have hstarted : (fun m => ((s.heap.modify n f).attrs m).started) =
      fun m => (s.heap.attrs m).started := by
    funext m
    by_cases hm : m = n
    · subst hm
      simp [Heap.modify, h]
    · simp [Heap.modify, hm]
  rw [State.scene, State.scene, Scene.mk.injEq]
  exact ⟨rfl, rfl, rfl, hstatus, hpartitioning, hstarted, rfl, rfl, rfl, rfl⟩

theorem State.solvers_of_scene (h : t.scene = s.scene) (w : Which) : t.solvers w = s.solvers w := by
  have hrlist : t.rlist = s.rlist := congrArg Scene.rlist h
  have hkind : t.kind = s.kind := congrArg Scene.kind h
  have hsolver : t.solver = s.solver := congrArg Scene.solver h
  rw [State.solvers, State.solvers, hrlist, hkind, hsolver]

theorem State.whole_of_scene (h : t.scene = s.scene) (n : NodeId) : t.whole n = s.whole n := by
  have hforest : t.heap.toForest = s.heap.toForest := congrArg Scene.forest h
  rw [State.whole, State.whole, Heap.truthyParent, Heap.truthyParent, hforest]

end Scenes

section Loops

variable {counted : Bool} {acc : List SockId}

/-- One solver becomes idle or leaves the idle list, and some are taken off the count. -/
structure Tally (s t : State) (touched : SockId → Prop) (k : Nat) : Prop where
  setting : t.setting = s.setting
  others : ∀ x, ¬ touched x → (x ∈ t.idleSolvers ↔ x ∈ s.idleSolvers)
  count : t.config.partitionCount + k = s.config.partitionCount

theorem Tally.refl {touched : SockId → Prop} : Tally s s touched 0 :=
  ⟨rfl, fun _ _ => .rfl, by simp⟩

theorem Tally.trans {touched touched' : SockId → Prop} {k k' : Nat} (h : Tally s t touched k)
    (h' : Tally t u touched' k') : Tally s u (fun x => touched x ∨ touched' x) (k + k') where
  setting := h'.setting.trans h.setting
  others x hx := (h'.others x fun ht => hx (.inr ht)).trans (h.others x fun ht => hx (.inl ht))
  count := by
    have hst := h.count
    have htu := h'.count
    push_cast
    omega

theorem Tally.weaken {touched touched' : SockId → Prop} {k k' : Nat} (h : Tally s t touched k)
    (hsub : ∀ x, touched x → touched' x) (hk : k = k') : Tally s t touched' k' :=
  ⟨h.setting, fun x hx => h.others x fun ht => hx (hsub x ht), hk ▸ h.count⟩

theorem wp_collectSolver : wp (collectSolver acc x)
    (fun _ t => Tally s t (· = x) (if x ∈ s.idleSolvers then 0 else 1)) (fun _ _ => False) s := by
  rw [collectSolver, wp_bind, wp_get]
  by_cases hx : x ∈ s.idleSolvers
  · rw [if_pos hx, if_pos hx]
    exact ⟨rfl, fun y hy => List.mem_erase_of_ne hy, by simp⟩
  · rw [if_neg hx, if_neg hx]
    exact ⟨rfl, fun y _ => .rfl, by simp⟩

/-- The loops over the solvers of a node handle each of them once. -/
theorem Tally.cons {k : Nat} (hx : x ∉ xs) (h : Tally s t (· = x) k)
    (h' : Tally t u (· ∈ xs) (xs.countP fun y => decide (y ∉ t.idleSolvers)))
    (hk : k = if x ∈ s.idleSolvers then 0 else 1) :
    Tally s u (· ∈ x :: xs) ((x :: xs).countP fun y => decide (y ∉ s.idleSolvers)) := by
  refine (h.trans h').weaken (fun y hy => List.mem_cons.mpr hy) ?_
  have hcount : xs.countP (fun y => decide (y ∉ t.idleSolvers)) =
      xs.countP fun y => decide (y ∉ s.idleSolvers) := by
    refine List.countP_congr fun y hy => ?_
    simp [h.others y fun he => hx (he ▸ hy)]
  rw [List.countP_cons, hcount, hk]
  by_cases hidle : x ∈ s.idleSolvers
  · simp [hidle]
  · simp [hidle, Nat.add_comm]

theorem wp_collect (hxs : xs.Nodup) : wp (foldEach collectSolver acc xs)
    (fun _ t => Tally s t (· ∈ xs) (xs.countP fun x => decide (x ∉ s.idleSolvers)))
    (fun _ _ => False) s := by
  induction xs generalizing s acc with
  | nil => exact Tally.refl
  | cons x xs ih =>
    obtain ⟨hx, hxs⟩ := List.nodup_cons.mp hxs
    rw [foldEach, wp_bind]
    refine wp_mono wp_collectSolver (fun acc' t ht => ?_) fun _ _ he => he
    exact wp_mono (ih hxs) (fun _ u hu => Tally.cons hx ht hu rfl) fun _ _ he => he

theorem wp_addIdle : wp (addIdle counted x) (fun _ t => x ∈ t.idleSolvers ∧
    (∀ y ∈ s.idleSolvers, y ∈ t.idleSolvers) ∧
    Tally s t (· = x) (if counted then if x ∈ s.idleSolvers then 0 else 1 else 0))
    (fun _ _ => False) s := by
  rw [addIdle, wp_bind, wp_get, wp_when]
  by_cases hx : x ∈ s.idleSolvers
  · refine ⟨fun h => absurd hx h, fun _ => ⟨hx, fun _ hy => hy, ?_⟩⟩
    simpa [hx] using Tally.refl
  · refine ⟨fun _ => ?_, fun h => absurd hx h⟩
    have others (y : SockId) (hy : y ≠ x) : y ∈ s.idleSolvers ++ [x] ↔ y ∈ s.idleSolvers := by
      simp [hy]
    rw [wp_bind, wp_modify, wp_when, if_neg hx]
    cases counted with
    | true =>
      refine ⟨fun _ => ⟨?_, fun y hy => ?_, rfl, others, ?_⟩, fun h => absurd rfl h⟩
      · exact List.mem_append_right _ List.mem_cons_self
      · exact List.mem_append_left _ hy
      · simp
    | false =>
      refine ⟨fun h => absurd h (by decide), fun _ => ⟨?_, fun y hy => ?_, rfl, others, ?_⟩⟩
      · exact List.mem_append_right _ List.mem_cons_self
      · exact List.mem_append_left _ hy
      · simp

theorem wp_addIdles (hxs : xs.Nodup) : wp (forEach (addIdle counted) xs)
    (fun _ t => (∀ x ∈ xs, x ∈ t.idleSolvers) ∧ (∀ x ∈ s.idleSolvers, x ∈ t.idleSolvers) ∧
      Tally s t (· ∈ xs) (if counted then xs.countP (fun x => decide (x ∉ s.idleSolvers)) else 0))
    (fun _ _ => False) s := by
  induction xs generalizing s with
  | nil =>
    refine ⟨fun _ hx => absurd hx List.not_mem_nil, fun _ hx => hx, ?_⟩
    simpa using Tally.refl
  | cons x xs ih =>
    obtain ⟨hx, hxs⟩ := List.nodup_cons.mp hxs
    rw [forEach, wp_bind]
    refine wp_mono wp_addIdle (fun _ t ht => ?_) fun _ _ he => he
    obtain ⟨hmem, hold, ht⟩ := ht
    refine wp_mono (ih hxs) (fun _ u hu => ?_) fun _ _ he => he
    obtain ⟨hmem', hold', hu⟩ := hu
    refine ⟨fun y hy => ?_, fun y hy => hold' y (hold y hy), ?_⟩
    · rcases List.mem_cons.mp hy with rfl | hy
      · exact hold' y hmem
      · exact hmem' y hy
    · cases counted with
      | true => exact Tally.cons hx ht hu rfl
      | false => exact (ht.trans hu).weaken (fun y hy => List.mem_cons.mpr hy) rfl

/-- The solvers of a set, in some order. -/
theorem wp_tallySolvers {w : Which} {Q : List SockId → State → Prop} {E : Exn → State → Prop}
    (h : ∀ ys t, ys.Perm (s.solvers w) → Tally s t (fun _ => False) 0 → Q ys t) :
    wp (solvers w) Q E s := by
  rw [solvers, wp_bind, wp_get]
  exact h _ _ (s.world.env.order_perm _ _) ⟨rfl, fun _ _ => .rfl, by simp⟩

end Loops

section Passing

variable {w : Watch} {acc : Pass} {solved : List SockId}

theorem State.working_of_scene (h : t.scene = s.scene) (a : NodeId) (l : List SockId) :
    t.working a l = s.working a l := by
  rw [State.working, State.working, State.solvers_of_scene h]

theorem nodup_solversAt (hs : s.rlist.Nodup) {ys : List SockId} {w : Which}
    (hys : ys.Perm (s.solvers w)) : ys.Nodup := hys.nodup_iff.mpr (hs.filter _)

theorem State.node_of_mem {ys : List SockId} (hys : ys.Perm (s.solvers (.at (some n)))) (hx : x ∈ ys) :
    (s.solver x).node = some n := by
  have hx := (State.mem_solvers.mp (hys.mem_iff.mp hx)).2
  simpa [Which.holds] using hx

theorem wp_collectAt (hs : s.rlist.Nodup) : wp (do
      foldEach collectSolver solved (← solvers (.at (some n))))
    (fun _ t => Tally s t (fun x => (s.solver x).node = some n) (s.working n s.idleSolvers))
    (fun _ _ => False) s := by
  rw [wp_bind]
  refine wp_tallySolvers fun ys t hys ht => ?_
  refine wp_mono (wp_collect (nodup_solversAt hs hys)) (fun _ u hu => ?_) fun _ _ he => he
  refine (ht.trans hu).weaken (fun x hx => State.node_of_mem hys (hx.resolve_left id)) ?_
  rw [Nat.zero_add, State.working, hys.countP_eq]
  exact List.countP_congr fun x _ => by simp [ht.others x id]

theorem wp_addIdlesAt (hs : s.rlist.Nodup) {counted : Bool} : wp (do
      forEach (addIdle counted) (← solvers (.at (some n))))
    (fun _ t => (∀ x ∈ s.solvers (.at (some n)), x ∈ t.idleSolvers) ∧
      Tally s t (fun x => (s.solver x).node = some n)
        (if counted then s.working n s.idleSolvers else 0)) (fun _ _ => False) s := by
  rw [wp_bind]
  refine wp_tallySolvers fun ys t hys ht => ?_
  refine wp_mono (wp_addIdles (nodup_solversAt hs hys)) (fun _ u hu => ?_) fun _ _ he => he
  obtain ⟨hmem, _, hu⟩ := hu
  refine ⟨fun x hx => hmem x (hys.mem_iff.mpr hx), ?_⟩
  refine (ht.trans hu).weaken (fun x hx => State.node_of_mem hys (hx.resolve_left id)) ?_
  have hcount : ys.countP (fun x => decide (x ∉ t.idleSolvers)) = s.working n s.idleSolvers := by
    rw [State.working, hys.countP_eq]
    exact List.countP_congr fun x _ => by simp [ht.others x id]
  rw [Nat.zero_add, hcount]

/-- A pass over the nodes has begun, and has not flagged the nodes `ns`. -/
structure Ahead (ns : List NodeId) (s t : State) : Prop where
  scene : t.scene = s.scene
  processed : ∀ m ∈ ns, (t.heap.attrs m).processed = (s.heap.attrs m).processed
  assumed : ∀ m ∈ ns, (t.heap.attrs m).assumedTimout = (s.heap.attrs m).assumedTimout

namespace Ahead

theorem refl : Ahead ns s s := ⟨rfl, fun _ _ => rfl, fun _ _ => rfl⟩

theorem trans (h : Ahead ns s t) (h' : Ahead ns t u) : Ahead ns s u where
  scene := h'.scene.trans h.scene
  processed m hm := (h'.processed m hm).trans (h.processed m hm)
  assumed m hm := (h'.assumed m hm).trans (h.assumed m hm)

theorem tail (h : Ahead (n :: ns) s t) : Ahead ns s t where
  scene := h.scene
  processed m hm := h.processed m (List.mem_cons_of_mem _ hm)
  assumed m hm := h.assumed m (List.mem_cons_of_mem _ hm)

theorem rlist (h : Ahead ns s t) : t.rlist = s.rlist := congrArg Scene.rlist h.scene

theorem solver (h : Ahead ns s t) : t.solver = s.solver := congrArg Scene.solver h.scene

theorem status (h : Ahead ns s t) (m : NodeId) : t.heap.status m = s.heap.status m :=
  congrFun (congrArg Scene.status h.scene) m

theorem partitioning (h : Ahead ns s t) (m : NodeId) :
    (t.heap.attrs m).partitioning = (s.heap.attrs m).partitioning :=
  congrFun (congrArg Scene.partitioning h.scene) m

theorem started (h : Ahead ns s t) (m : NodeId) :
    (t.heap.attrs m).started = (s.heap.attrs m).started := congrFun (congrArg Scene.started h.scene) m

theorem forest (h : Ahead ns s t) : t.heap.toForest = s.heap.toForest :=
  congrArg Scene.forest h.scene

theorem isAnd (h : Ahead ns s t) (m : NodeId) : t.heap.isAnd m = s.heap.isAnd m := by
  have hlabel : t.heap.label = s.heap.label := congrArg Scene.label h.scene
  rw [Heap.isAnd, Heap.isAnd, Heap.isOr, Heap.isOr, hlabel]

theorem clock (h : Ahead ns s t) : t.world.env.clock = s.world.env.clock :=
  congrArg Scene.clock h.scene

theorem root (h : Ahead ns s t) (i : InstId) : t.root i = s.root i :=
  congrFun (congrArg Scene.root h.scene) i

theorem of_heap (hscene : t.scene = s.scene) (hheap : t.heap = s.heap) : Ahead ns s t :=
  ⟨hscene, fun _ _ => by rw [hheap], fun _ _ => by rw [hheap]⟩

theorem flag (s : State) (hn : n ∉ ns) {f : Attrs → Attrs} (hf : ∀ a, (f a).status = a.status ∧
    (f a).partitioning = a.partitioning ∧ (f a).started = a.started) :
    Ahead ns s { s with heap := s.heap.modify n f } := by
  refine ⟨State.scene_modifyNode s n hf, fun m hm => ?_, fun m hm => ?_⟩
  · have hne : m ≠ n := fun he => hn (he ▸ hm)
    simp [Heap.modify, hne]
  · have hne : m ≠ n := fun he => hn (he ▸ hm)
    simp [Heap.modify, hne]

end Ahead

theorem Tally.ahead {touched : SockId → Prop} {k : Nat} (h : Tally s t touched k) : Ahead ns s t :=
  .of_heap (congrArg Prod.fst h.setting) (congrArg (fun c => c.2.2) h.setting)

theorem Tally.watch {touched : SockId → Prop} {k : Nat} (h : Tally s t touched k) :
    t.watch = s.watch := congrArg (fun c => c.2.1) h.setting

/-- The pass that has begun in state `s` has yet to come to the nodes `ns`, and the count allows
what is due there. -/
structure Amid (i : InstId) (ns : List NodeId) (s t : State) : Prop extends Ahead ns s t where
  count : (s.due i t.watch ns t.idleSolvers : Int) ≤ t.config.partitionCount

theorem Amid.nonneg (h : Amid i ns s t) : 0 ≤ t.config.partitionCount :=
  Int.le_trans (Int.natCast_nonneg _) h.count

theorem wp_passUnsat (hs : s.rlist.Nodup) (h : Amid i (n :: ns) s t) (hn : n ∉ ns)
    (hwhole : ∀ g, s.whole n = some g → g ∉ n :: ns) (hfallen : s.Fallen n) :
    wp (passUnsat n solved) (fun _ u => Amid i ns s u) (fun _ _ => False) t := by
  have last (r : List SockId) (v : State) (hv : Ahead ns s v) (hw : v.watch = t.watch)
      (hcount : ∀ l, (∀ x, (s.solver x).node ≠ some n → (x ∈ l ↔ x ∈ v.idleSolvers)) →
        (s.working n v.idleSolvers + s.due i t.watch ns l : Nat) ≤ v.config.partitionCount) :
      wp (collectAt n r) (fun _ u => Amid i ns s u) (fun _ _ => False) v := by
    have hflag :=
      Ahead.flag v hn (f := fun a => { a with processed := true }) fun _ => ⟨rfl, rfl, rfl⟩
    rw [collectAt, wp_bind]
    change wp (do foldEach collectSolver r (← solvers (.at (some n)))) _ _
      { v with heap := v.heap.modify n fun a => { a with processed := true } }
    generalize hv' : ({ v with heap := v.heap.modify n fun a => { a with processed := true } } : State) =
      v' at hflag ⊢
    have hidle : v'.idleSolvers = v.idleSolvers := by rw [← hv']
    have hpc : v'.config.partitionCount = v.config.partitionCount := by rw [← hv']
    have hw' : v'.watch = t.watch := by
      rw [← hw, ← hv']
      rfl
    have hsv := hv.trans hflag
    refine wp_mono (wp_collectAt (hsv.rlist ▸ hs)) (fun _ u hu => ?_) fun _ _ he => he
    refine ⟨hsv.trans hu.ahead, ?_⟩
    have hdue := hcount u.idleSolvers fun x hx => by rw [hu.others x (by rwa [hsv.solver]), hidle]
    have hdrop := hu.count
    rw [State.working_of_scene hsv.scene, hidle, hpc] at hdrop
    rw [hu.watch, hw']
    omega
  rw [passUnsat, wp_bind, wp_get]
  dsimp only
  rw [show (t.heap.truthyParent n).bind t.heap.parent = s.whole n from State.whole_of_scene h.scene n]
  have alone (hother : ∀ a, s.whole n = some a → s.heap.status a ≠ .unknown) :=
    last solved t h.toAhead.tail rfl fun l hl => Int.le_trans
      (Int.ofNat_le.mpr (due_fallen (i := i) (w := t.watch) hfallen hn hother hl)) h.count
  cases hg : s.whole n with
  | none => exact alone fun a ha => by rw [hg] at ha; cases ha
  | some g =>
    by_cases hu : t.heap.status g = .unknown
    · dsimp only
      rw [if_pos hu]
      have hgu : s.heap.status g = .unknown := (h.status g).symm.trans hu
      have hgn := hwhole g hg
      rw [← bind_bind, wp_bind]
      refine wp_mono (wp_collectAt (h.rlist ▸ hs)) (fun r v hv => ?_) fun _ _ he => he
      have hflag := Ahead.flag v (fun hm => hgn (List.mem_cons_of_mem n hm))
        (f := fun a => { a with processed := true }) fun _ => ⟨rfl, rfl, rfl⟩
      rw [wp_bind]
      refine last r _ ((h.toAhead.tail.trans hv.ahead).trans hflag) hv.watch fun l hl => ?_
      have hdue := due_whole (i := i) (w := t.watch) hfallen hn hg hgu hgn
        (fun x hx => hv.others x (by rwa [h.solver])) hl
      have hcount := h.count
      have hdrop := hv.count
      rw [State.working_of_scene h.scene] at hdrop
      change ((s.working n v.idleSolvers + s.due i t.watch ns l : Nat) : Int) ≤ v.config.partitionCount
      omega
    · dsimp only
      rw [if_neg hu]
      refine alone fun a ha => ?_
      rw [hg, Option.some.injEq] at ha
      rwa [← ha, ← h.status]

theorem wp_passTimeout (hs : s.rlist.Nodup) (h : Ahead (n :: ns) s t) (hn : n ∉ ns)
    (hfallen : ¬ s.Fallen n) (hlate : (s.expires i w n).1 = true) (hw : t.watch = (s.expires i w n).2)
    (hcount : (s.due i w (n :: ns) t.idleSolvers : Int) ≤ t.config.partitionCount) :
    wp (passTimeout n) (fun _ u => Amid i ns s u) (fun _ u => 0 ≤ u.config.partitionCount) t := by
  have hassumed := h.assumed n List.mem_cons_self
  -- all solvers of the node are idle
  have idled {u : State} (hsame : Ahead ns s u) (hwatch : u.watch = t.watch)
      (hall : ∀ x ∈ t.solvers (.at (some n)), x ∈ u.idleSolvers)
      (hcalled : ∀ x, (t.solver x).node ≠ some n → (x ∈ u.idleSolvers ↔ x ∈ t.idleSolvers))
      (hdrop : u.config.partitionCount +
        (if (s.heap.attrs n).assumedTimout then 0 else t.working n t.idleSolvers : Nat) =
          t.config.partitionCount) : Amid i ns s u := by
    have hdue := due_late hfallen hlate hn (fun x hx => hcalled x (by rwa [h.solver]))
      fun x hx hnode _ => hall x ?_
    · refine ⟨hsame, ?_⟩
      rw [State.working_of_scene h.scene] at hdrop
      rw [hwatch, hw]
      omega
    · rw [State.solvers_of_scene h.scene]
      exact State.mem_solvers.mpr ⟨(State.mem_solvers.mp hx).1, by simp [Which.holds, hnode]⟩
  have parted : wp (retire n (!(t.heap.attrs n).assumedTimout)) (fun _ u => Amid i ns s u)
      (fun _ u => 0 ≤ u.config.partitionCount) t := by
    rw [retire, ← bind_bind, wp_bind]
    refine wp_mono (wp_addIdlesAt (h.rlist ▸ hs)) (fun _ v hv => ?_) fun _ _ he => he.elim
    obtain ⟨hall, hv⟩ := hv
    have hflag := (Ahead.flag v hn (f := fun a => { a with processed := true }) fun _ =>
      ⟨rfl, rfl, rfl⟩).trans (Ahead.flag _ hn (f := fun a => { a with isTimeout := true }) fun _ =>
        ⟨rfl, rfl, rfl⟩)
    refine idled ((h.tail.trans hv.ahead).trans hflag) hv.watch hall hv.others ?_
    have hdrop := hv.count
    rw [hassumed] at hdrop
    cases ha : (s.heap.attrs n).assumedTimout
    all_goals simpa [ha] using hdrop
  have unparted (hparted : ¬ s.Parted n) :
      wp (when ((t.heap.attrs n).assumedTimout = false) (suspend n)) (fun _ u => Amid i ns s u)
        (fun _ u => 0 ≤ u.config.partitionCount) t := by
    rw [wp_when, hassumed]
    refine ⟨fun ha => ?_, fun ha => ?_⟩
    · rw [suspend, ← bind_bind, wp_bind]
      refine wp_mono (wp_addIdlesAt (h.rlist ▸ hs)) (fun _ v hv => ?_) fun _ _ he => he.elim
      obtain ⟨hall, hv⟩ := hv
      have hflag := Ahead.flag v hn (f := fun a => { a with assumedTimout := true }) fun _ =>
        ⟨rfl, rfl, rfl⟩
      refine idled ((h.tail.trans hv.ahead).trans hflag) hv.watch hall hv.others ?_
      simpa [ha] using hv.count
    · have hdue := due_late hfallen hlate hn (fun x _ => (.rfl : x ∈ t.idleSolvers ↔ _))
        fun x _ _ hor => hor.resolve_right fun h => h.elim ha hparted
      refine ⟨h.tail, ?_⟩
      rw [hw]
      omega
  have hparted : s.Parted n ↔ (t.heap.attrs n).partitioning = true ∧
      ∃ o ∈ (t.heap.children n).head?, t.heap.children o ≠ [] := by
    rw [State.Parted, h.partitioning, h.forest]
  rw [passTimeout, wp_bind, wp_get]
  dsimp only
  by_cases hp : (t.heap.attrs n).partitioning = true
  · rw [if_pos hp]
    cases hc : t.heap.children n with
    | nil =>
      rw [wp_bind, wp_raise]
      exact Int.le_trans (Int.natCast_nonneg _) hcount
    | cons o os =>
      dsimp only
      rw [wp_bind, wp_pure]
      by_cases ho : t.heap.children o = []
      · rw [if_neg (by simpa using ho)]
        exact unparted fun h => by simpa [hc, ho] using hparted.mp h
      · rw [if_pos (by simpa using ho)]
        exact parted
  · rw [if_neg hp, wp_bind, wp_pure, if_neg (by decide)]
    exact unparted fun h => hp (hparted.mp h).1

/-- The same but for the clock and the node timeout. -/
structure Clocked (w : Watch) (t u : State) : Prop where
  scene : u.scene = t.scene
  heap : u.heap = t.heap
  idleSolvers : u.idleSolvers = t.idleSolvers
  count : u.config.partitionCount = t.config.partitionCount
  watch : u.watch = w

theorem wp_chooseNodeTimeout (h : Ahead ns s t) : wp (chooseNodeTimeout i)
    (fun _ u => Clocked (s.chosen i t.watch) t u)
    (fun _ u => u.config.partitionCount = t.config.partitionCount) t := by
  rw [chooseNodeTimeout, wp_bind, wp_get, wp_bind]
  change wp _ _ _ { t with world := { t.world with clockTick := t.world.clockTick + 1 } }
  rw [h.root, h.started]
  have hclock := h.clock
  cases hst : (s.heap.attrs (s.root i)).started with
  | none => exact rfl
  | some started =>
    dsimp only
    rw [hclock]
    split
    · next hround =>
      refine ⟨rfl, rfl, rfl, rfl, ?_⟩
      simp only [State.chosen, hst]
      exact (if_pos hround).symm
    · next hround =>
      refine ⟨rfl, rfl, rfl, rfl, ?_⟩
      simp only [State.chosen, hst]
      rw [← hclock] at hround ⊢
      exact (if_neg hround).symm

/-- A node that is neither solved nor processed. -/
theorem wp_passLive (hs : s.rlist.Nodup) (h : Amid i (n :: ns) s t) (hn : n ∉ ns)
    (hand : s.heap.isAnd n = true) (hprocessed : (s.heap.attrs n).processed = false)
    (hu : s.heap.status n ≠ .unsat) {k : M Pass}
    (hk : ∀ u, Amid i ns s u → wp k (fun _ v => Amid i ns s v)
      (fun _ v => 0 ≤ v.config.partitionCount) u) :
    wp (do
      if ← timedOut n then do
        passTimeout n
        k
      else do
        let s ← get
        when (truthy s.config.nodeTimeout = none ∧ s.heap.len n = 0 ∧
          (s.solvers (.at (some n))).length = 1) (chooseNodeTimeout i)
        k) (fun _ u => Amid i ns s u) (fun _ u => 0 ≤ u.config.partitionCount) t := by
  have hfallen : ¬ s.Fallen n := fun hf => hu hf.2.2
  have hexpires := show s.expires i t.watch n = _ from if_pos ⟨hand, hprocessed, hu⟩
  have skip {u : State} (hlate : (s.expires i t.watch n).1 = false)
      (hu : Clocked (s.expires i t.watch n).2 t u) : Amid i ns s u := by
    refine ⟨h.toAhead.tail.trans (.of_heap hu.scene hu.heap), ?_⟩
    rw [hu.watch, hu.idleSolvers, hu.count, ← due_skip hfallen hlate]
    exact h.count
  have hlen : t.heap.len n = s.heap.len n := by rw [Heap.len, Heap.len, h.forest]
  have hsolvers := State.solvers_of_scene h.scene (.at (some n))
  rw [wp_bind, timedOut, wp_bind, wp_get, h.started]
  cases hlimit : truthy t.config.nodeTimeout with
  | none =>
    have hwatch : s.expires i t.watch n = (false, if s.heap.len n = 0 ∧
        (s.solvers (.at (some n))).length = 1 then s.chosen i t.watch else t.watch) := by
      rw [hexpires]
      simp only [State.watch, hlimit, true_and]
    rw [hwatch] at skip
    dsimp only
    rw [wp_pure, if_neg (by decide), wp_bind, wp_get, wp_bind, wp_when, hlimit, hlen, hsolvers]
    refine ⟨fun hc => ?_, fun hc => ?_⟩
    · rw [if_pos hc.2] at skip
      exact wp_mono (wp_chooseNodeTimeout h.toAhead) (fun _ u hu => hk u (skip rfl hu))
        fun _ u he => he ▸ h.nonneg
    · rw [if_neg fun h => hc ⟨rfl, h⟩] at skip
      exact hk t (skip rfl ⟨rfl, rfl, rfl, rfl, rfl⟩)
  | some limit =>
    have hwatch : truthy t.watch.limit = some limit := hlimit
    cases hstarted : truthy (s.heap.attrs n).started with
    | none =>
      have hgoing : s.expires i t.watch n = (false, t.watch) := by
        rw [hexpires]
        simp [hwatch, hstarted]
      rw [hgoing] at skip
      dsimp only
      rw [wp_pure, if_neg (by decide), wp_bind, wp_get, wp_bind, wp_when, hlimit]
      exact ⟨fun hc => absurd hc.1 (by simp), fun _ => hk t (skip rfl ⟨rfl, rfl, rfl, rfl, rfl⟩)⟩
    | some started =>
      have hread : s.expires i t.watch n = (decide (started + limit ≤ t.world.env.clock t.world.clockTick),
          { t.watch with tick := t.world.clockTick + 1 }) := by
        rw [hexpires, ← h.clock]
        simp only [hwatch, hstarted]
        rfl
      dsimp only
      change wp (if decide (started + limit ≤ t.world.env.clock t.world.clockTick) = true then _ else _)
        _ _ { t with world := { t.world with clockTick := t.world.clockTick + 1 } }
      split
      · next hlate =>
        have hlate' : (s.expires i t.watch n).1 = true := by rw [hread]; exact hlate
        rw [wp_bind]
        refine wp_mono
          (wp_passTimeout hs (h.toAhead.trans (.of_heap rfl rfl)) hn hfallen hlate' ?_ h.count)
          (fun _ v hv => hk v hv) fun _ _ he => he
        rw [hread]
        rfl
      · next hlate =>
        rw [hread] at skip
        rw [wp_bind, wp_get, wp_bind, wp_when]
        refine ⟨fun hc => ?_, fun _ => hk _ (skip (Bool.eq_false_iff.mpr hlate) ⟨rfl, rfl, rfl, rfl, rfl⟩)⟩
        rw [hlimit] at hc
        exact absurd hc.1 (by simp)

theorem wp_passNode (hs : s.rlist.Nodup) (h : Amid i (n :: ns) s t) (hn : n ∉ ns)
    (hwhole : ∀ g, s.whole n = some g → g ∉ n :: ns) :
    wp (passNode i acc n) (fun _ u => Amid i ns s u) (fun _ u => 0 ≤ u.config.partitionCount) t := by
  have last (solved : List SockId) (u : State) (hu : Amid i ns s u) :
      wp (aim acc n solved) (fun _ v => Amid i ns s v) (fun _ v => 0 ≤ v.config.partitionCount) u := by
    rw [aim, wp_bind, wp_get]
    dsimp only
    split
    · exact hu
    · exact hu
  have hprocessed := h.processed n List.mem_cons_self
  rw [passNode, wp_bind, wp_get, h.isAnd, hprocessed]
  split
  · next hlive =>
    rw [wp_bind, wp_when]
    refine ⟨fun _ => h.nonneg, fun _ => ?_⟩
    rw [h.status]
    split
    · next hu =>
      rw [wp_bind]
      exact wp_mono (wp_passUnsat hs h hn hwhole ⟨hlive.1, hlive.2, hu⟩)
        (fun solved u hu => last solved u hu) fun _ _ he => he.elim
    · next hu => exact wp_passLive hs h hn hlive.1 hlive.2 hu (last acc.solved)
  · next hdone =>
    have hfallen : ¬ s.Fallen n := fun hf => hdone ⟨hf.1, hf.2.1⟩
    have hexpires : s.expires i t.watch n = (false, t.watch) :=
      if_neg fun hl => hdone ⟨hl.1, hl.2.1⟩
    refine ⟨h.toAhead.tail, ?_⟩
    have hdue : s.due i t.watch (n :: ns) t.idleSolvers = _ :=
      due_skip hfallen (congrArg Prod.fst hexpires)
    rw [hexpires] at hdue
    exact hdue ▸ h.count

theorem Heap.level_whole {h : Heap} {o : NodeId} (hn : h.Attached n) (ho : h.truthyParent n = some o)
    (hg : h.parent o = some g) : h.level n = h.level g + 2 := by
  obtain ⟨hpar, _⟩ := Heap.truthyParent_eq_some.mp ho
  have hatt : h.Attached o := hn.parent hpar
  rw [Heap.level, Heap.level, Heap.path_some ho, Heap.path_child (hatt.mem_of_parent hg)]
  simp

/-- A node comes after the one it is a partition of. -/
theorem whole_notMem (hn : s.heap.Attached n)
    (hsorted : (n :: ns).Pairwise fun a b => s.heap.level a ≤ s.heap.level b)
    (hg : s.whole n = some g) : g ∉ n :: ns := by
  obtain ⟨o, ho, hog⟩ := Option.bind_eq_some_iff.mp hg
  have hlevel := Heap.level_whole hn ho hog
  intro hmem
  rcases List.mem_cons.mp hmem with rfl | hmem
  · omega
  · have hle := (List.pairwise_cons.mp hsorted).1 g hmem
    omega

/-- The count stays a count where it allows what is due. -/
theorem wp_pass (hs : Solving i s) (h : (s.passDue i : Int) ≤ s.config.partitionCount) :
    wp (foldEach (passNode i) {} (s.heap.sortByLevel (s.heap.all (s.root i))))
      (fun _ t => 0 ≤ t.config.partitionCount) (fun _ t => 0 ≤ t.config.partitionCount) s := by
  have hperm := List.perm_insertionSort (fun a b => s.heap.level a ≤ s.heap.level b)
    (s.heap.all (s.root i))
  have : Std.Total fun a b => s.heap.level a ≤ s.heap.level b := ⟨fun _ _ => Nat.le_total _ _⟩
  have : IsTrans NodeId fun a b => s.heap.level a ≤ s.heap.level b := ⟨fun _ _ _ => Nat.le_trans⟩
  have hsorted : (s.heap.sortByLevel (s.heap.all (s.root i))).Pairwise fun a b =>
      s.heap.level a ≤ s.heap.level b := List.pairwise_insertionSort _ _
  have start : Amid i (s.heap.sortByLevel (s.heap.all (s.root i))) s s ∧
      (∀ n ∈ s.heap.sortByLevel (s.heap.all (s.root i)), s.heap.Attached n) ∧
      (s.heap.sortByLevel (s.heap.all (s.root i))).Nodup ∧
      (s.heap.sortByLevel (s.heap.all (s.root i))).Pairwise fun a b =>
        s.heap.level a ≤ s.heap.level b :=
    ⟨⟨.refl, h⟩, fun n hn => hs.root.2.2.below (Heap.mem_all.mp (hperm.mem_iff.mp hn)),
      hperm.nodup_iff.mpr Heap.nodup_all, hsorted⟩
  refine wp_mono (wp_foldEach (I := fun _ ns t => Amid i ns s t ∧ (∀ n ∈ ns, s.heap.Attached n) ∧
    ns.Nodup ∧ ns.Pairwise fun a b => s.heap.level a ≤ s.heap.level b) ?_ start)
    (fun _ _ ht => ht.1.nonneg) fun _ _ ht => ht
  intro acc n ns t ht
  obtain ⟨ht, hatt, hnodup, hsorted⟩ := ht
  obtain ⟨hn, hnodup⟩ := List.nodup_cons.mp hnodup
  refine wp_mono (wp_passNode hs.consistent.distinct ht hn fun g hg =>
    whole_notMem (hatt n List.mem_cons_self) hsorted hg) (fun _ u hu => ?_) fun _ _ he => he
  exact ⟨hu, fun m hm => hatt m (List.mem_cons_of_mem _ hm), hnodup, hsorted.tail⟩

end Passing

section Counts

variable {ev : Event}

instance : View fun s : State => s.config.partitionCount :=
  ⟨fun h => congrArg Outline.partitionCount h⟩
instance : HidesWiring fun s : State => s.config.partitionCount :=
  ⟨fun h => (congrArg Outline.partitionCount h :)⟩
instance : HidesBusy fun s : State => s.config.partitionCount := ⟨fun _ _ => rfl⟩
instance : HidesIdle fun s : State => s.config.partitionCount := ⟨fun _ _ => rfl⟩
instance : HidesTotal fun s : State => s.config.partitionCount := ⟨fun _ _ => rfl⟩
instance : HidesLimit fun s : State => s.config.partitionCount := ⟨fun _ _ => rfl⟩
instance : HidesTerminate fun s : State => s.config.partitionCount := ⟨fun _ _ => rfl⟩
instance : HidesSeed fun s : State => s.config.partitionCount := ⟨fun _ _ => rfl⟩

/-- The number of partitions is one. -/
def State.Counts (s : State) : Prop := 0 ≤ s.config.partitionCount

theorem counts {α : Type} {m : M α} (h : Leaves (fun s : State => s.config.partitionCount) m) :
    Preserves State.Counts m := by
  intro s hs
  have hsame : (m s).2.config.partitionCount = s.config.partitionCount := h s
  rwa [State.Counts, hsame]

theorem counts_startNext : Preserves State.Counts startNext := by
  refine .bind (counts untouched_schedulables) fun is => ?_
  cases is with
  | nil => exact .pure _
  | cons i rest =>
    refine .bind (counts (.modify fun _ => rfl)) fun _ => .bind (counts (.modify fun _ => rfl))
      fun _ => ?_
    refine .bind (counts (by simp)) fun xs => .bind (.forEach (fun x => ?_) xs) fun _ => .pure _
    exact .bind (counts (by simp)) fun _ s _ => Int.le_refl 0

theorem counts_attend : Preserves State.Counts attend := by
  have settled (solving : Option InstId) : Preserves State.Counts (settle solving) := by
    cases solving with
    | none => exact .pure _
    | some i => exact .bind (counts (by simp)) fun ended => .ite (counts (by simp)) (.pure _)
  rw [attend]
  refine .bind (.gets _) fun solving => .bind (settled solving) fun returned => ?_
  refine .ite (.pure _) (.bind (.gets _) fun current => ?_)
  cases current with
  | none =>
    refine .bind counts_startNext fun started => ?_
    cases started with
    | true => exact .pure _
    | false => exact .bind (counts (by simp)) fun _ => .pure _
  | some i => exact .bind (counts (by simp)) fun _ => .bind .get fun _ => .pure _

/-- What is asked for is added to the count. -/
theorem counts_askPartitions (x : SockId) (k : Nat) :
    Preserves State.Counts (Solver.askPartitions x k) := by
  refine .bind (.modify fun s (hs : 0 ≤ s.config.partitionCount) => ?_) fun _ => .bind .get
    fun s => ?_
  · show 0 ≤ s.config.partitionCount + k
    omega
  · cases (s.solver x).node with
    | none => exact .raise _
    | some n =>
      refine .bind (counts (by simp)) fun _ => .bind .get fun s => .bind (.ofExcept _) fun r => ?_
      exact .bind (counts (.modify fun _ => rfl)) fun _ => .bind (counts (by simp)) fun _ =>
        counts (by simp)

theorem counts_partition (n : NodeId) : Preserves State.Counts (partition n) := by
  have askFirst (l : List SockId) : Preserves State.Counts (askFirst n l) := by
    induction l with
    | nil => exact .pure false
    | cons x xs ih =>
      refine .bind .get fun s => ?_
      split
      · refine .bind (counts (by simp)) fun t => .ite (.bind (counts (by simp)) fun k => ?_) ih
        exact .bind (counts_askPartitions x k) fun _ => .pure _
      · exact .raise _
  have partitionLoop (k : Nat) : Preserves State.Counts (partitionLoop n k) := by
    induction k with
    | zero => exact .pure false
    | succ k ih =>
      exact .bind (counts (by simp)) fun l => .bind (askFirst l) fun b => .ite (.pure _) ih
  exact .bind .get fun s => .bind (counts (by simp)) fun k => partitionLoop _

theorem counts_distribute (fuel : Nat) (i : InstId) (p : Option PNode) (nodes : List NodeId)
    (pass : Pass) : Preserves State.Counts (distribute fuel i p nodes pass) := by
  have request : Preserves State.Counts (request i pass) := by
    refine .bind .get fun s => .ite ?_ (.pure _)
    cases pass.toPartition with
    | none => exact .pure _
    | some n => exact .when (.bind (counts_partition n) fun _ => .pure _)
  have rest : Preserves State.Counts (redistribute i nodes pass) :=
    .bind (counts (by simp)) fun _ => request
  cases p with
  | none => exact rest
  | some p => exact .bind (counts (by simp)) fun _ => rest

theorem counts_survey (hs : Solving i s) {fuel : Nat}
    (h : (s.passDue i : Int) ≤ s.config.partitionCount) :
    wp (survey fuel i) (fun _ t => t.Counts) (fun _ t => t.Counts) s := by
  rw [survey, wp_bind, wp_get, wp_bind]
  refine wp_mono (wp_pass hs h) (fun acc t ht => ?_) fun _ _ ht => ht
  have rest : Preserves State.Counts (do
      relocate fuel i acc.solved
      return (s.heap.sortByLevel (s.heap.all (s.root i)), acc) : M (List NodeId × Pass)) :=
    .bind (counts (by simp)) fun _ => .pure _
  exact rest.wp ht

/-- The partitions that a reply brings to a node. -/
def State.arriving (s : State) (n : NodeId) (text : String) : Nat :=
  if s.heap.status n = .unknown then (Solver.pieces text).length else 0

theorem counts_recount {o : NodeId} (hs : s.Counts) (h : ∀ k : Nat, s.config.partitionPolicy[1]? = some k →
    (k : Int) ≤ s.config.partitionCount + s.heap.len o) :
    wp (Solver.recount o) (fun _ t => t.Counts) (fun _ t => t.Counts) s := by
  rw [Solver.recount, wp_bind, wp_get]
  cases hk : s.config.partitionPolicy[1]? with
  | none => exact hs
  | some k =>
    rw [wp_when]
    refine ⟨fun _ => ?_, fun _ => hs⟩
    have hle := h k hk
    show 0 ≤ s.config.partitionCount - k + s.heap.len o
    omega

theorem counts_readPartitions {header : Header} {payload : Payload} {o : NodeId} (hs : s.Counts)
    (hw : (s.solver x).orWaiting.getLast? = some o) (h : ∀ text, payload = some text →
      ∀ k : Nat, s.config.partitionPolicy[1]? = some k → (k : Int) ≤ s.config.partitionCount +
        (s.heap.reply o (some (Solver.pieces text))).len o) :
    wp (Solver.readPartitions x header payload) (fun _ t => t.Counts) (fun _ t => t.Counts) s := by
  rw [Solver.readPartitions, wp_bind, wp_get]
  simp only [hw]
  rw [wp_bind, wp_modifySolver]
  cases payload with
  | none => exact hs
  | some text =>
    have hcount := h text rfl
    simp only [Heap.reply] at hcount
    obtain ⟨r, hr⟩ : ∃ r, s.heap.addAnds o ((Solver.pieces text).map Solver.assertText) = r :=
      ⟨_, rfl⟩
    rw [hr] at hcount
    rcases r with ⟨_ | e, g⟩
    · simp only [hr]
      rw [wp_bind, wp_modifyHeap]
      cases ho : g.parent o with
      | none => exact hs
      | some p =>
        simp only [ho] at hcount ⊢
        rw [wp_bind, wp_when, hr]
        refine ⟨fun hk => ?_, fun hk => ?_⟩
        · rw [if_neg hk] at hcount
          rw [wp_modifyHeap, wp_bind]
          exact wp_mono (counts_recount hs hcount) (fun _ _ ht => ht) fun _ _ ht => ht
        · rw [if_pos (not_not.mp hk)] at hcount
          rw [wp_bind]
          exact wp_mono (counts_recount hs hcount) (fun _ _ ht => ht) fun _ _ ht => ht
    · simp only [hr]
      exact hs

/-- Of the partitions of an unknown node at most one is solved and not processed. -/
def State.Single (s : State) (i : InstId) : Prop :=
  ∀ a, s.heap.status a = .unknown → ((s.heap.sortByLevel (s.heap.all (s.root i))).countP fun n =>
    decide (s.Fallen n ∧ s.whole n = some a)) ≤ 1

/-- The pass sees to the node: it is solved or out of time, or one of its partitions is solved. -/
def State.Touched (s : State) (i : InstId) (a : NodeId) : Prop :=
  let nodes := s.heap.sortByLevel (s.heap.all (s.root i))
  s.Fallen a ∨ a ∈ s.expired i s.watch nodes ∨ ∃ n ∈ nodes, s.Fallen n ∧ s.whole n = some a

instance (s : State) (i : InstId) (a : NodeId) : Decidable (s.Touched i a) :=
  inferInstanceAs (Decidable (_ ∨ _ ∨ _))

/-- A solver is taken off at most once, while it works, if at most one partition of its node is
solved: a node that is solved itself has none that count, and one that is out of time spares its
solvers the first. -/
theorem discounts_le {w : Watch} {idle : Bool} (single : s.heap.status a = .unknown →
    (ns.countP fun n => decide (s.Fallen n ∧ s.whole n = some a)) ≤ 1) :
    s.discounts i w ns a idle ≤ (!idle).toNat := by
  simp only [State.discounts]
  by_cases hu : s.heap.status a = .unknown
  · have hfallen : ¬ s.Fallen a := fun h => absurd (hu.symm.trans h.2.2) (by decide)
    have hle := single hu
    simp only [hu, hfallen, and_false, decide_false, Bool.false_or, if_true]
    generalize (ns.countP fun n => decide (s.Fallen n ∧ s.whole n = some a)) = k at hle ⊢
    cases idle
    all_goals cases (s.heap.attrs a).assumedTimout
    all_goals cases decide (a ∈ s.expired i w ns)
    all_goals
      simp only [Bool.not_true, Bool.not_false, Bool.and_true, Bool.and_false, Bool.false_or,
        Bool.true_or, Bool.false_and, Bool.true_and, Bool.toNat_true, Bool.toNat_false]
      omega
  · rw [if_neg hu, Nat.zero_sub, Nat.add_zero, Bool.and_comm]
    exact Bool.toNat_le_toNat (Bool.and_le_left _ _)

theorem discounts_untouched (h : ¬ s.Touched i a) (idle : Bool) :
    s.discounts i s.watch (s.heap.sortByLevel (s.heap.all (s.root i))) a idle = 0 := by
  obtain ⟨hfallen, hlate, hparts⟩ : ¬ s.Fallen a ∧ _ ∧ _ := by
    simpa only [State.Touched, not_or] using h
  have hnone : (s.heap.sortByLevel (s.heap.all (s.root i))).countP
      (fun n => decide (s.Fallen n ∧ s.whole n = some a)) = 0 :=
    List.countP_eq_zero.mpr fun n hn => by simpa using fun hf hw => hparts ⟨n, hn, hf, hw⟩
  simp only [State.discounts, hnone]
  simp [hfallen, hlate]

/-- Then the discounts are covered where no more solvers work on the nodes that are seen to than
partitions are counted. -/
theorem State.passDue_covered (single : s.Single i) (h : (((s.solvers .all).countP fun x =>
      decide (x ∉ s.idleSolvers ∧ ∃ a ∈ (s.solver x).node, s.Touched i a) : Nat) : Int) ≤
    s.config.partitionCount) : (s.passDue i : Int) ≤ s.config.partitionCount := by
  refine le_trans (Int.ofNat_le.mpr (sum_le_countP fun x _ => ?_)) h
  cases hx : (s.solver x).node with
  | none => exact Nat.zero_le _
  | some a =>
    by_cases ht : s.Touched i a
    · have hle : s.discounts i s.watch (s.heap.sortByLevel (s.heap.all (s.root i))) a
          (decide (x ∈ s.idleSolvers)) ≤ (!decide (x ∈ s.idleSolvers)).toNat := discounts_le (single a)
      simpa [ht] using hle
    · exact (discounts_untouched ht _).le.trans (Nat.zero_le _)

/-- The count allows what the turn of an event takes off: the partitions that a reply falls short
of, and the discounts of the pass over the nodes. -/
structure Event.Balanced (ev : Event) (s : State) : Prop where
  reply : ∀ x n header text, ev = .message x header (some text) → s.kind x = .solver →
    Solver.Matches s x n header → header.lookup Constant.report = some Constant.partitions →
    (s.solver x).orWaiting ≠ [] → ∀ k : Nat, s.config.partitionPolicy[1]? = some k →
      (k : Int) ≤ s.config.partitionCount + s.arriving n text
  pass : ∀ p t i u, receive ev s = (.ok (some p), t) → attend t = (.ok (some i), u) →
    (u.passDue i : Int) ≤ u.config.partitionCount

theorem counts_read {header : Header} {payload : Payload} (hc : Consistent s) (hs : s.Counts)
    (hx : s.kind x = .solver) (h : (Event.message x header payload).Balanced s) :
    wp (Solver.read x header payload) (fun _ t => t.Counts) (fun _ t => t.Counts) s := by
  rw [Solver.read, wp_bind, wp_get]
  cases hrep : header.lookup Constant.report with
  | none => exact hs
  | some report =>
    cases hn : (s.solver x).node with
    | none => exact hs
    | some n =>
      cases hname : header.lookup Constant.name with
      | none => exact hs
      | some name =>
        cases hpath : header.lookup Constant.node with
        | none => exact hs
        | some path =>
          by_cases hm : (s.heap.label (s.heap.root n)).name ≠ name ∨ render (s.heap.path n) ≠ path
          · simp only [if_pos hm]
            exact hs
          · simp only [if_neg hm]
            by_cases hp : report = Constant.partitions ∧ (s.solver x).orWaiting ≠ []
            · rw [if_pos hp]
              obtain ⟨o, ho⟩ : ∃ o, (s.solver x).orWaiting.getLast? = some o :=
                Option.isSome_iff_exists.mp (by simpa using hp.2)
              refine counts_readPartitions hs ho fun text htext k hk => ?_
              subst htext
              simp only [not_or, not_not] at hm
              have hle := h.reply x n header text rfl hx ⟨hn, hm.1 ▸ hname, hm.2 ▸ hpath⟩
                (hrep.trans (congrArg some hp.1)) hp.2 k hk
              obtain ⟨hlt, hor, _, m, hnode, hmem⟩ := hc.seated.getLast_lt ho
              rw [hn, Option.some.injEq] at hnode
              subst hnode
              by_cases hu : s.heap.status n = .unknown
              · have hlen : (Solver.pieces text).length ≤ (s.heap.reply o _).len o :=
                  Heap.reply_len hlt hor (s.heap.parent_of_mem hmem) hu
                rw [State.arriving, if_pos hu] at hle
                omega
              · rw [State.arriving, if_neg hu] at hle
                omega
            · rw [if_neg hp]
              cases hst : SolveStatus.ofName? report with
              | none => exact hs
              | some status =>
                have rest : Preserves State.Counts (do
                    Solver.readStatus x n status
                    return { header := header.erase Constant.name, payload := payload } :
                      M Solver.Received) := .bind (counts (by simp)) fun _ => .pure _
                exact rest.wp hs

theorem counts_receive (hc : Consistent s) (hs : s.Counts) (h : ev.Balanced s) :
    (receive ev s).2.Counts := by
  cases ev with
  | timeout => exact hs
  | accept remote =>
    exact (counts (m := receive (.accept remote))
      (.bind (.modify fun _ => rfl) fun _ => .pure _)) s hs
  | closed x =>
    exact (counts (m := receive (.closed x)) (.bind (by simp) fun _ => .bind (by simp) fun _ =>
      .bind (.modify fun _ => rfl) fun _ => .pure _)) s hs
  | message x header payload =>
    refine wp_final ?_
    have log : Preserves State.Counts
        (when (s.config.enableLog = true ∧ payload = none) (raise .unicodeError) : M Unit) :=
      .when (.raise _)
    rw [receive, handleMessage, wp_bind, wp_get]
    split
    · next hx =>
      rw [wp_bind]
      refine wp_mono (counts_read hc hs hx h) (fun r t ht => ?_) fun _ _ ht => ht
      exact (log.bind fun _ => counts (by simp)).wp ht
    · exact (log.bind fun _ => counts (by simp)).wp hs

theorem counts_entrust (hc : Consistent s) (hs : s.Counts) {fuel : Nat} {p : Option PNode}
    (h : ∀ i u, attend s = (.ok (some i), u) → (u.passDue i : Int) ≤ u.config.partitionCount) :
    (entrust fuel p s).2.Counts := by
  have attended : Runs (Act.Entrusted True s.idleSolvers) True attend (Attended s) s :=
    runs_attend hc rfl (.inl trivial)
  have hattend := counts_attend s hs
  refine wp_final ?_
  rw [entrust, wp_bind]
  refine wp_of_run (fun r t hrun => ?_) fun _ t hrun => by rwa [hrun] at hattend
  rw [hrun] at hattend
  cases r with
  | none => exact hattend
  | some i =>
    have hsolving : Solving i t := ((wp_ok attended hrun).2 i rfl).1
    rw [wp_bind]
    refine wp_mono (counts_survey hsolving (h i t hrun)) (fun r u hu => ?_) fun _ _ hu => hu
    exact (counts_distribute fuel i p r.1 r.2).wp hu

theorem counts_step (hc : Consistent s) (hs : s.Counts) (h : ev.Balanced s) (hstep : Step s ev t) :
    t.Counts := by
  have hreceive := counts_receive hc hs h
  cases hstep with
  | mk running ready run ends =>
    rename_i fuel r u
    change u.Counts
    rw [handle, bind_run] at run
    split at run
    · next p v hrun =>
      rw [hrun] at hreceive
      cases p with
      | none =>
        cases run
        exact hreceive
      | some p =>
        have received : Runs (Act.Received True ev s) True (receive ev) (ev.Brings s) s :=
          runs_receive hc
        have hv : Consistent v := hc.path (fun _ _ ha => ha.1) (wp_ok received hrun).1
        have hfinal : (entrust fuel p v).2.Counts :=
          counts_entrust hv hreceive fun i w => h.pass p v i w hrun
        rwa [show entrust fuel p v = (r, u) from run] at hfinal
    · next e v hrun =>
      cases run
      rwa [hrun] at hreceive

/-- In runs whose turns take no more off the count than there is, it is never negative. -/
theorem partition_count_nonneg {env : Env} {config : Config} (start : 0 ≤ config.partitionCount)
    (h : Turns (fun s ev => ev.Balanced s) (State.init env config) s) :
    0 ≤ s.config.partitionCount := by
  have inv : Consistent s ∧ s.Counts := by
    refine h.invariant (I := fun s => Consistent s ∧ s.Counts) (fun s ev t hs hev hstep => ?_)
      ⟨.init env config, start⟩
    exact ⟨hs.1.step hstep, counts_step hs.1 hs.2 hev hstep⟩
  exact inv.2

end Counts

section Decidable

variable {ev : Event}

/-- What a reply falls short of is on the count. -/
def Event.Affords (s : State) : Event → Prop
  | .message x header (some text) => s.kind x = .solver → ∀ n ∈ (s.solver x).node,
      Solver.Matches s x n header → header.lookup Constant.report = some Constant.partitions →
      (s.solver x).orWaiting ≠ [] → ∀ k : Nat, k ∈ s.config.partitionPolicy[1]? →
        (k : Int) ≤ s.config.partitionCount + s.arriving n text
  | _ => True

instance (s : State) : (ev : Event) → Decidable (ev.Affords s)
  | .message _ _ (some _) => inferInstanceAs (Decidable (_ → _))
  | .message _ _ none | .timeout | .accept _ | .closed _ => isTrue trivial

/-- What the next pass takes off is on the count. -/
def State.PassAffords (s : State) : Prop :=
  ∀ i u, attend s = (.ok (some i), u) → (u.passDue i : Int) ≤ u.config.partitionCount

instance (s : State) : Decidable s.PassAffords :=
  match h : attend s with
  | (.ok (some i), u) =>
    decidable_of_iff ((u.passDue i : Int) ≤ u.config.partitionCount) <| by
      refine ⟨fun hle j v hj => ?_, fun hall => hall i u h⟩
      rw [h, Prod.mk.injEq, Except.ok.injEq, Option.some.injEq] at hj
      exact hj.1 ▸ hj.2 ▸ hle
  | (.ok none, _) => isTrue fun i u hi => by cases h.symm.trans hi
  | (.error _, _) => isTrue fun i u hi => by cases h.symm.trans hi

theorem Event.balanced_iff : ev.Balanced s ↔
    ev.Affords s ∧ ∀ t ∈ reached Option.isSome (receive ev s), t.PassAffords := by
  constructor
  · intro h
    refine ⟨?_, fun t ht i u hu => ?_⟩
    · cases ev with
      | message x header payload =>
        cases payload with
        | none => trivial
        | some text => exact fun hx n _ hm hrep hne k hk => h.reply x n header text rfl hx hm hrep hne k hk
      | _ => trivial
    · obtain ⟨r, hr, hrun⟩ := mem_reached.mp ht
      obtain ⟨p, rfl⟩ := Option.isSome_iff_exists.mp hr
      exact h.pass p t i u hrun hu
  · intro h
    refine ⟨fun x n header text he hx hm hrep hne k hk => ?_, fun p t i u hrun hu => ?_⟩
    · subst he
      exact h.1 hx n hm.node hm hrep hne k hk
    · exact h.2 t (mem_reached.mpr ⟨some p, rfl, hrun⟩) i u hu

instance (s : State) (ev : Event) : Decidable (ev.Balanced s) :=
  decidable_of_iff _ Event.balanced_iff.symm

end Decidable

/-- The first of the two partitions of an instance is solved by one of its two solvers, while a
third solver is still on the root. -/
def firstSolved : List Event := partitioned ++ [partUnsat]

theorem partition_count_nonneg_solved :
    ∃ s, firstSolved.foldlM (guarded (State.turn 3) fun s ev => ev.Balanced s)
        (State.init Env.steady { partitionTimeout := some second }) = some s ∧
      s.heap.status 2 = .unsat ∧ 0 ≤ s.config.partitionCount := by
  obtain ⟨s, h, hu⟩ := exists_of_any (o := firstSolved.foldlM
    (guarded (State.turn 3) fun s ev => ev.Balanced s)
    (State.init Env.steady { partitionTimeout := some second }))
    (P := fun s => s.heap.status 2 = .unsat) (by decide +kernel)
  exact ⟨s, h, hu, partition_count_nonneg (by decide) (.of_run (.of_script h))⟩

/-- Of four solvers three leave for the two partitions.  When the first partition is solved, its
two solvers and the one left on the root are all taken off. -/
def fourSolvers : List Event :=
  [.accept "a", .message 1 [(Constant.solver, "OpenSMT2")] (some ""),
    .accept "b", .message 3 [(Constant.solver, "OpenSMT2")] (some ""),
    .accept "c", .message 5 [(Constant.solver, "OpenSMT2")] (some ""),
    .accept "d", .message 7 [(Constant.solver, "OpenSMT2")] (some ""), .accept "e",
    .message 9 [(Constant.command, Constant.solve), (Constant.name, "a.smt2")]
      (some "(assert true)"), .timeout, .timeout,
    .message 2 [(Constant.report, "partitions"), (Constant.name, "a.smt2"), (Constant.node, "[]")]
      (some "x\x00y"), partUnsat]

theorem partition_count_negative :
    ∃ s, Turns (fun _ _ => True)
        (State.init Env.steady { partitionTimeout := some (12 * second) }) s ∧
      s.config.partitionCount < 0 := by
  obtain ⟨s, h, hneg⟩ := exists_of_any (o := fourSolvers.foldlM
    (guarded (State.turn 3) fun _ _ => True)
    (State.init Env.steady { partitionTimeout := some (12 * second) }))
    (P := fun s => s.config.partitionCount < 0) (by decide +kernel)
  exact ⟨s, .of_run (.of_script h), hneg⟩

end Smts.Server
