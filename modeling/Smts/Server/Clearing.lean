import Smts.Lib.Returns
import Smts.Server.Receiving
import Smts.Server.Settings

namespace Smts.Server

open Smts.Lib Smts.Lib.Prog

variable {i : InstId} {n : NodeId} {x : SockId} {xs : List SockId} {s t : State}

theorem Still.returns {α : Type} {m : M α} (h : Still m) : Returns m (fun _ t => Quiet s t) s :=
  h.wp (fun _ _ ht => ht) fun _ _ _ _ => trivial

/-- Of the connected solvers only `xs` may be on unsat nodes. -/
def State.Strays (s : State) (xs : List SockId) : Prop :=
  ∀ x n, s.Connected x → (s.solver x).node = some n → s.heap.status n = .unsat → x ∈ xs

/-- In `t` only `xs` may be on unsat nodes, and no status has changed since `s`. -/
structure Tidied (s : State) (xs : List SockId) (t : State) : Prop where
  strays : t.Strays xs
  status : ∀ n, t.heap.status n = s.heap.status n

namespace State.Strays

theorem mono {ys : List SockId} (h : s.Strays xs) (sub : xs ⊆ ys) : s.Strays ys :=
  fun x n hx hn hu => sub (h x n hx hn hu)

theorem of_eq (h : s.Strays xs) (connected : ∀ x, t.Connected x → s.Connected x)
    (node : ∀ x, (t.solver x).node = (s.solver x).node)
    (status : ∀ n, t.heap.status n = s.heap.status n) : t.Strays xs := by
  intro x n hx hn hu
  rw [node] at hn
  rw [status] at hu
  exact h x n (connected x hx) hn hu

theorem quiet (h : s.Strays xs) (hq : Quiet s t) : t.Strays xs :=
  h.of_eq (fun x => (hq.connected x).mp) hq.node hq.heap.status

theorem perm {ys : List SockId} (h : s.Strays xs) (hp : ys.Perm xs) : s.Strays ys :=
  h.mono hp.symm.subset

end State.Strays

namespace Tidied

theorem start (h : s.Strays xs) : Tidied s xs s := ⟨h, fun _ => rfl⟩

theorem quiet {u : State} (h : Tidied s xs t) (hq : Quiet t u) : Tidied s xs u :=
  ⟨h.strays.quiet hq, fun n => (hq.heap.status n).trans (h.status n)⟩

theorem trans {u : State} {ys : List SockId} (h : Tidied s xs t) (h' : Tidied t ys u) :
    Tidied s ys u :=
  ⟨h'.strays, fun n => (h'.status n).trans (h.status n)⟩

theorem still {α : Type} {m : M α} (h : Tidied s xs t) (hm : Still m) :
    Returns m (fun _ => Tidied s xs) t :=
  hm.returns.mono fun _ _ hq => h.quiet hq

/-- A change of the state that neither solvers nor nodes notice. -/
theorem frame {u : State} (h : Tidied s xs t) (rlist : u.rlist = t.rlist) (kind : u.kind = t.kind)
    (solver : u.solver = t.solver) (heap : u.heap = t.heap) : Tidied s xs u := by
  refine ⟨h.strays.of_eq (fun x hx => ?_) (fun x => by rw [solver]) fun n => by rw [heap],
    fun n => by rw [heap, h.status]⟩
  rwa [State.Connected, rlist, kind] at hx

end Tidied

section Moving

/-- A solver that moves to an unknown node is no longer on an unsat one. -/
theorem returns_incremental (h : Tidied s (x :: xs) t) (hn : s.heap.status n = .unknown) :
    Returns (Solver.incremental x n) (fun _ => Tidied s xs) t := by
  refine Solver.wp_incremental (fun _ _ _ _ => trivial) fun a m u _ _ hq => ?_
  refine Tidied.quiet (t := (Act.move x n m).apply t) ⟨fun y k hy hk hu => ?_, h.status⟩ hq
  by_cases hyx : y = x
  · subst hyx
    simp only [Act.apply, State.modifySolver, Function.update_self, Option.some.injEq] at hk
    subst hk
    have hknown : t.heap.status n = .unsat := hu
    rw [h.status, hn] at hknown
    cases hknown
  · simp only [Act.apply, State.modifySolver, Function.update_of_ne hyx] at hk
    exact (List.mem_cons.mp (h.strays y k hy hk hu)).resolve_left hyx

theorem Tidied.busy (h : Tidied s [] t) (x : SockId) : Tidied s [x] t :=
  ⟨h.strays.mono (List.nil_subset _), h.status⟩

theorem State.mem_activeNodes {nodes : List NodeId} (h : n ∈ s.activeNodes nodes) :
    s.heap.status n = .unknown := by
  have h := (List.mem_filter.mp h).2
  simp only [Bool.and_eq_true] at h
  exact of_decide_eq_true h.1.1

theorem returns_inOrder (h : Tidied s xs t) :
    Returns (inOrder xs) (fun l u => Tidied s l u ∧ ∀ n, u.heap.status n = t.heap.status n) t :=
  wp_inOrder fun _ _ hq hp =>
    ⟨⟨(h.quiet hq).strays.perm hp, (h.quiet hq).status⟩, hq.heap.status⟩

theorem returns_relocateTo {child : NodeId} (h : Tidied s xs t) :
    Returns (relocateTo xs child) (fun l => Tidied s l) t := by
  refine Returns.get ?_
  dsimp only
  split
  · exact Returns.pure h
  · next n ns hactive =>
    have hmem : n ∈ t.activeNodes (t.heap.all child) :=
      (List.perm_insertionSort _ _).mem_iff.mp (hactive ▸ List.mem_cons_self)
    have hn : s.heap.status n = .unknown := (h.status n).symm.trans (State.mem_activeNodes hmem)
    refine Returns.bind (returns_inOrder h) fun l u ⟨hu, _⟩ => ?_
    cases l with
    | nil => exact Returns.pure hu
    | cons y rest => exact Returns.bind (returns_incremental hu hn) fun _ _ hv => Returns.pure hv

theorem returns_relocate {fuel : Nat} (h : Tidied s xs t) :
    Returns (relocate fuel i xs) (fun _ => Tidied s []) t := by
  refine Returns.get (Returns.when (fun _ => ?_) fun hnil => ?_)
  · refine Returns.bind (Q := fun _ => Tidied s xs) (Returns.ofExcept fun _ _ => h) fun _ u hu => ?_
    exact Returns.whileNonempty (fun l v hv =>
      Returns.foldEach (I := fun l _ => Tidied s l) (fun _ _ _ _ => returns_relocateTo) hv) hu
  · rw [not_not.mp hnil] at h
    exact h

theorem still_movableSolvers (p : PNode) : Still (movableSolvers p) := by
  refine Still.get.bind fun s => Still.ite ?_ (Still.get.bind fun _ => Still.inOrder _)
  cases p with
  | text => exact Still.raise (by decide)
  | node n =>
    refine Still.foldEach (fun acc m => ?_) _ _
    exact (Still.get.bind fun _ => Still.inOrder _).bind fun _ => Still.get.bind
      fun _ => Still.pure _

theorem PNode.unknown_of_mem {p : PNode} {h : Heap} {childs : List NodeId}
    (hp : p.childeren h = .ok childs) (hn : n ∈ childs) : h.status n = .unknown := by
  cases p with
  | text => cases hp
  | node m => exact (Heap.mem_childeren hp hn).2

theorem returns_spread {fuel : Nat} {p : PNode} (h : Tidied s [] t) :
    Returns (spread fuel p) (fun _ => Tidied s []) t := by
  refine Returns.bind (h.still (still_movableSolvers p)) fun movable u hu => ?_
  refine Returns.whileNonempty (I := fun _ => Tidied s []) (fun l v hv => Returns.get ?_) hu
  refine Returns.bind (Q := fun childs w => Tidied s [] w ∧ ∀ n ∈ childs, s.heap.status n = .unknown)
    (Returns.ofExcept fun childs hc => ⟨hv, fun n hn => ?_⟩) fun childs w ⟨hw, hunknown⟩ => ?_
  · rw [← hv.status]
    exact PNode.unknown_of_mem hc hn
  · refine (Returns.foldEach (I := fun _ ns w => Tidied s [] w ∧
      ∀ n ∈ ns, s.heap.status n = .unknown) ?_ ⟨hw, hunknown⟩).mono fun _ _ h => h.1
    intro movable n ns w ⟨hw, hns⟩
    have rest : ∀ m ∈ ns, s.heap.status m = .unknown :=
      fun m hm => hns m (List.mem_cons_of_mem _ hm)
    cases movable with
    | nil => exact Returns.pure ⟨hw, rest⟩
    | cons y ys =>
      exact Returns.bind (returns_incremental (hw.busy y) (hns n List.mem_cons_self))
        fun _ _ hv => Returns.pure ⟨hv, rest⟩

theorem returns_reassignTo {leaf : NodeId} (h : Tidied s [] t) :
    Returns (reassignTo leaf) (fun _ => Tidied s []) t := by
  refine Returns.get (Returns.when (fun ⟨hfree, _⟩ => ?_) fun _ => h)
  have hleaf : s.heap.status leaf = .unknown := by
    simp only [State.unAttempted, Bool.and_eq_true, decide_eq_true_eq] at hfree
    exact (h.status leaf).symm.trans hfree.1.1.1.2
  refine Returns.bind (Q := fun _ => Tidied s []) (wp_pickIdle h (fun _ _ => h)
    fun _ _ => trivial) fun picked u hu => ?_
  cases picked with
  | none => exact Returns.pure hu
  | some y =>
    refine Returns.bind (Q := fun _ => Tidied s []) (hu.frame rfl rfl rfl rfl) fun _ v hv => ?_
    exact returns_incremental (hv.busy y) hleaf

theorem returns_sendIdle {target : NodeId} (h : Tidied s [] t)
    (hn : s.heap.status target = .unknown) : Returns (sendIdle target) (fun _ => Tidied s []) t := by
  refine Returns.get (Returns.ite (fun _ => Returns.raise) fun _ => ?_)
  refine Returns.bind (Q := fun _ => Tidied s []) (h.frame rfl rfl rfl rfl) fun _ u hu => ?_
  refine Returns.get ?_
  cases u.idleSolvers with
  | nil => exact Returns.pure hu
  | cons y ys =>
    refine Returns.when (fun _ => ?_) fun _ => hu
    exact Returns.bind (returns_incremental (hu.busy y) hn) fun _ v hv => hv.frame rfl rfl rfl rfl

theorem returns_reassign {nodes : List NodeId} {pass : Pass} (h : Tidied s [] t)
    (target : ∀ n, pass.toPartition = some n → s.heap.status n = .unknown) :
    Returns (reassign nodes pass) (fun _ => Tidied s []) t := by
  refine Returns.get (Returns.when (fun _ => ?_) fun _ => h)
  refine Returns.bind (Returns.forEach (I := fun _ => Tidied s [])
    (fun _ _ _ => returns_reassignTo) h) fun _ u hu => ?_
  refine Returns.get (Returns.bind (Q := fun _ => Tidied s [])
    (Returns.when (fun _ => Returns.raise) fun _ => hu) fun _ v hv => ?_)
  cases htarget : pass.toPartition with
  | none => exact Returns.pure hv
  | some n => exact Returns.when (fun _ => returns_sendIdle hv (target n htarget)) fun _ => hv

/-- A request adds a node that is unknown. -/
theorem returns_askFirst {l : List SockId} (h : s.Strays []) :
    Returns (askFirst n l) (fun _ t => t.Strays []) s := by
  induction l generalizing s with
  | nil => exact Returns.pure h
  | cons y ys ih =>
    refine Returns.get ?_
    split
    · refine Returns.bind (Still.now.returns) fun time t hq => Returns.ite (fun _ => ?_) fun _ =>
        ih (h.quiet hq)
      refine Returns.bind (still_levelChildren _).returns fun k u hu => ?_
      have hu : u.Strays [] := h.quiet (hq.trans hu)
      refine Returns.bind (Q := fun _ t => t.Strays []) (Solver.wp_askPartitions
        (fun _ _ _ _ => trivial) fun m v _ hlt hand hv => ?_) fun _ _ hv => Returns.pure hv
      refine State.Strays.quiet (fun z k hz hk hunsat => ?_) hv
      have hnode : (u.solver z).node = some k := by
        by_cases hzy : z = y
        · subst hzy
          simpa [Act.apply, State.modifySolver] using hk
        · simpa [Act.apply, State.modifySolver, hzy] using hk
      refine hu z k hz hnode ?_
      rw [Act.apply, Heap.ask_status hlt hand] at hunsat
      split at hunsat
      · cases hunsat
      · exact hunsat
    · exact Returns.raise

theorem returns_partition (h : s.Strays []) :
    Returns (partition n) (fun _ t => t.Strays []) s := by
  have loop : ∀ k (s : State), s.Strays [] →
      Returns (partitionLoop n k) (fun _ t => t.Strays []) s := by
    intro k
    induction k with
    | zero => exact fun s h => Returns.pure h
    | succ k ih =>
      intro s h
      refine Returns.bind (Q := fun _ t => t.Strays [])
        ((Still.get.bind fun _ => Still.inOrder _).returns.mono fun _ _ hq => h.quiet hq)
        fun l t ht => ?_
      refine Returns.bind (returns_askFirst ht) fun asked u hu => ?_
      exact Returns.ite (fun _ => Returns.pure hu) fun _ => ih u hu
  refine Returns.get (Returns.bind (still_levelChildren _).returns fun k t hq => ?_)
  exact loop _ t (h.quiet hq)

theorem returns_distribute {fuel : Nat} {p : Option PNode} {nodes : List NodeId} {pass : Pass}
    (h : s.Strays []) (target : ∀ n, pass.toPartition = some n → s.heap.status n = .unknown) :
    Returns (distribute fuel i p nodes pass) (fun _ t => t.Strays []) s := by
  have rest : ∀ t, Tidied s [] t →
      Returns (distribute fuel i none nodes pass) (fun _ u => u.Strays []) t := by
    intro t ht
    refine Returns.bind (returns_reassign ht target) fun _ u hu => Returns.get ?_
    refine Returns.ite (fun _ => ?_) fun _ => Returns.pure hu.strays
    cases pass.toPartition with
    | none => exact Returns.pure hu.strays
    | some n =>
      refine Returns.when (fun _ => ?_) fun _ => hu.strays
      exact Returns.bind (returns_partition hu.strays) fun _ _ hv => Returns.pure hv
  cases p with
  | none => exact rest s (.start h)
  | some q => exact Returns.bind (returns_spread (.start h)) fun _ t ht => rest t ht

end Moving

section Collecting

/-- What the pass over the nodes leaves alone, when it flags no nodes but those of `free`. -/
structure Pinned (free : NodeId → Prop) (s t : State) : Prop where
  connected : ∀ x, t.Connected x ↔ s.Connected x
  node : ∀ x, (t.solver x).node = (s.solver x).node
  isAnd : ∀ m, t.heap.isAnd m = s.heap.isAnd m
  status : ∀ m, t.heap.status m = s.heap.status m
  processed : ∀ m, ¬ free m → (t.heap.attrs m).processed = (s.heap.attrs m).processed

variable {free : NodeId → Prop}

namespace Pinned

theorem refl (s : State) : Pinned free s s :=
  ⟨fun _ => Iff.rfl, fun _ => rfl, fun _ => rfl, fun _ => rfl, fun _ _ => rfl⟩

theorem trans {u : State} (h : Pinned free s t) (h' : Pinned free t u) : Pinned free s u where
  connected x := (h'.connected x).trans (h.connected x)
  node x := (h'.node x).trans (h.node x)
  isAnd m := (h'.isAnd m).trans (h.isAnd m)
  status m := (h'.status m).trans (h.status m)
  processed m hm := (h'.processed m hm).trans (h.processed m hm)

theorem quiet (h : Quiet s t) : Pinned free s t where
  connected := h.connected
  node := h.node
  isAnd _ := Heap.isAnd_congr h.heap.label
  status := h.heap.status
  processed m _ := h.heap.processed m

theorem still {α : Type} {m : M α} (h : Still m) : Returns m (fun _ => Pinned free s) s :=
  h.returns.mono fun _ _ => quiet

theorem idle (l : List SockId) : Pinned free s { s with idleSolvers := l } :=
  ⟨fun _ => Iff.rfl, fun _ => rfl, fun _ => rfl, fun _ => rfl, fun _ _ => rfl⟩

theorem process (hn : free n) :
    Pinned free s { s with heap := s.heap.modify n fun a => { a with processed := true } } where
  connected _ := Iff.rfl
  node _ := rfl
  isAnd _ := rfl
  status m := by
    rw [Heap.modify_status]
    split
    · next hm => rw [hm]; rfl
    · rfl
  processed m hm := by
    simp only [Heap.modify_attrs]
    split
    · next hmn => exact absurd (hmn ▸ hn) hm
    · rfl

end Pinned

theorem returns_collectSolver {acc : List SockId} :
    Returns (collectSolver acc x) (fun r t => Pinned free s t ∧ acc ⊆ r ∧ x ∈ r) s := by
  have last : ∀ t, Pinned free s t → Returns
      (Pure.pure (if x ∈ acc then acc else acc ++ [x]) : M (List SockId))
      (fun r t => Pinned free s t ∧ acc ⊆ r ∧ x ∈ r) t := by
    intro t ht
    refine Returns.pure ⟨ht, ?_⟩
    split
    · next hx => exact ⟨fun _ hy => hy, hx⟩
    · exact ⟨List.subset_append_left _ _, List.mem_append_right _ (List.mem_singleton_self x)⟩
  refine Returns.get (Returns.ite (fun _ => ?_) fun _ => ?_)
  · exact Returns.bind (Q := fun _ => Pinned free s) (Pinned.idle _) fun _ t ht => last t ht
  · refine Returns.bind (Q := fun _ => Pinned free s) ?_ fun _ t ht => last t ht
    exact Pinned.still (Still.modifyConfig (fun _ => rfl) fun _ => rfl)

theorem returns_collect (free : NodeId → Prop) {acc l : List SockId} :
    Returns (foldEach collectSolver acc l)
      (fun r t => Pinned free s t ∧ acc ⊆ r ∧ l ⊆ r) s := by
  have start : Pinned free s s ∧ acc ⊆ acc ∧ ∀ x ∈ l, x ∈ acc ∨ x ∈ l :=
    ⟨.refl s, fun _ hx => hx, fun _ hx => .inr hx⟩
  refine (Returns.foldEach (I := fun r as t => Pinned free s t ∧ acc ⊆ r ∧ ∀ x ∈ l, x ∈ r ∨ x ∈ as)
    ?_ start).mono fun r t ⟨ht, hsub, hl⟩ =>
      ⟨ht, hsub, fun x hx => (hl x hx).resolve_right List.not_mem_nil⟩
  intro r y ys t ⟨ht, hsub, hl⟩
  refine returns_collectSolver.mono fun r' u ⟨hu, hsub', hy⟩ => ⟨ht.trans hu,
    fun z hz => hsub' (hsub hz), fun x hx => ?_⟩
  rcases hl x hx with hr | hr
  · exact .inl (hsub' hr)
  · rcases List.mem_cons.mp hr with rfl | hr
    · exact .inl hy
    · exact .inr hr

/-- The solvers of a node in the order of a set. -/
theorem returns_solversAt (free : NodeId → Prop) :
    Returns (solvers (.at (some n))) (fun l t => Pinned free s t ∧
      ∀ x, s.Connected x → (s.solver x).node = some n → x ∈ l) s := by
  refine Returns.get (wp_inOrder fun l t hq hp => ⟨.quiet hq, fun x hx hn => ?_⟩)
  exact hp.mem_iff.mpr (State.mem_solvers.mpr ⟨hx, by simpa [Which.holds] using hn⟩)

/-- All solvers of an unsat node are collected, and nodes are flagged: this one, or an unknown
one above it. -/
theorem returns_passUnsat {solved : List SockId} (hn : free n)
    (hfree : ∀ m, s.heap.status m = .unknown → free m) :
    Returns (passUnsat n solved) (fun r t => Pinned free s t ∧ solved ⊆ r ∧
      (t.heap.attrs n).processed = true ∧
      ∀ x, s.Connected x → (s.solver x).node = some n → x ∈ r) s := by
  have rest : ∀ r t, Pinned free s t → solved ⊆ r → Returns (collectAt n r)
      (fun r t => Pinned free s t ∧ solved ⊆ r ∧ (t.heap.attrs n).processed = true ∧
        ∀ x, s.Connected x → (s.solver x).node = some n → x ∈ r) t := by
    intro r t ht hsub
    refine Returns.bind (Q := fun _ u => Pinned free s u ∧ (u.heap.attrs n).processed = true)
      ⟨ht.trans (.process hn), by simp [Heap.modify_attrs]⟩ fun _ u ⟨hu, hflag⟩ => ?_
    have still : ∀ v, Pinned (fun _ => False) u v →
        Pinned free s v ∧ (v.heap.attrs n).processed = true := fun v hv =>
      ⟨hu.trans ⟨hv.connected, hv.node, hv.isAnd, hv.status, fun m _ => hv.processed m id⟩,
        (hv.processed n id).trans hflag⟩
    refine Returns.bind (returns_solversAt fun _ => False) fun l v ⟨hv, hl⟩ => ?_
    refine (returns_collect fun _ => False).mono fun r' w ⟨hw, hsub', hl'⟩ => ?_
    obtain ⟨hpin, hflag⟩ := still w (hv.trans hw)
    refine ⟨hpin, fun y hy => hsub' (hsub hy), hflag, fun y hy hnode => hl' (hl y ?_ ?_)⟩
    · exact (hu.connected y).mpr hy
    · exact (hu.node y).trans hnode
  refine Returns.get ?_
  dsimp only
  split
  · exact rest solved s (.refl s) fun _ hy => hy
  · next g _ =>
    refine Returns.ite (fun hg => ?_) fun _ => rest solved s (.refl s) fun _ hy => hy
    refine Returns.bind (returns_solversAt free) fun l t ⟨ht, _⟩ => ?_
    refine Returns.bind (returns_collect free) fun r u ⟨hu, hsub, _⟩ => ?_
    refine Returns.bind (Q := fun _ => Pinned free s)
      ((ht.trans hu).trans (.process (hfree g hg))) fun _ v hv => rest r v hv hsub

/-- A node that has used up its time keeps its solvers. -/
theorem returns_passTimeout (hn : free n) :
    Returns (passTimeout n) (fun _ => Pinned free s) s := by
  have addIdles : ∀ (counted : Bool) l t, Pinned free s t →
      Returns (forEach (addIdle counted) l) (fun _ => Pinned free s) t := by
    intro counted l t ht
    refine Returns.forEach (I := fun _ => Pinned free s) (fun y ys u hu => ?_) ht
    refine Returns.get (Returns.when (fun _ => ?_) fun _ => hu)
    refine Returns.bind (Q := fun _ => Pinned free s) (hu.trans (Pinned.idle _)) fun _ v hv => ?_
    refine Returns.mono (Pinned.still (Still.when ?_)) fun _ _ hw => hv.trans hw
    exact Still.modifyConfig (fun _ => rfl) fun _ => rfl
  have flag : ∀ (f : Attrs → Attrs) t, (∀ a, (f a).status = a.status) →
      (∀ a, (f a).partitioning = a.partitioning) → (∀ a, (f a).processed = a.processed) →
      Pinned free s t → Returns (modifyNode n f) (fun _ => Pinned free s) t :=
    fun f t hs hp hpr ht => Returns.mono (Pinned.still (Still.modifyNode n hs hp hpr))
      fun _ _ hu => ht.trans hu
  have assume : Returns (when ((s.heap.attrs n).assumedTimout = false) (suspend n))
      (fun _ => Pinned free s) s := by
    refine Returns.when (fun _ => ?_) fun _ => .refl s
    refine Returns.bind (returns_solversAt free) fun l t ⟨ht, _⟩ => ?_
    refine Returns.bind (addIdles true l t ht) fun _ u hu => ?_
    exact flag _ u (fun _ => rfl) (fun _ => rfl) (fun _ => rfl) hu
  refine Returns.get (Returns.ite (fun _ => ?_) fun _ => assume)
  cases s.heap.children n with
  | nil => exact Returns.raise
  | cons o os =>
    refine Returns.ite (fun _ => ?_) fun _ => assume
    refine Returns.bind (returns_solversAt free) fun l t ⟨ht, _⟩ => ?_
    refine Returns.bind (addIdles _ l t ht) fun _ u hu => ?_
    refine Returns.bind (Q := fun _ => Pinned free s) (hu.trans (.process hn)) fun _ v hv => ?_
    exact flag _ v (fun _ => rfl) (fun _ => rfl) (fun _ => rfl) hv

/-- The pass at a node collects its solvers if it is unsat, and aims at unknown nodes only. -/
theorem returns_passNode (free : NodeId → Prop) {acc : Pass} (hn : free n)
    (hfree : ∀ m, s.heap.status m = .unknown → free m) :
    Returns (passNode i acc n) (fun r t => Pinned free s t ∧ acc.solved ⊆ r.solved ∧
      (s.heap.isAnd n = true → (s.heap.attrs n).processed = false → s.heap.status n = .unsat →
        ∀ x, s.Connected x → (s.solver x).node = some n → x ∈ r.solved) ∧
      ∀ m, r.toPartition = some m → acc.toPartition = some m ∨ s.heap.status m = .unknown) s := by
  refine Returns.get (Returns.ite (fun _ => ?_) fun hskip => Returns.pure ⟨.refl s,
    fun _ hy => hy, fun hand hflag => absurd ⟨hand, hflag⟩ hskip, fun _ hm => .inl hm⟩)
  have last : ∀ solved t, Pinned free s t → acc.solved ⊆ solved →
      (s.heap.status n = .unknown ∨ (t.heap.attrs n).processed = true ∧
        ∀ x, s.Connected x → (s.solver x).node = some n → x ∈ solved) →
      Returns (aim acc n solved) (fun r t => Pinned free s t ∧
          acc.solved ⊆ r.solved ∧ (s.heap.isAnd n = true → (s.heap.attrs n).processed = false →
            s.heap.status n = .unsat →
              ∀ x, s.Connected x → (s.solver x).node = some n → x ∈ r.solved) ∧
          ∀ m, r.toPartition = some m → acc.toPartition = some m ∨ s.heap.status m = .unknown) t := by
    intro solved t ht hsub hcase
    have collected : s.heap.status n = .unsat →
        ∀ x, s.Connected x → (s.solver x).node = some n → x ∈ solved := fun hu =>
      (hcase.resolve_left fun h => by rw [h] at hu; cases hu).2
    refine Returns.get (Returns.ite (fun hc => ?_) fun _ => ?_)
    · refine Returns.pure ⟨ht, hsub, fun _ _ => collected, fun m hm => .inr ?_⟩
      obtain rfl : n = m := Option.some.inj hm
      refine hcase.resolve_right fun h => ?_
      rw [hc.2.1] at h
      exact Bool.false_ne_true h.1
    · exact Returns.pure ⟨ht, hsub, fun _ _ => collected, fun _ hm => .inl hm⟩
  refine Returns.bind (Q := fun _ t => t = s ∧ s.heap.status n ≠ .sat)
    (Returns.when (fun _ => Returns.raise) fun hsat => ⟨rfl, hsat⟩) ?_
  rintro _ t ⟨rfl, hsat⟩
  refine Returns.ite (fun _ => ?_) fun hunsat => ?_
  · refine Returns.bind (returns_passUnsat hn hfree) fun r u ⟨hu, hsub, hflag, hall⟩ => ?_
    exact last r u hu hsub (.inr ⟨hflag, hall⟩)
  · have hunknown : t.heap.status n = .unknown := by
      cases hs : t.heap.status n with
      | unknown => rfl
      | sat => exact absurd hs hsat
      | unsat => exact absurd hs hunsat
    refine Returns.bind (Q := fun _ => Pinned free t) (Pinned.still (still_timedOut n))
      fun late u hu => Returns.ite (fun _ => ?_) fun _ => Returns.get ?_
    · refine Returns.bind (returns_passTimeout hn) fun _ v hv => ?_
      exact last acc.solved v (hu.trans hv) (fun _ hy => hy) (.inl hunknown)
    · refine Returns.bind (Q := fun _ => Pinned free u)
        (Pinned.still (Still.when (still_chooseNodeTimeout i))) fun _ v hv => ?_
      exact last acc.solved v (hu.trans hv) (fun _ hy => hy) (.inl hunknown)

/-- After the pass over the nodes, the solvers on unsat nodes have been collected. -/
theorem returns_pass {nodes : List NodeId} (h : ∀ x n, s.Connected x →
      (s.solver x).node = some n → s.heap.status n = .unsat →
      n ∈ nodes ∧ s.heap.isAnd n = true ∧ (s.heap.attrs n).processed = false) :
    Returns (foldEach (passNode i) {} nodes) (fun acc t => t.Strays acc.solved ∧
      ∀ n, acc.toPartition = some n → t.heap.status n = .unknown) s := by
  refine (Returns.foldEach (I := fun acc ns t =>
    (∀ x n, t.Connected x → (t.solver x).node = some n → t.heap.status n = .unsat →
      x ∈ acc.solved ∨ n ∈ ns ∧ t.heap.isAnd n = true ∧ (t.heap.attrs n).processed = false) ∧
    ∀ n, acc.toPartition = some n → t.heap.status n = .unknown) ?_
    ⟨fun x n hx hn hu => .inr (h x n hx hn hu), fun n hn => ?_⟩).mono fun acc t ⟨ht, htarget⟩ =>
      ⟨fun x n hx hn hu => (ht x n hx hn hu).resolve_right fun hmem =>
        List.not_mem_nil hmem.1, htarget⟩
  · intro acc n ns t ⟨ht, htarget⟩
    refine (returns_passNode (fun m => m = n ∨ t.heap.status m ≠ .unsat) (.inl rfl)
      fun m hm => .inr (by rw [hm]; decide)).mono fun acc' u ⟨hu, hsub, hall, htarget'⟩ =>
        ⟨fun x m hx hm hunsat => ?_, fun m hm => ?_⟩
    · rw [hu.connected] at hx
      rw [hu.node] at hm
      rw [hu.status] at hunsat
      rw [hu.isAnd]
      rcases ht x m hx hm hunsat with hin | ⟨hmem, hand, hflag⟩
      · exact .inl (hsub hin)
      · by_cases hmn : m = n
        · subst hmn
          exact .inl (hall hand hflag hunsat x hx hm)
        · refine .inr ⟨(List.mem_cons.mp hmem).resolve_left hmn, hand, ?_⟩
          rw [hu.processed m fun hfree => hfree.elim hmn fun hne => hne hunsat, hflag]
    · rw [hu.status]
      exact (htarget' m hm).elim (htarget m) id
  · cases hn

end Collecting

section Attending

/-- Solvers have been put on the root of the instance; apart from that nothing has changed. -/
structure Welcomed (i : InstId) (s t : State) : Prop where
  fixed : Fixed s t
  settled : Settled s t
  node : ∀ x n, (t.solver x).node = some n → n = s.root i ∨ (s.solver x).node = some n

namespace Welcomed

theorem quiet (h : Quiet s t) : Welcomed i s t :=
  ⟨.quiet h, h.settled, fun x _ hn => .inr (h.node x ▸ hn)⟩

theorem trans {u : State} (h : Welcomed i s t) (h' : Welcomed i t u) : Welcomed i s u where
  fixed := h.fixed.trans h'.fixed
  settled := h.settled.trans h'.settled
  node x n hn := (h'.node x n hn).elim (fun hr => .inl (hr.trans (h.fixed.root i))) (h.node x n)

theorem still {α : Type} {m : M α} (h : Still m) : Returns m (fun _ => Welcomed i s) s :=
  h.returns.mono fun _ _ => quiet

theorem leave (x : SockId) : Welcomed i s ((Act.leave x).apply s) := by
  refine ⟨⟨rfl, rfl, rfl, fun _ => rfl, rfl, rfl, fun _ => rfl, fun _ => rfl, rfl⟩, fun _ => rfl,
    fun y _ hn => .inr ?_⟩
  by_cases hy : y = x
  · subst hy
    simp [Act.apply, State.modifySolver, Solver.reset] at hn
  · simpa [Act.apply, State.modifySolver, hy] using hn

theorem solve (x : SockId) (m : Option Sent) :
    Welcomed i s ((Act.solve x (s.root i) m).apply s) := by
  refine ⟨⟨rfl, rfl, rfl, fun _ => rfl, rfl, rfl, fun _ => rfl, fun _ => rfl, rfl⟩, fun _ => rfl,
    fun y _ hn => ?_⟩
  by_cases hy : y = x
  · subst hy
    simp only [Act.apply, State.modifySolver, Function.update_self, Option.some.injEq] at hn
    exact .inl hn.symm
  · exact .inr (by simpa [Act.apply, State.modifySolver, hy] using hn)

/-- On unsat nodes there are only solvers that were there before. -/
theorem strays (h : Welcomed i s t) (hs : s.Strays xs)
    (hroot : s.heap.status (s.root i) = .unknown) : t.Strays xs := by
  intro x n hx hn hu
  rw [h.fixed.status] at hu
  rcases h.node x n hn with rfl | hn
  · rw [hroot] at hu
    cases hu
  · exact hs x n ((h.fixed.connected x).mp hx) hn hu

end Welcomed

theorem returns_startSolver : Returns (startSolver i x) (fun _ => Welcomed i s) s := by
  refine Returns.get (Returns.bind (Q := fun _ => Welcomed i s)
    (Welcomed.still (still_configEntrust _ _)) fun parameters t ht => ?_)
  refine Returns.bind (Q := fun _ => Welcomed i s) (ht.trans (.quiet ?_)) fun _ u hu =>
    Returns.get ?_
  · exact Quiet.of_rest rfl rfl rfl rfl (.refl _) (fun _ => rfl) (fun _ => rfl) fun _ => rfl
  have hassign : ∀ v parameters, Welcomed i u v →
      Returns (Solver.assign x (u.root i) parameters) (fun _ => Welcomed i u) v := by
    intro v parameters hv
    rw [← hv.fixed.root i]
    exact Solver.wp_assign (fun m w _ hq => hv.trans ((Welcomed.solve x (some m)).trans (.quiet hq)))
      fun _ _ _ _ => trivial
  have hsolve : Returns (Solver.solve x (u.root i) (parameters.set "parameter.seed"
      (toString u.counter))) (fun _ => Welcomed i u) u := by
    refine Solver.wp_solve (fun _ => hassign u _ (.quiet (.refl u))) fun a _ => ?_
    refine Returns.bind (Q := fun _ => Welcomed i u) ?_ fun _ v hv => hassign v _ hv
    exact Solver.wp_stop (fun _ => trivial) (fun _ v _ hq => (Welcomed.leave x).trans (.quiet hq))
      fun _ _ _ _ _ _ => trivial
  refine Returns.bind hsolve fun _ v hv => Returns.get ?_
  refine Returns.mono (Q := fun _ w => Quiet v w) (Still.returns (Still.when ?_))
    fun _ w hq => (hu.trans hv).trans (.quiet hq)
  exact Still.now.bind fun _ => Still.modifyInst i fun _ => rfl

theorem returns_startSolvers {f : SockId → M Unit} {l : List SockId}
    (hf : ∀ x u, Returns (f x) (fun _ => Welcomed i u) u) :
    Returns (forEach f l) (fun _ => Welcomed i s) s :=
  Returns.forEach (I := fun _ => Welcomed i s)
    (fun x _ t ht => (hf x t).mono fun _ _ hu => ht.trans hu) (.quiet (.refl s))

theorem returns_welcome : Returns (welcome i) (fun _ => Welcomed i s) s := by
  refine Returns.get (Returns.bind (Q := fun _ => Welcomed i s)
    (Welcomed.still (Still.inOrder _)) fun l t ht => ?_)
  refine (returns_startSolvers fun x u => ?_).mono fun _ _ hu => ht.trans hu
  refine Returns.bind (Q := fun _ => Welcomed i u) (.quiet ?_) fun _ v hv =>
    returns_startSolver.mono fun _ _ hw => hv.trans hw
  exact Quiet.of_rest rfl rfl rfl rfl (.refl _) (fun _ => rfl) (fun _ => rfl) fun _ => rfl

theorem returns_startNext (h : s.Strays []) : Returns startNext (fun _ t => t.Strays []) s := by
  refine Returns.bind (wp_mono wp_schedulables (fun _ _ h => h) fun _ _ _ => trivial)
    fun l t ⟨hq, hl⟩ => ?_
  cases l with
  | nil => exact Returns.pure (h.quiet hq)
  | cons i rest =>
    have hroot : t.heap.status (t.root i) = .unknown := by
      rw [hq.heap.status, hq.root]
      exact (hl i List.mem_cons_self).2
    refine Returns.bind (Q := fun _ u => u.Strays [] ∧ u.heap.status (u.root i) = .unknown)
      ⟨(h.quiet hq).of_eq (fun _ hx => hx) (fun _ => rfl) fun _ => rfl, hroot⟩ fun _ u hu => ?_
    refine Returns.bind (Q := fun _ v => v.Strays [] ∧ v.heap.status (v.root i) = .unknown)
      ⟨hu.1.of_eq (fun _ hx => hx) (fun _ => rfl) fun _ => rfl, hu.2⟩ fun _ v hv => ?_
    refine Returns.bind (Q := fun _ => Welcomed i v)
      (Welcomed.still (Still.get.bind fun _ => Still.inOrder _)) fun l w hw => ?_
    refine Returns.bind ((returns_startSolvers fun x u => ?_).mono fun _ _ hz => hw.trans hz)
      fun _ z hz => Returns.pure (hz.strays hv.1 hv.2)
    refine Returns.bind returns_startSolver fun _ u' hu' => ?_
    refine ((Still.modifyConfig (f := fun c => { c with partitionCount := 0 }) (fun _ => rfl)
      fun _ => rfl).returns).mono fun _ _ hq' => hu'.trans (.quiet hq')

theorem returns_allDone {solving : Option InstId} (h : s.Strays []) :
    Returns (allDone solving) (fun _ t => t.Strays []) s := by
  refine Returns.get (Returns.when (fun _ => ?_) fun _ => h)
  refine Returns.when (fun _ => Returns.when (fun _ => ?_) fun _ => h) fun _ => h
  exact Returns.bind (Q := fun _ _ => True) wp_true fun _ _ _ => Returns.raise

/-- Whoever has been stopped is on no node. -/
theorem State.strays_vacant (w : World) (l : List Sent) : (s.vacant w l).Strays xs := by
  intro x n hx hn
  have hreset : (s.vacant w l).solver x = Solver.reset (s.solver x) := if_pos hx
  rw [hreset] at hn
  cases hn

theorem returns_conclude (hs : Solving i s) (hstuck : s.Stuck i → s.Strays []) :
    Returns (conclude i) (fun r t => t.Strays [] ∧ (r = false → t.current = none)) s := by
  have finish : Returns (do
      printResult i
      release i
      return false) (fun r t => t.Strays [] ∧ (r = false → t.current = none)) s := by
    rw [Returns, wp_bind]
    refine wp_printResult (fun o _ _ _ => ?_) (fun o _ _ => ?_) (fun _ _ _ _ _ => trivial)
      fun _ _ _ _ => trivial
    · rw [wp_bind]
      exact wp_release hs.consistent.distinct hs.connected_here
        (fun w l _ _ _ => ⟨State.strays_vacant w l, fun _ => rfl⟩) fun _ _ _ _ _ => trivial
    · rw [wp_bind]
      exact wp_release hs.consistent.distinct hs.connected_here
        (fun w l _ _ _ => ⟨State.strays_vacant w l, fun _ => rfl⟩) fun _ _ _ _ _ => trivial
  refine Returns.get ?_
  by_cases hu : s.heap.status (s.root i) = .unknown
  · rw [if_pos hu, Returns, wp_bind]
    refine wp_stuck (fun hst t ht => ?_) (fun _ => ?_) fun _ _ _ _ => trivial
    · exact ⟨(hstuck (hst hu)).quiet ht, fun h => by cases h⟩
    · rw [if_neg (by decide), wp_bind, wp_when]
      exact ⟨fun _ => trivial, fun _ => finish⟩
  · rw [if_neg hu]
    exact finish

/-- A pass over the tree of the current instance will collect all solvers on unsat nodes, or
there are none: none of the nodes is flagged as processed, and the instance is not stuck. -/
def State.Sweepable (s : State) : Prop :=
  ∀ i, s.current = some i → s.heap.status (s.root i) = .unknown →
    ∀ x n, s.Connected x → (s.solver x).node = some n → s.heap.status n = .unsat →
      (s.heap.attrs n).processed = false ∧ ¬ s.Stuck i

/-- No unsat node with a connected solver is flagged as processed. -/
def State.Unflagged (s : State) : Prop :=
  ∀ x n, s.Connected x → (s.solver x).node = some n → s.heap.status n = .unsat →
    (s.heap.attrs n).processed = false

theorem State.Unflagged.quiet (h : s.Unflagged) (hq : Quiet s t) : t.Unflagged := by
  intro x n hx hn hu
  rw [hq.node] at hn
  rw [hq.heap.status] at hu
  rw [hq.heap.processed]
  exact h x n ((hq.connected x).mp hx) hn hu

theorem Welcomed.unflagged (h : Welcomed i s t) (hs : s.Unflagged)
    (hroot : s.heap.status (s.root i) = .unknown) : t.Unflagged := by
  intro x n hx hn hu
  rw [h.fixed.status] at hu
  rw [h.settled]
  rcases h.node x n hn with rfl | hn
  · rw [hroot] at hu
    cases hu
  · exact hs x n ((h.fixed.connected x).mp hx) hn hu

/-- What `attend` leads to: the nodes are passed over next, or nothing is left to do. -/
def Swept (r : Option InstId) (t : State) : Prop :=
  (r = none → truthy t.config.partitionTimeout ≠ none → t.Strays []) ∧ (r ≠ none → t.Unflagged)

theorem returns_proceed {solving : Option InstId} {returned : Bool}
    (done : returned = true ∨ s.current = none → s.Strays [])
    (going : returned = false → ∀ i, s.current = some i →
      s.heap.status (s.root i) = .unknown ∧ s.Unflagged) :
    Returns (proceed solving returned) Swept s := by
  rw [proceed]
  have finished : ∀ t, State.Strays t [] → Swept none t := fun t ht =>
    ⟨fun _ _ => ht, fun h => absurd rfl h⟩
  refine Returns.ite (fun hr => Returns.pure (finished s (done (.inl hr)))) fun hr =>
    Returns.gets ?_
  cases hc : s.current with
  | none =>
    refine Returns.bind (returns_startNext (done (.inr hc))) fun started t ht => ?_
    cases started with
    | true => exact Returns.pure (finished t ht)
    | false => exact Returns.bind (returns_allDone ht) fun _ u hu => Returns.pure (finished u hu)
  | some i =>
    obtain ⟨hroot, hflag⟩ := going (Bool.eq_false_iff.mpr hr) i hc
    refine Returns.bind returns_welcome fun _ t ht => Returns.get (Returns.pure ?_)
    refine ⟨fun hnone hset => ?_, fun _ => ht.unflagged hflag hroot⟩
    rw [if_pos hset] at hnone
    cases hnone

theorem leaves_isOver : Leaves State.terminate (isOver i) := by
  refine .bind .get fun s => .ite (.pure _) (.bind (.bind .get fun s => ?_) fun _ => .pure _)
  split
  · exact .bind (fun _ => rfl) fun _ => .pure _
  · exact .pure _

theorem returns_isOver : Returns (isOver i) (fun b t => Quiet s t ∧ t.terminate = s.terminate ∧
    (b = false → s.heap.status (s.root i) = .unknown)) s := by
  have hquiet : Returns (isOver i) (fun b t => Quiet s t ∧ (b = false →
      s.heap.status (s.root i) = .unknown)) s :=
    wp_isOver (fun _ hq _ => ⟨hq, fun h => nomatch h⟩) (fun _ hq hu => ⟨hq, fun _ => hu⟩)
      fun _ _ _ _ => trivial
  exact wp_mono (wp_and hquiet (leaves_isOver.wp (I := fun v => v = s.terminate) rfl))
    (fun _ _ h => ⟨h.1.1, h.2, h.1.2⟩) fun _ _ _ => trivial

theorem Quiet.stuck (hq : Quiet s t) (hterm : t.terminate = s.terminate) (h : t.Stuck i) :
    s.Stuck i := by
  obtain ⟨hu, hp, hc, ht⟩ := h
  rw [hq.heap.status, hq.root] at hu
  rw [hq.root, hq.heap.partitioning] at hp
  rw [hq.root, Heap.childeren_congr hq.heap.forest hq.heap.status] at hc
  exact ⟨hu, hp, hc, hterm ▸ ht⟩

theorem returns_settle (hs : Consistent s) (h : s.Sweepable) :
    Returns (settle s.current) (fun returned t =>
      (returned = true ∨ t.current = none → t.Strays []) ∧ (returned = false →
        ∀ i, t.current = some i → t.heap.status (t.root i) = .unknown ∧ t.Unflagged)) s := by
  cases hc : s.current with
  | none =>
    refine Returns.pure ⟨fun _ x n hx hn _ => ?_, fun _ i hi => ?_⟩
    · obtain ⟨i, hi, _⟩ := hs.here x n (.inl hx) hn
      cases hc.symm.trans hi
    · cases hc.symm.trans hi
  | some i =>
    refine Returns.bind returns_isOver fun ended t ⟨hq, hterm, hgoing⟩ => ?_
    have hst : Solving i t := ⟨hs.quiet hq, hq.current.trans hc⟩
    refine Returns.ite (fun _ => ?_) fun hb => ?_
    · refine wp_mono (returns_conclude hst fun hstuck x n hx hn hu => ?_)
        (fun returned u ⟨hu, hnone⟩ => ⟨fun _ => hu, fun hr j hj => ?_⟩) fun _ _ _ => trivial
      · have hstuck := hq.stuck hterm hstuck
        rw [hq.node] at hn
        rw [hq.heap.status] at hu
        exact absurd hstuck (h i hc hstuck.1 x n ((hq.connected x).mp hx) hn hu).2
      · cases (hnone hr).symm.trans hj
    · have hroot := hgoing (Bool.eq_false_iff.mpr hb)
      have hflag : s.Unflagged := fun x n hx hn hu => (h i hc hroot x n hx hn hu).1
      refine Returns.pure ⟨fun hor => ?_, fun _ j hj => ?_⟩
      · rcases hor with hor | hor
        · cases hor
        · cases hst.current.symm.trans hor
      · rw [hst.current, Option.some.injEq] at hj
        subst hj
        rw [hq.heap.status, hq.root]
        exact ⟨hroot, hflag.quiet hq⟩

theorem returns_attend (hs : Consistent s) (h : s.Sweepable) : Returns attend Swept s :=
  Returns.gets (Returns.bind (returns_settle hs h) fun _ _ ht => returns_proceed ht.1 ht.2)

theorem returns_survey {fuel : Nat} (hs : Solving i s) (h : s.Unflagged) :
    Returns (survey fuel i) (fun r t => t.Strays [] ∧
      ∀ n, r.2.toPartition = some n → t.heap.status n = .unknown) s := by
  refine Returns.get (Returns.bind (returns_pass fun x n hx hn hu => ?_) fun acc t ⟨ht, htarget⟩ => ?_)
  · obtain ⟨_, hand, hatt⟩ := hs.consistent.seated.placed x n hn
    refine ⟨(List.perm_insertionSort _ _).mem_iff.mpr (Heap.mem_all.mpr ?_), hand, h x n hx hn hu⟩
    exact hs.here (.inl hx) hn ▸ hatt
  · refine Returns.bind (returns_relocate (.start ht)) fun _ u hu => Returns.pure ⟨hu.strays, ?_⟩
    exact fun n hn => (hu.status n).trans (htarget n hn)

/-- Where `entrust` returns, no connected solver is left on an unsat node. -/
theorem returns_entrust {fuel : Nat} {p : Option PNode} (hs : Consistent s) (h : s.Sweepable) :
    Returns (entrust fuel p)
      (fun _ t => truthy t.config.partitionTimeout ≠ none → t.Strays []) s := by
  have runs : Runs (Act.Entrusted True s.idleSolvers) True attend (Attended s) s :=
    runs_attend hs rfl (.inl trivial)
  have attended : Returns attend (fun r t => Swept r t ∧ Attended s r t) s :=
    wp_mono (wp_and (returns_attend hs h) runs) (fun _ _ h => ⟨h.1, h.2.2⟩) fun _ _ _ => trivial
  refine Returns.bind attended fun r t ⟨hswept, hatt⟩ => ?_
  cases r with
  | none => exact Returns.pure fun hset => hswept.1 rfl hset
  | some i =>
    refine Returns.bind (returns_survey (hatt i rfl).1 (hswept.2 (Option.some_ne_none i)))
      fun r u ⟨hu, htarget⟩ => ?_
    exact (returns_distribute hu htarget).mono fun _ _ hv _ => hv

/-- When the event leads to a pass, the pass will collect all solvers on unsat nodes. -/
def Event.Sweeps (ev : Event) (s : State) : Prop :=
  ∀ p t, receive ev s = (.ok (some p), t) → t.Sweepable

/-- The turn of the event has a scheduling pass, which completes in state `u`. -/
def Event.Schedules (ev : Event) (s u : State) : Prop :=
  ∃ fuel p t, s.running = true ∧ ev.ready s ∧ receive ev s = (.ok (some p), t) ∧
    entrust fuel p t = (.ok (), u)

/-- While the root of the current instance is unknown, no connected solver is on an unsat AND
node. -/
def State.Cleared (s : State) : Prop :=
  ∀ i, s.current = some i → s.heap.status (s.root i) = .unknown →
    ∀ x n, s.Connected x → (s.solver x).node = some n → s.heap.isAnd n = true →
      s.heap.status n ≠ .unsat

/-- In runs whose passes will collect all solvers on unsat nodes, none is left there. -/
theorem solved_cleared {env : Env} {config : Config} {ev : Event} {u : State}
    (h : Turns (fun s ev => ev.Sweeps s) (State.init env config) s)
    (set : truthy config.partitionTimeout ≠ none) (sweeps : ev.Sweeps s)
    (pass : ev.Schedules s u) : u.Cleared := by
  obtain ⟨fuel, p, t, _, _, hreceive, hentrust⟩ := pass
  have received : Runs (Act.Received True ev s) False (receive ev) (ev.Brings s) s :=
    runs_receive (.turns h)
  have path : Path (Act.Received True ev s) s t := (wp_ok received hreceive).1
  have hst : Consistent t := (Consistent.turns h).path (fun _ _ ha => ha.1) path
  have hset : u.config.partitionTimeout = config.partitionTimeout := by
    have ht : t.settings = s.settings := by simpa [hreceive] using unset_receive ev s
    have hu : u.settings = t.settings := by simpa [hentrust] using unset_entrust fuel p t
    show u.settings.partitionTimeout = (State.init env config).settings.partitionTimeout
    rw [(hu.trans ht).trans h.settings]
  rw [← hset] at set
  intro i _ _ x n hx hn _ hunsat
  exact List.not_mem_nil (wp_ok (returns_entrust hst (sweeps p t hreceive)) hentrust set x n hx hn
    hunsat)

section Decidable

instance (s : State) : Decidable s.Sweepable :=
  decidable_of_iff (∀ i ∈ s.current, s.heap.status (s.root i) ≠ .unknown ∨
    ∀ x ∈ s.rlist, s.kind x ≠ .solver ∨ ∀ n ∈ (s.solver x).node, s.heap.status n ≠ .unsat ∨
      (s.heap.attrs n).processed = false ∧ ¬ s.Stuck i) <| by
    simp only [or_iff_not_imp_left, not_not]
    exact ⟨fun h i hi hu x n hx hn => h i hi hu x hx.1 hx.2 n hn,
      fun h i hi hu x hx hk n hn => h i hi hu x n ⟨hx, hk⟩ hn⟩

instance (s : State) (ev : Event) : Decidable (ev.Sweeps s) :=
  decidable_of_iff (∀ t ∈ reached Option.isSome (receive ev s), t.Sweepable) <| by
    refine ⟨fun h p t ht => h t (mem_reached.mpr ⟨some p, rfl, ht⟩), fun h t ht => ?_⟩
    obtain ⟨r, hr, hrun⟩ := mem_reached.mp ht
    obtain ⟨p, rfl⟩ := Option.isSome_iff_exists.mp hr
    exact h p t hrun

/-- The state after the scheduling pass of a turn, where it completes. -/
def Event.pass (fuel : Nat) (ev : Event) (s : State) : Option State :=
  match receive ev s with
  | (.ok (some p), t) => reached (fun _ => true) (entrust fuel p t)
  | _ => none

theorem Event.Schedules.of_pass {fuel : Nat} {ev : Event} {u : State} (running : s.running = true)
    (ready : ev.ready s) (h : ev.pass fuel s = some u) : ev.Schedules s u := by
  unfold Event.pass at h
  split at h
  · next p t hreceive =>
    obtain ⟨_, _, hentrust⟩ := mem_reached.mp h
    exact ⟨fuel, p, t, running, ready, hreceive, hentrust⟩
  · cases h

end Decidable

/-- Three solvers work on an instance, and the first partitions arrive. -/
def partitioned : List Event :=
  [.accept "a", .message 1 [(Constant.solver, "OpenSMT2")] (some ""),
    .accept "b", .message 3 [(Constant.solver, "OpenSMT2")] (some ""),
    .accept "c", .message 5 [(Constant.solver, "OpenSMT2")] (some ""), .accept "d",
    .message 7 [(Constant.command, Constant.solve), (Constant.name, "a.smt2")]
      (some "(assert true)"), .timeout,
    .message 2 [(Constant.report, "partitions"), (Constant.name, "a.smt2"), (Constant.node, "[]")]
      (some "x\x00y")]

/-- The report about the first partition. -/
def partUnsat : Event :=
  .message 2 [(Constant.report, "unsat"), (Constant.name, "a.smt2"), (Constant.node, "[0, 0]")]
    (some "")

theorem solved_cleared_once :
    ∃ s u, partitioned.foldlM (guarded (State.turn 3) fun s ev => ev.Sweeps s)
        (State.init Env.steady { partitionTimeout := some second }) = some s ∧
      partUnsat.Schedules s u ∧ u.heap.status 2 = .unsat ∧ u.Cleared := by
  obtain ⟨s, h, running, ready, sweeps, u, hpass, hu⟩ := exists_of_any (o := partitioned.foldlM
    (guarded (State.turn 3) fun s ev => ev.Sweeps s)
    (State.init Env.steady { partitionTimeout := some second })) (P := fun s =>
      s.running = true ∧ partUnsat.ready s ∧ partUnsat.Sweeps s ∧
        ∃ u ∈ partUnsat.pass 3 s, u.heap.status 2 = .unsat) (by decide +kernel)
  have schedules := Event.Schedules.of_pass running ready hpass
  exact ⟨s, u, h, schedules, hu, solved_cleared (.of_run (.of_script h)) (by decide) sweeps schedules⟩

/-- The first partition is split as well, and its time is up before it is solved. -/
def timedOutFirst : List Event :=
  partitioned ++ [.message 2 [(Constant.report, "partitions"), (Constant.name, "a.smt2"),
    (Constant.node, "[0, 0]")] (some "z"), .timeout]

theorem solved_left :
    ∃ s u, Turns (fun _ _ => True) (State.init Env.steady
        { partitionTimeout := some second, nodeTimeout := some (6 * second) }) s ∧
      partUnsat.Schedules s u ∧ ¬ u.Cleared := by
  obtain ⟨s, h, running, ready, u, hpass, hi, hr, hx, hn, hand, hu⟩ :=
    exists_of_any (o := timedOutFirst.foldlM (guarded (State.turn 3) fun _ _ => True)
      (State.init Env.steady { partitionTimeout := some second, nodeTimeout := some (6 * second) }))
      (P := fun s => s.running = true ∧ partUnsat.ready s ∧ ∃ u ∈ partUnsat.pass 3 s,
        u.current = some 0 ∧ u.heap.status (u.root 0) = .unknown ∧ (2 ∈ u.rlist ∧ u.kind 2 = .solver) ∧
          (u.solver 2).node = some 2 ∧ u.heap.isAnd 2 = true ∧ u.heap.status 2 = .unsat)
      (by decide +kernel)
  exact ⟨s, u, .of_run (.of_script h), .of_pass running ready hpass,
    fun hclear => hclear 0 hi hr 2 2 hx hn hand hu⟩

end Attending

end Smts.Server
