import Smts.Server.EntrustTwins
import Smts.Server.Spreading

namespace Smts.Server

open Smts.Lib Smts.Lib.Prog

/-- The same variables of the pass, for the other heap. -/
def Pass.rename (f : NodeId → NodeId) (acc : Pass) : Pass :=
  { acc with toPartition := acc.toPartition.map f }

/-- The same entry of the header, for the other heap. -/
def PNode.rename (f : NodeId → NodeId) : PNode → PNode
  | .node n => .node (f n)
  | .text => .text

namespace Twin

variable {L : Link} {p : Marks} {s t : State} {x : SockId} {n : NodeId} {i : InstId}
  {α β : Type}

/-- The same solvers, all of them in use. -/
def SameSolvers (L : Link) (xs ys : List SockId) : Prop := ys = xs ∧ ∀ x ∈ xs, L.live x

theorem match_idle (h : Twin L p s t) (r : List SockId → List SockId)
    (hr : ∀ y ∈ r s.idleSolvers, y ∈ s.idleSolvers ∨ L.live y) :
    Match L p (modify fun s => { s with idleSolvers := r s.idleSolvers })
      (modify fun s => { s with idleSolvers := r s.idleSolvers }) s t := by
  refine Coupled.modify ⟨rfl, { h with idleSolvers := congrArg r h.idleSolvers, resting := ?_ }⟩
  exact fun y hy => (hr y hy).elim (h.resting y) id

section Passing

theorem coupled_collectSolver (h : Twin L p s t) {acc : List SockId} (hacc : ∀ y ∈ acc, L.live y)
    (hx : L.live x) :
    Coupled (collectSolver acc x) (collectSolver acc x)
      (fun a b u v => SameSolvers L a b ∧ Twin L p u v) (Like L) s t := by
  have done : SameSolvers L (if x ∈ acc then acc else acc ++ [x])
      (if x ∈ acc then acc else acc ++ [x]) := by
    refine ⟨rfl, fun y hy => ?_⟩
    split at hy
    · exact hacc y hy
    · rcases List.mem_append.mp hy with hy | hy
      · exact hacc y hy
      · exact List.mem_singleton.mp hy ▸ hx
  refine Coupled.get (Coupled.ite ?_ (fun _ => ?_) fun _ => ?_)
  · rw [h.idleSolvers]
  · exact Match.bind (h.match_idle (·.erase x) fun y hy => .inl (List.mem_of_mem_erase hy))
      fun _ u v hu => Coupled.pure ⟨done, hu⟩
  · exact Match.bind (h.match_recount _ (· - 1) fun _ => rfl)
      fun _ u v hu => Coupled.pure ⟨done, hu⟩

theorem collect (h : Twin L p s t) {acc xs : List SockId} (hacc : ∀ y ∈ acc, L.live y)
    (hxs : ∀ x ∈ xs, L.live x) :
    Coupled (Prog.foldEach collectSolver acc xs) (Prog.foldEach collectSolver acc xs)
      (fun a b u v => SameSolvers L a b ∧ Twin L p u v) (Like L) s t := by
  refine h.fold hxs (fun a b x u v hab hx hu => ?_) ⟨rfl, hacc⟩
  rw [hab.1]
  exact hu.coupled_collectSolver hab.2 hx

theorem match_addIdle (h : Twin L p s t) (hx : L.live x) (counted : Bool) :
    Match L p (addIdle counted x) (addIdle counted x) s t := by
  refine Coupled.get (Coupled.when ?_ (fun _ => ?_) fun _ => ⟨rfl, h⟩)
  · rw [h.idleSolvers]
  · refine Match.bind (h.match_idle (· ++ [x]) fun y hy => ?_) fun _ u v hu =>
      Coupled.when Iff.rfl (fun _ => hu.match_recount _ (· - 1) fun _ => rfl) fun _ => ⟨rfl, hu⟩
    rcases List.mem_append.mp hy with hy | hy
    · exact .inl hy
    · exact .inr (List.mem_singleton.mp hy ▸ hx)

theorem coupled_passUnsat (h : Twin L p s t) (hn : n < p.nodes) {acc : List SockId}
    (hacc : ∀ y ∈ acc, L.live y) :
    Coupled (passUnsat n acc) (passUnsat (L.node n) acc)
      (fun a b u v => SameSolvers L a b ∧ Twin L p u v) (Like L) s t := by
  have hn := Nat.lt_of_lt_of_le hn h.nodes
  refine h.fitting fun h => ?_
  have finish {u v : State} {acc : List SockId} (hacc : ∀ y ∈ acc, L.live y)
      (hu : Twin L (p.at s) u v) : Coupled (collectAt n acc) (collectAt (L.node n) acc)
        (fun a b u v => SameSolvers L a b ∧ Twin L (p.at s) u v) (Like L) u v :=
    Match.bind (hu.match_modifyNode (Nat.lt_of_lt_of_le hn hu.nodes) _) fun _ u v hu =>
      hu.bind_solvers (w := .at (some n)) fun xs u v hxs hu => hu.collect hacc hxs
  have hgrand : ((t.heap.truthyParent (L.node n)).bind t.heap.parent) =
      ((s.heap.truthyParent n).bind s.heap.parent).map L.node := by
    rw [h.heap.truthyParent]
    cases s.heap.truthyParent n with
    | none => rfl
    | some q => exact h.heap.parent q
  refine Coupled.get ?_
  rw [hgrand]
  cases hg : (s.heap.truthyParent n).bind s.heap.parent with
  | none => exact finish hacc h
  | some g =>
    obtain ⟨q, _, hq⟩ := Option.bind_eq_some_iff.mp hg
    have hsize : g < (p.at s).nodes := Nat.lt_trans (s.heap.parent_lt hq) (s.heap.lt_size hq)
    dsimp only [Option.map_some]
    refine Coupled.ite ?_ (fun _ => ?_) fun _ => finish hacc h
    · rw [h.heap.status hsize]
    · refine h.bind_solvers (w := .at (some g)) fun xs u v hxs hu => ?_
      refine Coupled.bind (hu.collect hacc hxs) fun a b u v ⟨hab, hu⟩ => ?_
      rw [hab.1]
      exact Match.bind (hu.match_modifyNode (Nat.lt_of_lt_of_le hsize hu.nodes) _)
        fun _ u v hu => finish hab.2 hu

theorem match_passTimeout (h : Twin L p s t) (hn : n < p.nodes) :
    Match L p (passTimeout n) (passTimeout (L.node n)) s t := by
  have flag {u v : State} (hu : Twin L p u v) (r : Attrs → Attrs) :
      Match L p (modifyNode n r) (modifyNode (L.node n) r) u v :=
    hu.match_modifyNode (Nat.lt_of_lt_of_le hn hu.nodes) r
  have idle {u v : State} (hu : Twin L p u v) (counted : Bool) {xs : List SockId}
      (hxs : ∀ x ∈ xs, L.live x) :
      Match L p (forEach (addIdle counted) xs) (forEach (addIdle counted) xs) u v :=
    hu.match_each hxs fun x u v hx hu => hu.match_addIdle hx counted
  have early {u v : State} (hu : Twin L p u v) : Match L p
      (when ((s.heap.attrs n).assumedTimout = false) (suspend n))
      (when ((s.heap.attrs n).assumedTimout = false) (suspend (L.node n))) u v :=
    Coupled.when Iff.rfl (fun _ => hu.bind_solvers (w := .at (some n)) fun xs u v hxs hu =>
      Match.bind (idle hu true hxs) fun _ u v hu => flag hu _) fun _ => ⟨rfl, hu⟩
  refine Coupled.get ?_
  rw [h.heap.attrs n (Nat.lt_of_lt_of_le hn h.nodes), h.heap.children]
  refine Coupled.ite Iff.rfl (fun _ => ?_) fun _ => early h
  cases s.heap.children n with
  | nil => exact Coupled.raise h.like
  | cons o os =>
    refine Match.bind (Coupled.pure ⟨decide_eq_decide.mpr (h.heap.children_eq_nil o).not, h⟩)
      fun split u v hu => Coupled.ite Iff.rfl (fun _ => ?_) fun _ => early hu
    exact hu.bind_solvers (w := .at (some n)) fun xs u v hxs hu => Match.bind (idle hu _ hxs)
      fun _ u v hu => Match.bind (flag hu _) fun _ u v hu => flag hu _

/-- The node timeout is one of the entries on which the servers agree. -/
theorem match_nodeTimeout (h : Twin L p s t) (limit : Time) :
    Match L p (modifyConfig fun c => { c with nodeTimeout := some limit })
      (modifyConfig fun c => { c with nodeTimeout := some limit }) s t := by
  refine Coupled.modify ⟨rfl, { h with config := ?_ }⟩
  dsimp only
  rw [h.config]

theorem match_chooseNodeTimeout (h : Twin L p s t) (hi : i < p.insts) :
    Match L p (chooseNodeTimeout i) (chooseNodeTimeout (L.inst i)) s t := by
  refine Coupled.get (Match.bind h.match_now fun time u v hu => ?_)
  rw [h.root hi, h.heap.attrs _ (h.root_lt hi)]
  cases (s.heap.attrs (s.root i)).started with
  | none => exact Coupled.raise hu.like
  | some started =>
    exact Coupled.ite Iff.rfl (fun _ => hu.match_nodeTimeout _) fun _ =>
      Match.bind hu.match_now fun time u v hu => hu.match_nodeTimeout _

theorem match_timedOut (h : Twin L p s t) (hn : n < p.nodes) :
    Match L p (timedOut n) (timedOut (L.node n)) s t := by
  refine Coupled.get ?_
  rw [h.config, h.heap.attrs n (Nat.lt_of_lt_of_le hn h.nodes)]
  cases truthy s.config.nodeTimeout with
  | none => exact h.match_pure false
  | some limit =>
    cases truthy (s.heap.attrs n).started with
    | none => exact h.match_pure false
    | some started => exact Match.bind h.match_now fun time u v hu => hu.match_pure _

/-- The variables of the pass are the same, and can be used from now on. -/
def SamePass (L : Link) (p : Marks) (a b : Pass) : Prop :=
  b = a.rename L.node ∧ (∀ x ∈ a.solved, L.live x) ∧ ∀ m, a.toPartition = some m → m < p.nodes

theorem coupled_passNode (h : Twin L p s t) (hi : i < p.insts) (hn : n < p.nodes) {acc acc' : Pass}
    (hacc : SamePass L p acc acc') :
    Coupled (passNode i acc n) (passNode (L.inst i) acc' (L.node n))
      (fun a b u v => SamePass L p a b ∧ Twin L p u v) (Like L) s t := by
  obtain ⟨rfl, hsolved, htarget⟩ := hacc
  have hsize := Nat.lt_of_lt_of_le hn h.nodes
  refine Coupled.get ?_
  rw [h.heap.isAnd hsize, h.heap.attrs n hsize, h.heap.status hsize]
  refine Coupled.ite Iff.rfl (fun _ => ?_) fun _ => Coupled.pure ⟨⟨rfl, hsolved, htarget⟩, h⟩
  refine Match.bind (Coupled.when Iff.rfl (fun _ => Coupled.raise h.like) fun _ => ⟨rfl, h⟩)
    fun _ u v hu => ?_
  have finish {u v : State} (hu : Twin L p u v) {solved : List SockId}
      (hs : ∀ x ∈ solved, L.live x) :
      Coupled (aim acc n solved) (aim (acc.rename L.node) (L.node n) solved)
      (fun a b u v => SamePass L p a b ∧ Twin L p u v) (Like L) u v := by
    refine Coupled.get ?_
    have hsolvers : v.solvers (.at (some (L.node n))) = u.solvers (.at (some n)) :=
      hu.solvers_eq (.at (some n))
    dsimp only
    rw [hu.heap.attrs n (Nat.lt_of_lt_of_le hn hu.nodes), hu.heap.len, hsolvers]
    refine Coupled.ite ?_ (fun _ => Coupled.pure ⟨⟨rfl, hs, fun m hm => ?_⟩, hu⟩)
      fun _ => Coupled.pure ⟨⟨rfl, hs, htarget⟩, hu⟩
    · simp only [Pass.rename, Option.map_eq_none_iff]
    · cases hm
      exact hn
  refine Coupled.ite Iff.rfl (fun _ => ?_) fun _ => ?_
  · refine Coupled.bind (hu.coupled_passUnsat hn hsolved) fun a b u v hk => ?_
    obtain ⟨hab, hu⟩ := hk
    rw [hab.1]
    exact finish hu hab.2
  · refine Match.bind (hu.match_timedOut hn) fun late u v hu => Coupled.ite Iff.rfl (fun _ => ?_)
      fun _ => ?_
    · exact Match.bind (hu.match_passTimeout hn) fun _ u v hu => finish hu hsolved
    · refine Coupled.get (Match.bind (Coupled.when ?_ (fun _ => hu.match_chooseNodeTimeout hi)
        fun _ => ⟨rfl, hu⟩) fun _ u v hu => finish hu hsolved)
      have hsolvers : v.solvers (.at (some (L.node n))) = u.solvers (.at (some n)) :=
        hu.solvers_eq (.at (some n))
      rw [hu.config, hu.heap.len, hsolvers]

end Passing

section Relocating

theorem length_solvers_at (h : Twin L p s t) (n : NodeId) :
    (t.solvers (.at (some (L.node n)))).length = (s.solvers (.at (some n))).length :=
  congrArg List.length (h.solvers_eq (.at (some n)))

/-- The active nodes below a node, those with the fewest solvers first. -/
theorem active_eq (h : Twin L p s t) (hn : n < s.heap.size) :
    ((t.activeNodes (t.heap.all (L.node n))).insertionSort fun a b =>
      (t.solvers (.at (some a))).length ≤ (t.solvers (.at (some b))).length) =
    ((s.activeNodes (s.heap.all n)).insertionSort fun a b =>
      (s.solvers (.at (some a))).length ≤ (s.solvers (.at (some b))).length).map L.node := by
  have hfilter : t.activeNodes (t.heap.all (L.node n)) =
      (s.activeNodes (s.heap.all n)).map L.node := by
    rw [State.activeNodes, State.activeNodes, h.heap.all, List.filter_map]
    refine congrArg _ (List.filter_congr fun m hm => ?_)
    have hm := (Heap.mem_all.mp hm).lt_size hn
    simp only [Function.comp_apply, h.heap.status hm, h.heap.isAnd hm, h.heap.attrs m hm]
  rw [hfilter]
  refine (List.map_insertionSort _ _ L.node _ fun a _ b _ => ?_).symm
  rw [h.length_solvers_at, h.length_solvers_at]

theorem coupled_relocateTo (h : Twin L p s t) (hn : n < p.nodes) {solved : List SockId}
    (hsolved : ∀ x ∈ solved, L.live x) :
    Coupled (relocateTo solved n) (relocateTo solved (L.node n))
      (fun a b u v => SameSolvers L a b ∧ Twin L p u v) (Like L) s t := by
  have hn := Nat.lt_of_lt_of_le hn h.nodes
  refine h.fitting fun h => Coupled.get ?_
  dsimp only
  rw [h.active_eq hn]
  have hmem {m : NodeId} (hm : m ∈ (s.activeNodes (s.heap.all n)).insertionSort fun a b =>
      (s.solvers (.at (some a))).length ≤ (s.solvers (.at (some b))).length) :
      m < (p.at s).nodes :=
    (Heap.mem_all.mp (List.mem_of_mem_filter ((List.mem_insertionSort _).mp hm))).lt_size hn
  revert hmem
  generalize (s.activeNodes (s.heap.all n)).insertionSort (fun a b =>
    (s.solvers (.at (some a))).length ≤ (s.solvers (.at (some b))).length) = active
  intro hmem
  cases active with
  | nil => exact Coupled.pure ⟨⟨rfl, hsolved⟩, h⟩
  | cons m ms =>
    have hm := hmem List.mem_cons_self
    refine h.bind_inOrder fun xs u v hp hu => ?_
    cases xs with
    | nil => exact Coupled.pure ⟨⟨rfl, fun x hx => by cases hx⟩, hu⟩
    | cons x xs =>
      have hlive := fun y hy => hsolved y (hp.mem_iff.mp hy)
      refine Match.bind (hu.match_incremental (hlive x List.mem_cons_self) hm) fun _ u v hu =>
        Coupled.pure ⟨⟨rfl, fun y hy => hlive y (List.mem_cons_of_mem x hy)⟩, hu⟩

theorem lt_of_childeren {h : Heap} {cs : List NodeId} (hcs : h.childeren n = .ok cs) {m : NodeId}
    (hm : m ∈ cs) : m < h.size := by
  obtain ⟨⟨_, _, ho⟩, _⟩ := Heap.mem_childeren hcs hm
  exact Forest.mem_lt_size ho

theorem match_relocate (h : Twin L p s t) (hi : i < p.insts) {solved : List SockId}
    (hsolved : ∀ x ∈ solved, L.live x) (fuel : Nat) :
    Match L p (relocate fuel i solved) (relocate fuel (L.inst i) solved) s t := by
  have hi := Nat.lt_of_lt_of_le hi h.insts
  refine h.fit fun h => Coupled.get (Coupled.when Iff.rfl (fun _ => ?_) fun _ => ⟨rfl, h⟩)
  rw [h.root hi, h.heap.childeren]
  refine Coupled.bind_ofExcept rfl h.like fun childs hchilds => ?_
  refine h.match_while hsolved (fun l u v hl hu => ?_) fuel
  refine hu.foldEach (P := (· < (p.at s).nodes)) (V := SameSolvers L)
    (fun m hm => lt_of_childeren hchilds hm) (fun a b m u v hab hm hu => ?_) ⟨rfl, hl⟩
  rw [hab.1]
  exact hu.coupled_relocateTo hm hab.2

end Relocating

section Spreading

theorem mem_of_spare {portfolioMin : Int} {idle xs : List SockId} {counter : Int}
    (hx : x ∈ spare portfolioMin idle counter xs) : x ∈ xs := by
  induction xs generalizing counter with
  | nil => exact hx
  | cons y ys ih =>
    rw [spare] at hx
    split at hx
    · rcases List.mem_cons.mp hx with rfl | hx
      · exact List.mem_cons_self
      · exact List.mem_cons_of_mem y (ih hx)
    · exact List.mem_cons_of_mem y (ih hx)

theorem coupled_movableSolvers (h : Twin L p s t) (q : PNode) :
    Coupled (movableSolvers q) (movableSolvers (q.rename L.node))
      (fun a b u v => SameSolvers L a b ∧ Twin L p u v) (Like L) s t := by
  refine Coupled.get (Coupled.ite ?_ (fun _ => ?_) fun _ => ?_)
  · rw [h.config]
  · cases q with
    | text => exact Coupled.raise h.like
    | node n =>
      dsimp only [PNode.rename]
      rw [h.heap.pathToNode]
      refine h.foldEach (P := fun _ => True) (V := SameSolvers L) (fun _ _ => trivial)
        (fun a b m u v hab _ hu => ?_) ⟨rfl, fun x hx => by cases hx⟩
      refine hu.bind_solvers (w := .at (some m)) fun xs u v hxs hu => Coupled.get ?_
      rw [hab.1, hu.config, hu.idleSolvers]
      refine Coupled.pure ⟨⟨rfl, fun x hx => ?_⟩, hu⟩
      rcases List.mem_append.mp hx with hx | hx
      · exact hab.2 x hx
      · exact hxs x (mem_of_spare hx)
  · exact Coupled.post (h.solvers .busy) fun xs ys u v hu =>
      ⟨⟨hu.2.1, fun x hx => h.live_of_solvers (hu.1.mem_iff.mp hx)⟩, hu.2.2⟩

theorem childeren_rename (h : Twin L p s t) (q : PNode) :
    (q.rename L.node).childeren t.heap = (q.childeren s.heap).map (List.map L.node) := by
  cases q with
  | text => rfl
  | node n => exact h.heap.childeren n

theorem coupled_spreadRound (h : Twin L p s t) (q : PNode) {movable : List SockId}
    (hlive : ∀ x ∈ movable, L.live x) :
    Coupled (spreadRound q movable) (spreadRound (q.rename L.node) movable)
      (fun a b u v => SameSolvers L a b ∧ Twin L p u v) (Like L) s t := by
  refine h.fitting fun h => Coupled.get ?_
  rw [h.childeren_rename]
  refine Coupled.bind_ofExcept rfl h.like fun childs hchilds => ?_
  have hsize (m : NodeId) (hm : m ∈ childs) : m < (p.at s).nodes := by
    cases q with
    | text => cases hchilds
    | node n => exact lt_of_childeren hchilds hm
  refine h.foldEach hsize (V := SameSolvers L) (fun a b m u v hab hm hu => ?_) ⟨rfl, hlive⟩
  rw [hab.1]
  cases a with
  | nil => exact Coupled.pure ⟨⟨rfl, hab.2⟩, hu⟩
  | cons x xs =>
    exact Match.bind (hu.match_incremental (hab.2 x List.mem_cons_self) hm) fun _ u v hu =>
      Coupled.pure ⟨⟨rfl, fun y hy => hab.2 y (List.mem_cons_of_mem x hy)⟩, hu⟩

theorem match_spread (h : Twin L p s t) (q : PNode) (fuel : Nat) :
    Match L p (spread fuel q) (spread fuel (q.rename L.node)) s t := by
  refine Coupled.bind (h.coupled_movableSolvers q) fun a b u v ⟨hab, hu⟩ => ?_
  rw [hab.1]
  exact hu.match_while hab.2 (fun l u v hl hu => hu.coupled_spreadRound q hl) fuel

end Spreading

section Reassigning

theorem match_pickIdle (h : Twin L p s t) (hn : n < p.nodes) {xs : List SockId}
    (hxs : ∀ x ∈ xs, L.live x) :
    Coupled (pickIdle n xs) (pickIdle (L.node n) xs)
      (fun a b u v => (b = a ∧ ∀ x ∈ a, L.live x) ∧ Twin L p u v) (Like L) s t := by
  induction xs with
  | nil => exact Coupled.pure ⟨⟨rfl, fun x hx => by cases hx⟩, h⟩
  | cons x xs ih =>
    have hx := hxs x List.mem_cons_self
    have found : Coupled (pure (some x) : M (Option SockId)) (pure (some x))
        (fun a b u v => (b = a ∧ ∀ x ∈ a, L.live x) ∧ Twin L p u v) (Like L) s t := by
      refine Coupled.pure ⟨⟨rfl, fun y hy => ?_⟩, h⟩
      cases hy
      exact hx
    refine Coupled.get ?_
    rw [(h.solver x hx).node]
    cases hm : (s.solver x).node with
    | none => exact Coupled.raise h.like
    | some m =>
      have hsize := h.placed x m hx hm
      have hsolvers : t.solvers (.at (some (L.node n))) = s.solvers (.at (some n)) :=
        h.solvers_eq (.at (some n))
      dsimp only [Option.map_some]
      refine Coupled.ite ?_ (fun _ => Coupled.raise h.like) fun _ => Coupled.ite ?_
        (fun _ => found) fun _ => Coupled.ite ?_ (fun _ => found)
        fun _ => ih fun y hy => hxs y (List.mem_cons_of_mem x hy)
      · rw [h.heap.root, h.heap.root, ne_eq, h.inj]
      · rw [h.heap.isAncestor]
      · rw [h.heap.len, h.heap.attrs m hsize, h.heap.attrs n (Nat.lt_of_lt_of_le hn h.nodes),
          hsolvers, ne_eq, h.inj]

theorem match_reassignTo (h : Twin L p s t) (hn : n < p.nodes) :
    Match L p (reassignTo n) (reassignTo (L.node n)) s t := by
  have hsize := Nat.lt_of_lt_of_le hn h.nodes
  refine Coupled.get (Coupled.when ?_ (fun _ => ?_) fun _ => ⟨rfl, h⟩)
  · rw [State.unAttempted, State.unAttempted, h.heap.len, h.heap.status hsize,
      h.heap.attrs n hsize, h.heap.isAnd hsize, h.idleSolvers]
  · rw [h.idleSolvers]
    refine Coupled.bind (h.match_pickIdle hn h.resting) fun a b u v hpicked => ?_
    obtain ⟨hab, hu⟩ := hpicked
    rw [hab.1]
    cases a with
    | none => exact hu.match_pure ()
    | some x =>
      exact Match.bind (hu.match_idle (·.erase x) fun y hy => .inl (List.mem_of_mem_erase hy))
        fun _ u v hu => hu.match_incremental (hab.2 x rfl) hn

theorem samePrefix_rename (h : Twin L p s t) (m : NodeId) :
    samePrefix t.heap (L.node n) (L.node m) = samePrefix s.heap n m := by
  rw [samePrefix, samePrefix, h.heap.path, h.heap.path]

theorem match_sendIdle (h : Twin L p s t) (hn : n < p.nodes) :
    Match L p (sendIdle n) (sendIdle (L.node n)) s t := by
  refine Coupled.get (Coupled.ite ?_ (fun _ => Coupled.raise h.like) fun _ => ?_)
  · rw [h.idleSolvers]
    refine exists_congr fun x => and_congr_right fun hx => ?_
    rw [(h.solver x (h.resting x hx)).node, Option.map_eq_none_iff]
  · have hnear (x : SockId) (hx : x ∈ s.idleSolvers) :
        ((t.solver x).node.any fun m => samePrefix t.heap (L.node n) m) =
          (s.solver x).node.any fun m => samePrefix s.heap n m := by
      rw [(h.solver x (h.resting x hx)).node]
      cases (s.solver x).node with
      | none => rfl
      | some m => exact h.samePrefix_rename m
    have hsorted : (s.idleSolvers.filter fun x =>
          (t.solver x).node.any fun m => samePrefix t.heap (L.node n) m) ++
        (s.idleSolvers.filter fun x =>
          !(t.solver x).node.any fun m => samePrefix t.heap (L.node n) m) =
        (s.idleSolvers.filter fun x => (s.solver x).node.any fun m => samePrefix s.heap n m) ++
        s.idleSolvers.filter fun x => !(s.solver x).node.any fun m => samePrefix s.heap n m := by
      refine congrArg₂ _ (List.filter_congr hnear) (List.filter_congr fun x hx => ?_)
      rw [hnear x hx]
    refine Match.bind (p := p) ?_ fun _ u v hu => Coupled.get ?_
    · dsimp only
      refine Coupled.modify ⟨rfl, { h with
        idleSolvers := by rw [h.idleSolvers]; exact hsorted, resting := fun x hx => ?_ }⟩
      rcases List.mem_append.mp hx with hx | hx
      · exact h.resting x (List.mem_of_mem_filter hx)
      · exact h.resting x (List.mem_of_mem_filter hx)
    · rw [hu.idleSolvers]
      rcases hidle : u.idleSolvers with _ | ⟨x, xs⟩
      · exact hu.match_pure ()
      · have hx := hu.resting x (hidle ▸ List.mem_cons_self)
        refine Coupled.when ?_ (fun _ => Match.bind (hu.match_incremental hx hn) fun _ u v hu =>
          hu.match_idle (·.erase x) fun y hy => .inl (List.mem_of_mem_erase hy)) fun _ => ⟨rfl, hu⟩
        rw [(hu.solver x hx).orWaiting, List.map_eq_nil_iff]

theorem match_reassign (h : Twin L p s t) (htotal : L.total) {ns : List NodeId} {acc : Pass}
    (hns : ∀ n ∈ ns, n < p.nodes) (hacc : ∀ m, acc.toPartition = some m → m < p.nodes) :
    Match L p (reassign ns acc) (reassign (ns.map L.node) (acc.rename L.node)) s t := by
  refine Coupled.get (Coupled.when ?_ (fun _ => ?_) fun _ => ⟨rfl, h⟩)
  · rw [h.idleSolvers]
  · refine Match.bind (h.match_forEach hns fun n u v hn hu => hu.match_reassignTo hn)
      fun _ u v hu => Coupled.get ?_
    rw [hu.idleSolvers, hu.total htotal]
    refine Match.bind (Coupled.when Iff.rfl (fun _ => Coupled.raise hu.like) fun _ => ⟨rfl, hu⟩)
      fun _ u' v' hu' => ?_
    cases htarget : acc.toPartition with
    | none =>
      simp only [Pass.rename, htarget, Option.map_none]
      exact hu'.match_pure ()
    | some m =>
      simp only [Pass.rename, htarget, Option.map_some]
      exact Coupled.when Iff.rfl (fun _ => hu'.match_sendIdle (hacc m htarget)) fun _ => ⟨rfl, hu'⟩

end Reassigning

section Partitioning

theorem match_askFirst (h : Twin L p s t) (n : NodeId) {xs : List SockId}
    (hxs : ∀ x ∈ xs, L.live x) :
    Match L p (askFirst n xs) (askFirst (L.node n) xs) s t := by
  induction xs generalizing s t with
  | nil => exact h.match_pure false
  | cons x xs ih =>
    have hx := hxs x List.mem_cons_self
    refine Coupled.get ?_
    rw [(h.solver x hx).started, h.config, h.heap.level]
    cases (s.solver x).started with
    | none => exact Coupled.raise h.like
    | some started =>
      cases s.config.partitionTimeout with
      | none => exact Coupled.raise h.like
      | some limit =>
        refine Match.bind h.match_now fun time u v hu => Coupled.ite Iff.rfl (fun _ => ?_)
          fun _ => ih hu fun y hy => hxs y (List.mem_cons_of_mem x hy)
        exact Match.bind (hu.match_levelChildren _) fun j u v hu =>
          Match.bind (hu.match_askPartitions hx j) fun _ u v hu => hu.match_pure true

theorem match_partitionLoop (h : Twin L p s t) (n : NodeId) (j : Nat) :
    Match L p (partitionLoop n j) (partitionLoop (L.node n) j) s t := by
  induction j generalizing s t with
  | zero => exact h.match_pure false
  | succ j ih =>
    refine h.bind_solvers (w := .at (some n)) fun xs u v hxs hu => ?_
    refine Match.bind (hu.match_askFirst n hxs) fun asked u v hu => Coupled.ite Iff.rfl
      (fun _ => hu.match_pure true) fun _ => ih hu

theorem match_partition (h : Twin L p s t) (n : NodeId) :
    Match L p (partition n) (partition (L.node n)) s t := by
  refine Coupled.get ?_
  rw [h.heap.level, h.heap.len]
  exact Match.bind (h.match_levelChildren _) fun j u v hu => hu.match_partitionLoop n _

end Partitioning

section Entrusting

theorem coupled_survey (h : Twin L p s t) (hi : i < p.insts) (fuel : Nat) :
    Coupled (survey fuel i) (survey fuel (L.inst i))
      (fun a b u v => (b.1 = a.1.map L.node ∧ (∀ n ∈ a.1, n < (p.at s).nodes) ∧
        SamePass L (p.at s) a.2 b.2) ∧ Twin L (p.at s) u v) (Like L) s t := by
  have hi := Nat.lt_of_lt_of_le hi h.insts
  have h := h.at_twin
  have hroot : s.root i < (p.at s).nodes := h.root_lt hi
  have hsorted : t.heap.sortByLevel (t.heap.all (t.root (L.inst i))) =
      (s.heap.sortByLevel (s.heap.all (s.root i))).map L.node := by
    rw [h.root hi, h.heap.all, h.heap.sortByLevel]
  have hnodes : ∀ n ∈ s.heap.sortByLevel (s.heap.all (s.root i)), n < (p.at s).nodes := fun n hn =>
    (Heap.mem_all.mp ((List.mem_insertionSort _).mp hn)).lt_size hroot
  refine Coupled.get ?_
  dsimp only
  rw [hsorted]
  have start : SamePass L (p.at s) {} {} := by
    refine ⟨rfl, ?_, ?_⟩
    · intro x hx
      cases hx
    · intro m hm
      cases hm
  refine Coupled.bind (h.foldEach (V := SamePass L (p.at s)) hnodes
    (fun a b n u v hab hn hu => hu.coupled_passNode hi hn hab) start) fun a b u v hu => ?_
  obtain ⟨hab, hu⟩ := hu
  have hsolved : b.solved = a.solved := by rw [hab.1]; rfl
  rw [hsolved]
  exact Match.bind (hu.match_relocate hi hab.2.1 fuel) fun _ u v hu =>
    Coupled.pure ⟨⟨rfl, hnodes, hab⟩, hu⟩

theorem match_distribute (h : Twin L p s t) (htotal : L.total) (hcount : L.count)
    (hi : i < p.insts) {ns : List NodeId} {acc acc' : Pass} (hns : ∀ n ∈ ns, n < p.nodes)
    (hacc : SamePass L p acc acc') (fuel : Nat) (q : Option PNode) :
    Match L p (distribute fuel i q ns acc)
      (distribute fuel (L.inst i) (q.map (PNode.rename L.node)) (ns.map L.node) acc') s t := by
  obtain ⟨rfl, _, htarget⟩ := hacc
  have rest {u v : State} (hu : Twin L p u v) : Match L p (distribute fuel i none ns acc)
      (distribute fuel (L.inst i) none (ns.map L.node) (acc.rename L.node)) u v := by
    refine Match.bind (hu.match_reassign htotal hns htarget) fun _ u v hu => Coupled.get ?_
    rw [hu.root hi, hu.heap.label _ (hu.root_lt hi)]
    refine Coupled.ite Iff.rfl (fun _ => ?_) fun _ => hu.match_pure ()
    cases htarget' : acc.toPartition with
    | none =>
      simp only [Pass.rename, htarget', Option.map_none]
      exact hu.match_pure ()
    | some m =>
      simp only [Pass.rename, htarget', Option.map_some]
      refine Coupled.when ?_ (fun _ => ?_) fun _ => ⟨rfl, hu⟩
      · rw [hu.count hcount, hu.total htotal]
      · exact Match.bind (hu.match_partition m) fun _ u v hu => hu.match_pure ()
  cases q with
  | none => exact rest h
  | some q => exact Match.bind (h.match_spread q fuel) fun _ u v hu => rest hu

theorem coupled_proceed (h : Twin L p s t) (solving : Option InstId) (returned : Bool)
    (even : p.Even s.rlist.length) :
    Coupled (proceed solving returned) (proceed (solving.map L.inst) returned)
      (fun a b u v => (b = a.map L.inst ∧ ∀ i ∈ a, i < u.nextInst) ∧ Like L u v) (Like L) s t := by
  have nothing {u v : State} (hu : Like L u v) : Coupled (pure none : M (Option InstId)) (pure none)
      (fun a b u v => (b = a.map L.inst ∧ ∀ i ∈ a, i < u.nextInst) ∧ Like L u v) (Like L) u v :=
    Coupled.pure ⟨⟨rfl, fun i hi => by cases hi⟩, hu⟩
  refine Coupled.ite Iff.rfl (fun _ => nothing h.like) fun _ => Coupled.gets ?_
  rw [h.current]
  cases hc : s.current with
  | none =>
    refine Coupled.bind (h.coupled_startNext even) fun a b u v ⟨hab, hu⟩ => ?_
    subst hab
    refine Coupled.ite Iff.rfl (fun _ => nothing hu) fun _ => ?_
    obtain ⟨q, hu⟩ := hu
    exact Match.bind (hu.match_allDone solving) fun _ u v hu => nothing hu.like
  | some i =>
    have hi : i < (p.at s).insts := h.here i hc
    refine Coupled.bind (h.at_twin.coupled_welcome hi even) fun _ _ u v hu => Coupled.get ?_
    obtain ⟨q, hu⟩ := hu
    rw [hu.config]
    refine Coupled.pure ⟨⟨?_, fun j hj => ?_⟩, hu.like⟩
    · dsimp only
      split <;> rfl
    · split at hj
      · cases hj
        exact Nat.lt_of_lt_of_le hi hu.insts
      · cases hj

theorem match_settle (h : Twin L p s t) {solving : Option InstId}
    (hi : ∀ i, solving = some i → i < p.insts) :
    Match L p (settle solving) (settle (solving.map L.inst)) s t := by
  cases solving with
  | none => exact h.match_pure false
  | some i =>
    refine Match.bind (h.match_isOver (hi i rfl)) fun ended u v hu => Coupled.ite Iff.rfl
      (fun _ => hu.match_conclude (hi i rfl)) fun _ => hu.match_pure false

theorem unwired_settle (solving : Option InstId) : Unwired (settle solving) := by
  cases solving with
  | none => exact .pure _
  | some i =>
    exact .bind (Untouched.unwired (untouched_isOver i)) fun _ =>
      .ite (Untouched.unwired (untouched_conclude i)) (.pure _)

theorem coupled_attend (h : Twin L p s t) (even : p.Even s.rlist.length) :
    Coupled attend attend
      (fun a b u v => (b = a.map L.inst ∧ ∀ i ∈ a, i < u.nextInst) ∧ Like L u v) (Like L) s t := by
  rw [attend]
  refine Coupled.gets ?_
  rw [h.current]
  refine Coupled.bind ((h.at_twin.match_settle h.here).leaves (unwired_settle s.current))
    fun returned r u v hu => ?_
  obtain ⟨⟨rfl, hu⟩, hsame⟩ := hu
  refine hu.coupled_proceed s.current _ ?_
  rw [show u.rlist.length = s.rlist.length from congrArg (fun w => w.rlist.length) hsame]
  exact even

/-- Twins that have counted their solvers give out the same work. -/
theorem coupled_entrust (h : Twin L p s t) (htotal : L.total) (hcount : L.count)
    (even : p.Even s.rlist.length) (fuel : Nat) (q : Option PNode) :
    Coupled (entrust fuel q) (entrust fuel (q.map (PNode.rename L.node))) (fun _ _ => Like L)
      (Like L) s t := by
  refine Coupled.bind (h.coupled_attend even) fun a b u v ⟨hab, hu⟩ => ?_
  obtain ⟨rfl, hi⟩ := hab
  obtain ⟨p, hu⟩ := hu
  cases a with
  | none => exact Coupled.pure hu.like
  | some i =>
    have hi : i < (p.at u).insts := hi i rfl
    refine Coupled.bind (hu.at_twin.coupled_survey hi fuel) fun a b u v ⟨hab, hu⟩ => ?_
    obtain ⟨ns, acc⟩ := a
    obtain ⟨ms, acc'⟩ := b
    obtain ⟨rfl, hns, hacc⟩ := hab
    exact (hu.match_distribute htotal hcount hi hns hacc fuel q).post fun _ _ _ _ hw => hw.2.like

end Entrusting

end Twin

end Smts.Server
