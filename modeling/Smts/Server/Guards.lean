import Smts.Server.Seats

namespace Smts.Server

open Smts.Lib

/-- Connected solvers. -/
def State.Connected (s : State) (x : SockId) : Prop := x ∈ s.rlist ∧ s.kind x = .solver

theorem State.mem_solvers {s : State} {w : Which} {x : SockId} :
    x ∈ s.solvers w ↔ s.Connected x ∧ w.holds (s.solver x) = true := by
  simp [State.solvers, State.Connected, and_assoc]

/-- What holds where the server acts.  The conclusion of an instance is one action
unless it is `hindered`. -/
def Act.Guard (hindered : Prop) : Act → State → Prop
  | .solve _ n _, s => ∃ i, s.current = some i ∧ n = s.root i
  | .move x n _, s => ∃ i, s.current = some i ∧ s.heap.root n = s.root i ∧
      ∀ a, (s.solver x).node = some a → s.heap.root a = s.root i
  | .ask x n, s => s.Connected x ∧ s.heap.children n = [] ∧ (s.heap.attrs n).partitioning = false
  | .process n, s => s.heap.status n ≠ .unknown ∨ ∃ o ∈ s.heap.children n, s.heap.children o ≠ []
  | .idleAdd x, s => s.Connected x ∧ x ∉ s.idleSolvers ∧
      ∃ i n, s.current = some i ∧ (s.solver x).node = some n ∧ s.heap.root n = s.root i
  | .idleSort l, s => l.Perm s.idleSolvers
  | .start i, s => s.current = none ∧ i ∈ s.trees.map Prod.snd ∧
      s.heap.status (s.root i) = .unknown
  | .conclude i shown, s => s.current = some i ∧ shown = !s.config.enableLog ∧
      (∀ x, s.Connected x → (s.solver x).node ≠ none) ∧
      (shown = true → (s.trees.lookup (s.name i)).isSome)
  | .verdict i, s => s.current = some i ∧ (hindered ∨ s.trees.lookup (s.name i) = none)
  | .drop _, _ => hindered
  | .submit name l, _ => l.name = name
  | .enlist x, s => x < s.nextSock ∧ x ∉ s.rlist ∧ (s.kind x = .solver → (s.solver x).node = none)
  | .delist x, s => s.kind x = .solver → (s.solver x).node = none
  | _, _ => True

def Act.Allowed (hindered : Prop) (a : Act) (s : State) : Prop := a.Enabled s ∧ a.Guard hindered s

/-- Instances have trees of their own, and solvers that are connected or idle are
on the tree of the current one. -/
structure Consistent (s : State) : Prop where
  seated : Seated s
  sockets : ∀ x ∈ s.rlist, x < s.nextSock
  distinct : s.rlist.Nodup
  opened : ∀ i, i < s.nextInst → s.heap.Listed (s.root i) ∧ s.heap.parent (s.root i) = none
  roots : ∀ i j, i < s.nextInst → j < s.nextInst → s.root i = s.root j → i = j
  current : ∀ i, s.current = some i → i < s.nextInst
  entries : ∀ e ∈ s.trees, e.2 < s.nextInst ∧ s.name e.2 = e.1
  keys : (s.trees.map Prod.fst).Nodup
  here : ∀ x n, s.Connected x ∨ x ∈ s.idleSolvers → (s.solver x).node = some n →
    ∃ i, s.current = some i ∧ s.heap.root n = s.root i

namespace Consistent

variable {s t : State} {hindered : Prop}

theorem name_congr (label : t.heap.label = s.heap.label) (root : ∀ i, t.root i = s.root i)
    (i : InstId) : t.name i = s.name i := by
  rw [State.name, State.name, label, root]

theorem quiet (h : Quiet s t) (hs : Consistent s) : Consistent t where
  seated := hs.seated.quiet h
  sockets := by rw [h.rlist, h.nextSock]; exact hs.sockets
  distinct := by rw [h.rlist]; exact hs.distinct
  opened i := by
    rw [h.nextInst, h.root, Heap.Listed, h.heap.forest, Heap.isAnd_congr h.heap.label]
    exact hs.opened i
  roots i j := by rw [h.nextInst, h.root, h.root]; exact hs.roots i j
  current i := by rw [h.current, h.nextInst]; exact hs.current i
  entries e := by
    rw [h.trees, h.nextInst, name_congr h.heap.label h.root]
    exact hs.entries e
  keys := by rw [h.trees]; exact hs.keys
  here x n := by
    rw [State.Connected, h.rlist, h.kind, h.idleSolvers, h.node, h.current, h.heap.forest]
    simp only [h.root]
    exact hs.here x n

theorem root_root (hs : Consistent s) {i : InstId} (hi : i < s.nextInst) :
    s.heap.root (s.root i) = s.root i :=
  s.heap.root_of_none (hs.opened i hi).2

theorem root_grows (hs : Consistent s) (hg : s.heap.Grows t.heap) {x : SockId} {n : NodeId}
    (hn : (s.solver x).node = some n) : t.heap.root n = s.heap.root n :=
  hg.root n (hs.seated.placed x n hn).1

/-- Sockets, instances and the current one stay, and trees only grow. -/
theorem frame (hs : Consistent s) (seated : Seated t) (hg : s.heap.Grows t.heap)
    (rlist : t.rlist = s.rlist) (nextSock : t.nextSock = s.nextSock) (inst : t.inst = s.inst)
    (nextInst : t.nextInst = s.nextInst) (current : t.current = s.current)
    (entries : t.trees.Sublist s.trees)
    (here : ∀ x n, t.Connected x ∨ x ∈ t.idleSolvers → (t.solver x).node = some n →
      ∃ i, t.current = some i ∧ t.heap.root n = t.root i) : Consistent t where
  seated := seated
  sockets := by rw [rlist, nextSock]; exact hs.sockets
  distinct := by rw [rlist]; exact hs.distinct
  opened i hi := by
    rw [nextInst] at hi
    rw [State.root, inst]
    obtain ⟨hl, hp⟩ := hs.opened i hi
    exact ⟨hg.listed hl, (hg.parent _ hl.1).trans hp⟩
  roots i j := by rw [nextInst, State.root, State.root, inst]; exact hs.roots i j
  current i := by rw [current, nextInst]; exact hs.current i
  entries e he := by
    obtain ⟨hlt, hname⟩ := hs.entries e (entries.subset he)
    have hroot : t.root e.2 = s.root e.2 := by rw [State.root, inst]; rfl
    refine ⟨nextInst ▸ hlt, ?_⟩
    rw [State.name, hroot, hg.label _ (hs.opened e.2 hlt).1.1]
    exact hname
  keys := hs.keys.sublist (entries.map _)
  here := here

/-- No solver gets a node, connects or becomes idle. -/
theorem here_of_sub (hs : Consistent s) (hg : s.heap.Grows t.heap) (inst : t.inst = s.inst)
    (current : t.current = s.current)
    (sub : ∀ x, t.Connected x ∨ x ∈ t.idleSolvers → s.Connected x ∨ x ∈ s.idleSolvers)
    (node : ∀ x n, (t.solver x).node = some n → (s.solver x).node = some n) (x : SockId)
    (n : NodeId) (hx : t.Connected x ∨ x ∈ t.idleSolvers) (hn : (t.solver x).node = some n) :
    ∃ i, t.current = some i ∧ t.heap.root n = t.root i := by
  obtain ⟨i, hi, hr⟩ := hs.here x n (sub x hx) (node x n hn)
  refine ⟨i, current ▸ hi, ?_⟩
  rw [hs.root_grows hg (node x n hn), hr, State.root, State.root, inst]

theorem node_update {x y : SockId} {d : SolverData} {n : NodeId}
    (hd : d.node = (s.solver x).node ∨ d.node = none)
    (hn : (Function.update s.solver x d y).node = some n) : (s.solver y).node = some n := by
  rw [Function.update_apply] at hn
  split at hn
  · next hy =>
    subst hy
    rcases hd with hd | hd
    · rwa [hd] at hn
    · rw [hd] at hn
      exact nomatch hn
  · exact hn

/-- One solver is put on a node of the current tree. -/
theorem here_update (hs : Consistent s) {x : SockId} {d : SolverData} {n : NodeId} {i : InstId}
    (hd : d.node = some n) (hi : s.current = some i) (hr : s.heap.root n = s.root i)
    (solver : t.solver = Function.update s.solver x d) (heap : t.heap = s.heap)
    (inst : t.inst = s.inst) (current : t.current = s.current)
    (sub : ∀ x, t.Connected x ∨ x ∈ t.idleSolvers → s.Connected x ∨ x ∈ s.idleSolvers)
    (y : SockId) (m : NodeId) (hy : t.Connected y ∨ y ∈ t.idleSolvers)
    (hm : (t.solver y).node = some m) : ∃ i, t.current = some i ∧ t.heap.root m = t.root i := by
  have hroot : ∀ j, t.root j = s.root j := fun j => by rw [State.root, inst]; rfl
  simp only [current, heap, hroot]
  rw [solver, Function.update_apply] at hm
  split at hm
  · rw [hd, Option.some.injEq] at hm
    exact ⟨i, hi, hm ▸ hr⟩
  · exact hs.here y m (sub y hy) hm

theorem conclude (hs : Consistent s) (i : InstId) (shown : Bool)
    (ha : (Act.conclude i shown).Allowed hindered s) :
    Consistent ((Act.conclude i shown).apply s) where
  seated := hs.seated.act _ ha.1
  sockets := hs.sockets
  distinct := hs.distinct
  opened := hs.opened
  roots := hs.roots
  current _ h := nomatch h
  entries e he := by
    cases shown with
    | false => exact hs.entries e he
    | true => exact hs.entries e (List.mem_of_mem_filter he)
  keys := by
    cases shown with
    | false => exact hs.keys
    | true => exact hs.keys.sublist ((List.filter_sublist).map _)
  here x n hx hn := by
    rcases hx with hx | hx
    · have hreset : ((Act.conclude i shown).apply s).solver x = Solver.reset (s.solver x) :=
        if_pos hx
      rw [hreset] at hn
      exact nomatch hn
    · exact absurd hx List.not_mem_nil

theorem lookup_none_iff {trees : List (String × InstId)} {name : String} :
    trees.lookup name = none ↔ name ∉ trees.map Prod.fst := by
  rw [List.lookup_eq_none_iff]
  simp only [ne_eq, List.mem_map, not_exists, not_and, bne_iff_ne]
  exact ⟨fun h e he hn => h e he hn.symm, fun h e he hn => h e he hn.symm⟩

theorem mem_submit {name : String} {l : Label} {e : String × InstId}
    (he : e ∈ ((Act.submit name l).apply s).trees) : e = (name, s.nextInst) ∨ e ∈ s.trees := by
  simp only [Act.apply, State.submit] at he
  split at he
  · obtain ⟨e', he', rfl⟩ := List.mem_map.mp he
    split
    · exact .inl rfl
    · exact .inr he'
  · exact (List.mem_append.mp he).symm.imp_left List.mem_singleton.mp

theorem submit (hs : Consistent s) (name : String) (l : Label)
    (ha : (Act.submit name l).Allowed hindered s) : Consistent ((Act.submit name l).apply s) := by
  have hg : s.heap.Grows ((Act.submit name l).apply s).heap := Heap.addRoot_grows l
  have hnew : ((Act.submit name l).apply s).root s.nextInst = s.heap.size := by
    simp [Act.apply, State.submit, State.root]
  have hold : ∀ i, i < s.nextInst → ((Act.submit name l).apply s).root i = s.root i := by
    intro i hi
    simp [Act.apply, State.submit, State.root, Nat.ne_of_lt hi]
  have hcases : ∀ i, i < ((Act.submit name l).apply s).nextInst → i < s.nextInst ∨ i = s.nextInst :=
    fun i hi => Nat.lt_succ_iff_lt_or_eq.mp hi
  refine ⟨hs.seated.act _ ha.1, hs.sockets, hs.distinct, fun i hi => ?_, fun i j hi hj he => ?_,
    fun i hi => Nat.lt_succ_of_lt (hs.current i hi), fun e he => ?_, ?_, fun x n hx hn => ?_⟩
  · rcases hcases i hi with hi | rfl
    · obtain ⟨hl, hp⟩ := hs.opened i hi
      rw [hold i hi]
      exact ⟨hg.listed hl, (hg.parent _ hl.1).trans hp⟩
    · rw [hnew]
      have hp : ((Act.submit name l).apply s).heap.parent s.heap.size = none := s.heap.parent_size
      refine ⟨⟨Nat.lt_succ_self _, ?_, Forest.attached_of_none hp⟩, hp⟩
      have hl : l.cls ≠ .orNode := ha.1
      simp [Heap.isAnd, Heap.isOr, Act.apply, State.submit, Heap.addRoot, hl]
  · rcases hcases i hi with hi | rfl
    · rcases hcases j hj with hj | rfl
      · exact hs.roots i j hi hj (by rw [← hold i hi, ← hold j hj, he])
      · rw [hold i hi, hnew] at he
        exact absurd he (Nat.ne_of_lt (hs.opened i hi).1.1)
    · rcases hcases j hj with hj | rfl
      · rw [hnew, hold j hj] at he
        exact absurd he.symm (Nat.ne_of_lt (hs.opened j hj).1.1)
      · rfl
  · rcases mem_submit he with rfl | he
    · refine ⟨Nat.lt_succ_self _, ?_⟩
      have hname : l.name = name := ha.2
      rw [State.name, hnew]
      simp [Act.apply, State.submit, Heap.addRoot, hname]
    · obtain ⟨hlt, hname⟩ := hs.entries e he
      refine ⟨Nat.lt_succ_of_lt hlt, ?_⟩
      rw [State.name, hold e.2 hlt, hg.label _ (hs.opened e.2 hlt).1.1]
      exact hname
  · simp only [Act.apply, State.submit]
    split
    · have hfst : (s.trees.map fun e => if e.1 = name then (name, s.nextInst) else e).map Prod.fst =
          s.trees.map Prod.fst := by
        rw [List.map_map]
        refine List.map_congr_left fun e _ => ?_
        simp only [Function.comp]
        split
        · next h => exact h.symm
        · rfl
      rw [hfst]
      exact hs.keys
    · next hnone =>
      rw [Option.not_isSome_iff_eq_none, lookup_none_iff] at hnone
      rw [List.map_append, List.nodup_append]
      refine ⟨hs.keys, List.nodup_singleton _, fun k hk k' hk' => ?_⟩
      obtain rfl : k' = name := List.mem_singleton.mp hk'
      rintro rfl
      exact hnone hk
  · obtain ⟨i, hi, hr⟩ := hs.here x n hx hn
    refine ⟨i, hi, ?_⟩
    rw [hold i (hs.current i hi)]
    exact (hs.root_grows hg hn).trans hr

theorem create (hs : Consistent s) (k : Kind) (name : String)
    (ha : (Act.create k name).Allowed hindered s) : Consistent ((Act.create k name).apply s) where
  seated := hs.seated.act _ ha.1
  sockets x hx := Nat.lt_succ_of_lt (hs.sockets x hx)
  distinct := hs.distinct
  opened := hs.opened
  roots := hs.roots
  current := hs.current
  entries := hs.entries
  keys := hs.keys
  here x n hx hn := by
    have hn : (s.solver x).node = some n := by
      simp only [Act.apply, State.create] at hn
      split at hn
      · exact node_update (.inr rfl) hn
      · exact hn
    refine hs.here x n (hx.imp_left fun hx => ⟨hx.1, ?_⟩) hn
    have hne : x ≠ s.nextSock := Nat.ne_of_lt (hs.sockets x hx.1)
    have hk : ((Act.create k name).apply s).kind x = s.kind x := Function.update_of_ne hne _ _
    exact hk.symm.trans hx.2

theorem enlist (hs : Consistent s) (x : SockId) (ha : (Act.enlist x).Allowed hindered s) :
    Consistent ((Act.enlist x).apply s) where
  seated := hs.seated.act _ ha.1
  sockets y hy := by
    rcases List.mem_append.mp hy with hy | hy
    · exact hs.sockets y hy
    · exact List.mem_singleton.mp hy ▸ ha.2.1
  distinct := by
    refine List.nodup_append.mpr ⟨hs.distinct, List.nodup_singleton x, fun y hy z hz => ?_⟩
    rw [List.mem_singleton] at hz
    rintro rfl
    exact ha.2.2.1 (hz ▸ hy)
  opened := hs.opened
  roots := hs.roots
  current := hs.current
  entries := hs.entries
  keys := hs.keys
  here y n hy hn := by
    refine hs.here y n ?_ hn
    refine hy.imp_left fun hy => ⟨?_, hy.2⟩
    rcases List.mem_append.mp hy.1 with hmem | hmem
    · exact hmem
    · obtain rfl := List.mem_singleton.mp hmem
      have hnone := ha.2.2.2 hy.2
      rw [show (s.solver y).node = some n from hn] at hnone
      exact nomatch hnone

theorem delist (hs : Consistent s) {l : List SockId} (hl : l.Sublist s.rlist) :
    Consistent { s with rlist := l } where
  seated := hs.seated.grow (.refl _) rfl hs.seated.empty
  sockets x hx := hs.sockets x (hl.subset hx)
  distinct := hs.distinct.sublist hl
  opened := hs.opened
  roots := hs.roots
  current := hs.current
  entries := hs.entries
  keys := hs.keys
  here x n hx hn := hs.here x n (hx.imp_left fun hx => ⟨hl.subset hx.1, hx.2⟩) hn

/-- Every action keeps the state in order. -/
theorem act (hs : Consistent s) (a : Act) (ha : a.Allowed hindered s) : Consistent (a.apply s) := by
  have seated : Seated (a.apply s) := hs.seated.act a ha.1
  have hg : s.heap.Grows (a.apply s).heap := hs.seated.grows a ha.1
  cases a with
  | quiet => exact hs
  | solve x n m =>
    obtain ⟨i, hi, rfl⟩ := ha.2
    exact hs.frame seated hg rfl rfl rfl rfl rfl (.refl _) (hs.here_update rfl hi
      (hs.root_root (hs.current i hi)) rfl rfl rfl rfl fun _ h => h)
  | move x n m =>
    obtain ⟨i, hi, hr, _⟩ := ha.2
    exact hs.frame seated hg rfl rfl rfl rfl rfl (.refl _)
      (hs.here_update rfl hi hr rfl rfl rfl rfl fun _ h => h)
  | leave x =>
    exact hs.frame seated hg rfl rfl rfl rfl rfl (.refl _)
      (hs.here_of_sub hg rfl rfl (fun _ h => h) fun _ _ => node_update (.inr rfl))
  | ask x n =>
    exact hs.frame seated hg rfl rfl rfl rfl rfl (.refl _)
      (hs.here_of_sub hg rfl rfl (fun _ h => h) fun _ _ => node_update (.inl rfl))
  | report x n status =>
    exact hs.frame seated hg rfl rfl rfl rfl rfl (.refl _)
      (hs.here_of_sub hg rfl rfl (fun _ h => h) fun _ _ => node_update (.inl rfl))
  | reply x o partitions =>
    exact hs.frame seated hg rfl rfl rfl rfl rfl (.refl _)
      (hs.here_of_sub hg rfl rfl (fun _ h => h) fun _ _ => node_update (.inl rfl))
  | process n =>
    exact hs.frame seated hg rfl rfl rfl rfl rfl (.refl _)
      (hs.here_of_sub hg rfl rfl (fun _ h => h) fun _ _ h => h)
  | idleAdd x =>
    refine hs.frame seated hg rfl rfl rfl rfl rfl (.refl _)
      (hs.here_of_sub hg rfl rfl (fun y hy => ?_) fun _ _ h => h)
    refine hy.elim .inl fun hy => ?_
    rcases List.mem_append.mp hy with hy | hy
    · exact .inr hy
    · exact .inl (List.mem_singleton.mp hy ▸ ha.2.1)
  | idleDrop x =>
    exact hs.frame seated hg rfl rfl rfl rfl rfl (.refl _) (hs.here_of_sub hg rfl rfl
      (fun _ h => h.imp_right List.mem_of_mem_erase) fun _ _ h => h)
  | idleSort l =>
    exact hs.frame seated hg rfl rfl rfl rfl rfl (.refl _) (hs.here_of_sub hg rfl rfl
      (fun _ h => h.imp_right ha.2.mem_iff.mp) fun _ _ h => h)
  | start i =>
    refine ⟨seated, hs.sockets, hs.distinct, hs.opened, hs.roots, fun j hj => ?_, hs.entries,
      hs.keys, fun x n hx hn => ?_⟩
    · obtain ⟨e, he, rfl⟩ := List.mem_map.mp ha.2.2.1
      cases hj
      exact (hs.entries e he).1
    · obtain ⟨j, hj, _⟩ := hs.here x n hx hn
      rw [ha.2.1] at hj
      exact nomatch hj
  | conclude i shown => exact hs.conclude i shown ha
  | verdict i =>
    exact hs.frame seated hg rfl rfl rfl rfl rfl (.refl _)
      (hs.here_of_sub hg rfl rfl (fun _ h => h) fun _ _ h => h)
  | drop name =>
    exact hs.frame seated hg rfl rfl rfl rfl rfl List.filter_sublist
      (hs.here_of_sub hg rfl rfl (fun _ h => h) fun _ _ h => h)
  | submit name l => exact hs.submit name l ha
  | split root p =>
    exact hs.frame seated hg rfl rfl rfl rfl rfl (.refl _)
      (hs.here_of_sub hg rfl rfl (fun _ h => h) fun _ _ h => h)
  | create k name => exact hs.create k name ha
  | enlist x => exact hs.enlist x ha
  | delist x => exact hs.delist List.filter_sublist
  | shut x => exact hs.delist List.filter_sublist

theorem path (hs : Consistent s) {G : Act → State → Prop}
    (hG : ∀ a u, G a u → a.Allowed hindered u) (h : Path G s t) : Consistent t :=
  h.invariant (fun _ _ hq hu => hu.quiet hq) (fun a u ha hu => hu.act a (hG a u ha)) hs

end Consistent

end Smts.Server
