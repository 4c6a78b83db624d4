import Smts.Server.SolverLaws
import Smts.Server.TreeLaws

namespace Smts.Server

open Smts.Lib

/-- An AND node that belongs to its tree. -/
def Heap.Listed (h : Heap) (n : NodeId) : Prop :=
  n < h.size ∧ h.isAnd n = true ∧ h.Attached n

instance (h : Heap) (n : NodeId) : Decidable (h.Listed n) :=
  inferInstanceAs (Decidable (_ ∧ _ ∧ _))

theorem Heap.Grows.listed {h g : Heap} {n : NodeId} (hg : h.Grows g) (hn : h.Listed n) :
    g.Listed n :=
  ⟨Nat.lt_of_lt_of_le hn.1 hg.size, (hg.isAnd hn.1).trans hn.2.1, hg.attached hn.1 hn.2.2⟩

/-- What holds wherever the methods of `Solver` are called. -/
def Act.Enabled : Act → State → Prop
  | .solve x n m, s => (s.solver x).node = none ∧ s.heap.Listed n ∧
      ∀ m' ∈ m, Solver.SolveMessage s x n m'
  | .move x n m, s => s.heap.Listed n ∧
      ∃ a, (s.solver x).node = some a ∧ Solver.MoveMessage s x a n m
  | .ask x n, s => (s.solver x).node = some n
  | .report x n _, s => (s.solver x).node = some n
  | .reply x o _, s => (s.solver x).orWaiting.getLast? = some o
  | .submit _ l, _ => l.cls ≠ .orNode
  | .split root _, s => root < s.heap.size ∧ s.heap.isAnd root = true ∧
      s.heap.parent root = none ∧ s.heap.children root = []
  | _, _ => True

/-- Solvers are on AND nodes of the trees, and the OR nodes they wait for are
empty children of these nodes, each awaited once. -/
structure Seated (s : State) : Prop where
  placed : ∀ x n, (s.solver x).node = some n → s.heap.Listed n
  waiting : ∀ x o, o ∈ (s.solver x).orWaiting →
    ∃ n, (s.solver x).node = some n ∧ o ∈ s.heap.children n ∧ s.heap.children o = []
  once : ∀ x, (s.solver x).orWaiting.Nodup
  apart : ∀ x y o, o ∈ (s.solver x).orWaiting → o ∈ (s.solver y).orWaiting → x = y

section Split

variable {h : Heap} {root : Nat} {p : HornScript}

/-- The tree of a Horn script gets one OR node below its root. -/
theorem split_filled (hr : root < h.size) (ha : h.isAnd root = true) :
    ∃ g, h.Grows g ∧ g.size = h.size + 1 ∧ g.isOr h.size = true ∧
      g.children = Function.update h.children root (h.children root ++ [h.size]) ∧
      g.attrs = Function.update h.attrs h.size {} ∧
      g.Filled h.size (p.queries.map fun q => "(query " ++ q ++ ")")
        (fixedpointPartition p root h).2 := by
  have hc : (h.label root).cls ≠ .orNode := by simpa [Heap.isAnd, Heap.isOr] using ha
  have hl : NodeClass.orNode = .orNode ↔ (h.label root).cls ≠ .orNode := by simp [hc]
  refine ⟨(h.addChild root { cls := .orNode, smt := p.rewritten } hr hl).2,
    Heap.addChild_grows hr hl, rfl, ?_, rfl, rfl, ?_⟩
  · simp [Heap.isOr, Heap.addChild]
  · have hs : (fixedpointPartition p root h) =
        (h.addChild root { cls := .orNode, smt := p.rewritten } hr hl).2.addAnds h.size
          (p.queries.map fun q => "(query " ++ q ++ ")") := by
      simp only [fixedpointPartition, Heap.newOr, hr, hc, ne_eq, not_false_eq_true, and_self,
        dite_true]
      rfl
    rw [hs]
    exact (Heap.addAnds_filled (Nat.lt_succ_self h.size)
      (by simp [Heap.isOr, Heap.addChild]) _).2

theorem split_grows (hr : root < h.size) (ha : h.isAnd root = true) :
    h.Grows (fixedpointPartition p root h).2 := by
  obtain ⟨g, hg, _, _, _, _, hf⟩ := split_filled (p := p) hr ha
  exact hg.trans hf.grows

end Split

namespace Seated

variable {s t : State}

theorem quiet (h : Quiet s t) (hs : Seated s) : Seated t where
  placed x n hn := by
    rw [h.node] at hn
    have := hs.placed x n hn
    rw [Heap.Listed, h.heap.forest, Heap.isAnd_congr h.heap.label]
    exact this
  waiting x o ho := by
    rw [h.orWaiting] at ho
    rw [h.node, h.heap.forest]
    exact hs.waiting x o ho
  once x := by rw [h.orWaiting]; exact hs.once x
  apart x y o := by rw [h.orWaiting, h.orWaiting]; exact hs.apart x y o

theorem getLast_lt {x : SockId} {o : NodeId} (hs : Seated s)
    (ho : (s.solver x).orWaiting.getLast? = some o) :
    o < s.heap.size ∧ s.heap.isOr o = true ∧ s.heap.children o = [] ∧
      ∃ n, (s.solver x).node = some n ∧ o ∈ s.heap.children n := by
  obtain ⟨n, hn, hc, he⟩ := hs.waiting x o (List.mem_of_getLast? ho)
  refine ⟨Forest.mem_lt_size hc, ?_, he, n, hn, hc⟩
  rw [Heap.isOr_of_parent (s.heap.parent_of_mem hc)]
  exact (hs.placed x n hn).2.1

/-- Every action only adds to the trees. -/
theorem grows (hs : Seated s) (a : Act) (ha : a.Enabled s) : s.heap.Grows (a.apply s).heap := by
  cases a with
  | ask x n => exact Heap.ask_grows (hs.placed x n ha).1 (hs.placed x n ha).2.1
  | report x n status => exact (Heap.sameTree_report s.heap n status).grows
  | reply x o partitions =>
    obtain ⟨hlt, hor, he, _⟩ := hs.getLast_lt ha
    exact Heap.reply_grows hlt hor he partitions
  | process n => exact Heap.Grows.of_eq rfl rfl
  | submit name l => exact Heap.addRoot_grows l
  | split root p => exact split_grows ha.1 ha.2.1
  | _ => exact Heap.Grows.refl _

/-- One solver changes, and no awaited OR node is filled. -/
theorem update {x : SockId} {d : SolverData} (hs : Seated s) (hg : s.heap.Grows t.heap)
    (solver : t.solver = Function.update s.solver x d)
    (placed : ∀ n, d.node = some n → t.heap.Listed n)
    (waiting : ∀ o, o ∈ d.orWaiting →
      ∃ n, d.node = some n ∧ o ∈ t.heap.children n ∧ t.heap.children o = [])
    (once : d.orWaiting.Nodup)
    (apart : ∀ y o, y ≠ x → o ∈ d.orWaiting → o ∉ (s.solver y).orWaiting)
    (empty : ∀ y o, y ≠ x → o ∈ (s.solver y).orWaiting → t.heap.children o = []) : Seated t where
  placed y n hn := by
    rw [solver] at hn
    by_cases hy : y = x
    · subst hy
      rw [Function.update_self] at hn
      exact placed n hn
    · rw [Function.update_of_ne hy] at hn
      exact hg.listed (hs.placed y n hn)
  waiting y o ho := by
    rw [solver] at ho ⊢
    by_cases hy : y = x
    · subst hy
      rw [Function.update_self] at ho ⊢
      exact waiting o ho
    · rw [Function.update_of_ne hy] at ho ⊢
      obtain ⟨n, hn, hc, _⟩ := hs.waiting y o ho
      exact ⟨n, hn, (hg.children n).subset hc, empty y o hy ho⟩
  once y := by
    rw [solver]
    by_cases hy : y = x
    · rw [hy, Function.update_self]
      exact once
    · rw [Function.update_of_ne hy]
      exact hs.once y
  apart y z o hy hz := by
    rw [solver] at hy hz
    by_cases hyx : y = x
    · by_cases hzx : z = x
      · rw [hyx, hzx]
      · rw [hyx, Function.update_self] at hy
        rw [Function.update_of_ne hzx] at hz
        exact absurd hz (apart z o hzx hy)
    · rw [Function.update_of_ne hyx] at hy
      by_cases hzx : z = x
      · rw [hzx, Function.update_self] at hz
        exact absurd hy (apart y o hyx hz)
      · rw [Function.update_of_ne hzx] at hz
        exact hs.apart y z o hy hz

/-- A solver leaves its requests behind. -/
theorem vacate {x : SockId} {d : SolverData} (hs : Seated s) (hg : s.heap.Grows t.heap)
    (solver : t.solver = Function.update s.solver x d)
    (placed : ∀ n, d.node = some n → t.heap.Listed n) (waiting : d.orWaiting = [])
    (empty : ∀ y o, o ∈ (s.solver y).orWaiting → t.heap.children o = []) : Seated t := by
  refine hs.update hg solver placed ?_ ?_ ?_ fun y o _ => empty y o
  · intro o ho
    rw [waiting] at ho
    exact absurd ho List.not_mem_nil
  · rw [waiting]
    exact List.nodup_nil
  · intro y o _ ho
    rw [waiting] at ho
    exact absurd ho List.not_mem_nil

/-- Trees grow elsewhere. -/
theorem grow (hs : Seated s) (hg : s.heap.Grows t.heap) (solver : t.solver = s.solver)
    (empty : ∀ y o, o ∈ (s.solver y).orWaiting → t.heap.children o = []) : Seated t where
  placed y n hn := by
    rw [solver] at hn
    exact hg.listed (hs.placed y n hn)
  waiting y o ho := by
    rw [solver] at ho ⊢
    obtain ⟨n, hn, hc, _⟩ := hs.waiting y o ho
    exact ⟨n, hn, (hg.children n).subset hc, empty y o ho⟩
  once y := by rw [solver]; exact hs.once y
  apart y z o := by rw [solver]; exact hs.apart y z o

theorem empty (hs : Seated s) (y : SockId) (o : NodeId) (ho : o ∈ (s.solver y).orWaiting) :
    s.heap.children o = [] := by
  obtain ⟨n, _, _, he⟩ := hs.waiting y o ho
  exact he

theorem orWaiting_of_none {x : SockId} (hs : Seated s) (hn : (s.solver x).node = none) :
    (s.solver x).orWaiting = [] := by
  refine List.eq_nil_iff_forall_not_mem.mpr fun o ho => ?_
  obtain ⟨n, hn', _⟩ := hs.waiting x o ho
  rw [hn] at hn'
  exact nomatch hn'

theorem ask {x : SockId} {n : NodeId} (hs : Seated s) (hn : (s.solver x).node = some n) :
    Seated ((Act.ask x n).apply s) := by
  obtain ⟨hlt, hand, hatt⟩ := hs.placed x n hn
  have hg := Heap.ask_grows hlt hand
  have hchildren : (s.heap.ask n).children =
      Function.update s.heap.children n (s.heap.children n ++ [s.heap.size]) := by
    rw [Heap.ask_forest hlt hand]
    rfl
  have hfresh : ∀ y o, o ∈ (s.solver y).orWaiting → o < s.heap.size := by
    intro y o ho
    obtain ⟨m, _, hc, _⟩ := hs.waiting y o ho
    exact Forest.mem_lt_size hc
  have hempty : ∀ y o, o ∈ (s.solver y).orWaiting → (s.heap.ask n).children o = [] := by
    intro y o ho
    obtain ⟨m, hm, hc, he⟩ := hs.waiting y o ho
    rw [hchildren, Function.update_of_ne, he]
    rintro rfl
    have hor := Heap.isAnd_of_parent (s.heap.parent_of_mem hc)
    rw [hand, Heap.isAnd_iff.mp (hs.placed y m hm).2.1] at hor
    exact nomatch hor
  refine hs.update (x := x) hg rfl ?_ ?_ ?_ ?_ fun y o _ => hempty y o
  · intro m hm
    exact hg.listed (hs.placed x m hm)
  · intro o ho
    refine ⟨n, hn, ?_⟩
    rcases List.mem_append.mp ho with ho | ho
    · obtain ⟨m, hm, hc, _⟩ := hs.waiting x o ho
      rw [hn, Option.some.injEq] at hm
      exact ⟨(hg.children n).subset (hm ▸ hc), hempty x o ho⟩
    · rw [List.mem_singleton] at ho
      subst ho
      show s.heap.size ∈ (s.heap.ask n).children n ∧ (s.heap.ask n).children s.heap.size = []
      rw [hchildren, Function.update_self, Function.update_of_ne (Nat.ne_of_gt hlt)]
      exact ⟨List.mem_append_right _ (List.mem_singleton_self _),
        Forest.children_of_size_le (Nat.le_refl _)⟩
  · refine (hs.once x).append (List.nodup_singleton _) fun o ho hs' => ?_
    rw [List.mem_singleton] at hs'
    exact Nat.lt_irrefl _ (hs' ▸ hfresh x o ho)
  · intro y o hy ho hy'
    rcases List.mem_append.mp ho with ho | ho
    · exact hy (hs.apart y x o hy' ho)
    · rw [List.mem_singleton] at ho
      exact Nat.lt_irrefl _ (ho ▸ hfresh y o hy')

theorem reply {x : SockId} {o : NodeId} (hs : Seated s) (partitions : Option (List String))
    (ho : (s.solver x).orWaiting.getLast? = some o) :
    Seated ((Act.reply x o partitions).apply s) := by
  obtain ⟨hlt, hor, he, n, hn, hc⟩ := hs.getLast_lt ho
  have hg := Heap.reply_grows hlt hor he partitions
  have hsplit : (s.solver x).orWaiting = (s.solver x).orWaiting.dropLast ++ [o] := by
    obtain ⟨l, hl⟩ := List.getLast?_eq_some_iff.mp ho
    rw [hl, List.dropLast_concat]
  have honce := hs.once x
  rw [hsplit, List.nodup_append] at honce
  have hne : ∀ o', o' ∈ (s.solver x).orWaiting.dropLast → o' ≠ o := by
    intro o' ho' heq
    exact honce.2.2 o' ho' o (List.mem_singleton_self o) heq
  refine hs.update (x := x) hg rfl ?_ ?_ honce.1 ?_ ?_
  · intro m hm
    exact hg.listed (hs.placed x m hm)
  · intro o' ho'
    obtain ⟨m, hm, hc', he'⟩ := hs.waiting x o' ((List.dropLast_sublist _).subset ho')
    refine ⟨m, hm, (hg.children m).subset hc', ?_⟩
    exact (Heap.reply_others hlt hor partitions (hne o' ho')).trans he'
  · intro y o' hy ho' hy'
    exact hy (hs.apart y x o' hy' ((List.dropLast_sublist _).subset ho'))
  · intro y o' hy ho'
    refine (Heap.reply_others hlt hor partitions ?_).trans (hs.empty y o' ho')
    rintro rfl
    exact hy (hs.apart y x o' ho' (List.mem_of_getLast? ho))

theorem report {x : SockId} {n : NodeId} (hs : Seated s) (status : SolveStatus) :
    Seated ((Act.report x n status).apply s) := by
  have hsame := Heap.sameTree_report s.heap n status
  have hempty : ∀ y o, o ∈ (s.solver y).orWaiting → (s.heap.report n status).children o = [] := by
    intro y o ho
    rw [hsame.forest]
    exact hs.empty y o ho
  refine hs.update (x := x) hsame.grows rfl ?_ ?_ ?_ ?_ fun y o _ => hempty y o
  · intro m hm
    exact hsame.grows.listed (hs.placed x m hm)
  · intro o ho
    obtain ⟨m, hm, hc, _⟩ := hs.waiting x o ((List.dropLast_sublist _).subset ho)
    exact ⟨m, hm, (hsame.grows.children m).subset hc, hempty x o ((List.dropLast_sublist _).subset ho)⟩
  · exact (hs.once x).sublist (List.dropLast_sublist _)
  · intro y o hy ho hy'
    exact hy (hs.apart y x o hy' ((List.dropLast_sublist _).subset ho))

theorem conclude (hs : Seated s) (i : InstId) (shown : Bool) :
    Seated ((Act.conclude i shown).apply s) := by
  have keep : ∀ x, ((Act.conclude i shown).apply s).solver x = s.solver x ∨
      ((Act.conclude i shown).apply s).solver x = Solver.reset (s.solver x) := by
    intro x
    simp only [Act.apply, State.conclude]
    split
    · exact Or.inr rfl
    · exact Or.inl rfl
  have mem : ∀ x o, o ∈ (((Act.conclude i shown).apply s).solver x).orWaiting →
      ((Act.conclude i shown).apply s).solver x = s.solver x := by
    intro x o ho
    rcases keep x with hx | hx
    · exact hx
    · rw [hx] at ho
      exact absurd ho List.not_mem_nil
  refine ⟨fun x n hn => ?_, fun x o ho => ?_, fun x => ?_, fun x y o hx hy => ?_⟩
  · rcases keep x with hx | hx
    · rw [hx] at hn
      exact hs.placed x n hn
    · rw [hx] at hn
      cases hn
  · have hx := mem x o ho
    rw [hx] at ho ⊢
    exact hs.waiting x o ho
  · rcases keep x with hx | hx
    · rw [hx]
      exact hs.once x
    · rw [hx]
      exact List.nodup_nil
  · rw [mem x o hx] at hx
    rw [mem y o hy] at hy
    exact hs.apart x y o hx hy

theorem split {root : NodeId} (hs : Seated s) (p : HornScript)
    (ha : (Act.split root p).Enabled s) : Seated ((Act.split root p).apply s) := by
  obtain ⟨hlt, hand, hpar, _⟩ := ha
  refine hs.grow (split_grows hlt hand) rfl fun y o ho => ?_
  obtain ⟨n, hn, hc, he⟩ := hs.waiting y o ho
  obtain ⟨g, _, _, _, hch, _, hf⟩ := split_filled (p := p) hlt hand
  have hne : o ≠ s.heap.size := Nat.ne_of_lt (Forest.mem_lt_size hc)
  have hroot : o ≠ root := by
    rintro rfl
    rw [s.heap.parent_of_mem hc] at hpar
    exact nomatch hpar
  exact (hf.others o hne).trans (by rw [hch, Function.update_of_ne hroot, he])

/-- The seats are in order after every action. -/
theorem act (hs : Seated s) (a : Act) (ha : a.Enabled s) : Seated (a.apply s) := by
  have hempty := hs.empty
  cases a with
  | solve x n m =>
    refine hs.vacate (x := x) (.refl _) rfl ?_ (hs.orWaiting_of_none ha.1) hempty
    intro m hm
    cases hm
    exact ha.2.1
  | move x n m =>
    refine hs.vacate (x := x) (.refl _) rfl ?_ rfl hempty
    intro m hm
    cases hm
    exact ha.1
  | leave x => exact hs.vacate (x := x) (.refl _) rfl (fun n hn => nomatch hn) rfl hempty
  | ask x n => exact hs.ask ha
  | report x n status => exact hs.report status
  | reply x o partitions => exact hs.reply partitions ha
  | process n => exact hs.grow (Heap.Grows.of_eq rfl rfl) rfl hempty
  | conclude i shown => exact hs.conclude i shown
  | submit name l => exact hs.grow (Heap.addRoot_grows l) rfl hempty
  | split root p => exact hs.split p ha
  | create k name =>
    by_cases hk : k = .solver
    · exact hs.vacate (x := s.nextSock) (t := s.create k name) (d := { name := name }) (.refl _)
        (by simp [State.create, hk]) (fun n hn => nomatch hn) rfl hempty
    · exact hs.grow (t := s.create k name) (.refl _) (by simp [State.create, hk]) hempty
  | _ => exact hs.grow (.refl _) rfl hempty

end Seated

end Smts.Server
