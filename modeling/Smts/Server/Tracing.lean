import Smts.Lib.Traced
import Smts.Server.Guards

namespace Smts.Server

open Smts.Lib Smts.Lib.Prog

/-- The program runs through actions that `G` allows, and it runs out of fuel only
if `out` holds. -/
abbrev Runs {α : Type} (G : Act → State → Prop) (out : Prop) (m : M α) (Q : α → State → Prop)
    (s : State) : Prop :=
  Traced (Acts G) (fun e => e = .noFuel → out) m Q s

namespace Runs

variable {α : Type} {G G' : Act → State → Prop} {out : Prop} {s t : State} {Q : α → State → Prop}

theorem raise {e : Exn} (he : e ≠ .noFuel) : Runs G out (Prog.raise e : M α) Q s :=
  Traced.raise fun h => absurd h he

theorem imp {m : M α} (h : Runs G out m Q s) (hG : ∀ a u, G a u → G' a u) : Runs G' out m Q s :=
  Traced.imp h (fun _ _ ⟨a, ha, hq⟩ => ⟨a, hG a _ ha, hq⟩) fun _ he => he

theorem still {m : M α} (hG : G .quiet s) (h : Still m) :
    Runs G out m (fun _ t => Quiet s t) s :=
  h.wp (fun _ _ ht => ⟨Path.quiet hG ht, ht⟩)
    fun _ _ ht he => ⟨Path.quiet hG ht, fun h => absurd h he⟩

theorem quietly {m : M α} (hG : G .quiet s) (h : Still m) : Runs G out m (fun _ _ => True) s :=
  (still hG h).mono fun _ _ _ _ => trivial

/-- A change that is an action. -/
theorem act {f : State → State} {Q : Unit → State → Prop} (a : Act) (hG : G a s)
    (hq : Quiet (a.apply s) (f s)) (h : Q () (f s)) : Runs G out (Prog.modify f) Q s :=
  Traced.modify ⟨a, hG, hq⟩ h

end Runs

section Solvers

variable {s t : State} {w : Which}

theorem Quiet.connected (h : Quiet s t) (x : SockId) : t.Connected x ↔ s.Connected x := by
  rw [State.Connected, State.Connected, h.rlist, h.kind]

theorem wp_inOrder {xs : List SockId} {Q : List SockId → State → Prop} {E : Exn → State → Prop}
    (h : ∀ l t, Quiet s t → l.Perm xs → Q l t) : wp (inOrder xs) Q E s :=
  h _ _ (Still.inOrder xs s) (s.world.env.order_perm _ _)

/-- The solvers in the order of a set. -/
theorem runs_solvers {G : Act → State → Prop} {out : Prop} (hG : G .quiet s) :
    Runs G out (solvers w) (fun l t => Quiet s t ∧ l.Perm (s.solvers w)) s :=
  Traced.get (wp_inOrder fun _ _ ht hl => ⟨Path.quiet hG ht, ht, hl⟩)

theorem runs_inOrder {G : Act → State → Prop} {out : Prop} {xs : List SockId} (hG : G .quiet s) :
    Runs G out (inOrder xs) (fun l t => Quiet s t ∧ l.Perm xs) s :=
  wp_inOrder fun _ _ ht hl => ⟨Path.quiet hG ht, ht, hl⟩

/-- The solvers of a node. -/
theorem runs_solversAt {G : Act → State → Prop} {out : Prop} {n : NodeId} (hG : G .quiet s) :
    Runs G out (solvers (.at (some n))) (fun l t => Quiet s t ∧
      ∀ x ∈ l, t.Connected x ∧ (t.solver x).node = some n) s := by
  refine (runs_solvers hG).mono fun l t _ ⟨hq, hl⟩ => ⟨hq, fun x hx => ?_⟩
  obtain ⟨hc, hw⟩ := State.mem_solvers.mp (hl.mem_iff.mp hx)
  exact ⟨(hq.connected x).mpr hc, (hq.node x).trans (by simpa [Which.holds] using hw)⟩

end Solvers

/-- The actions of a pass over the nodes: nobody comes or goes, and no status or
tree changes. -/
def Act.Calm : Act → Prop
  | .quiet | .solve .. | .move .. | .process _ | .idleAdd _ | .idleDrop _ | .idleSort _ => True
  | _ => False

def Act.Inside (hindered : Prop) (a : Act) (s : State) : Prop := a.Allowed hindered s ∧ a.Calm

/-- What stays the same in a pass over the nodes. -/
structure Fixed (s t : State) : Prop where
  rlist : t.rlist = s.rlist
  kind : t.kind = s.kind
  current : t.current = s.current
  root : ∀ i, t.root i = s.root i
  forest : t.heap.toForest = s.heap.toForest
  label : t.heap.label = s.heap.label
  status : ∀ n, t.heap.status n = s.heap.status n
  partitioning : ∀ n, (t.heap.attrs n).partitioning = (s.heap.attrs n).partitioning
  portfolioMin : t.config.portfolioMin = s.config.portfolioMin

namespace Fixed

variable {s t u : State} {hindered : Prop}

theorem refl (s : State) : Fixed s s :=
  ⟨rfl, rfl, rfl, fun _ => rfl, rfl, rfl, fun _ => rfl, fun _ => rfl, rfl⟩

theorem trans (st : Fixed s t) (tu : Fixed t u) : Fixed s u where
  rlist := tu.rlist.trans st.rlist
  kind := tu.kind.trans st.kind
  current := tu.current.trans st.current
  root i := (tu.root i).trans (st.root i)
  forest := tu.forest.trans st.forest
  label := tu.label.trans st.label
  status n := (tu.status n).trans (st.status n)
  partitioning n := (tu.partitioning n).trans (st.partitioning n)
  portfolioMin := tu.portfolioMin.trans st.portfolioMin

theorem quiet (h : Quiet s t) : Fixed s t where
  rlist := h.rlist
  kind := h.kind
  current := h.current
  root := h.root
  forest := h.heap.forest
  label := h.heap.label
  status := h.heap.status
  partitioning := h.heap.partitioning
  portfolioMin := h.portfolioMin

theorem act (a : Act) (s : State) (ha : a.Calm) : Fixed s (a.apply s) := by
  cases a with
  | process n =>
    refine ⟨rfl, rfl, rfl, fun _ => rfl, rfl, rfl, fun m => ?_, fun m => ?_, rfl⟩
    · simp only [Act.apply, Heap.modify_status]
      split
      · next h => rw [h]; rfl
      · rfl
    · simp only [Act.apply, Heap.modify_attrs]
      split
      · next h => rw [h]
      · rfl
  | quiet => exact refl s
  | solve | move | idleAdd | idleDrop | idleSort =>
    exact ⟨rfl, rfl, rfl, fun _ => rfl, rfl, rfl, fun _ => rfl, fun _ => rfl, rfl⟩
  | _ => exact ha.elim

theorem path (h : Path (Act.Inside hindered) s t) : Fixed s t :=
  h.invariant (I := Fixed s) (fun _ _ hq hf => hf.trans (quiet hq))
    (fun a u ha hf => hf.trans (act a u ha.2)) (refl s)

theorem connected (h : Fixed s t) (x : SockId) : t.Connected x ↔ s.Connected x := by
  rw [State.Connected, State.Connected, h.rlist, h.kind]

theorem isAnd (h : Fixed s t) (n : NodeId) : t.heap.isAnd n = s.heap.isAnd n :=
  Heap.isAnd_congr h.label

theorem listed (h : Fixed s t) {n : NodeId} : t.heap.Listed n ↔ s.heap.Listed n := by
  rw [Heap.Listed, Heap.Listed, h.forest, h.isAnd]

end Fixed

/-- An instance is being solved. -/
structure Solving (i : InstId) (s : State) : Prop where
  consistent : Consistent s
  current : s.current = some i

namespace Solving

variable {i : InstId} {s t : State} {hindered : Prop}

theorem path (h : Solving i s) (hp : Path (Act.Inside hindered) s t) : Solving i t where
  consistent := h.consistent.path (fun _ _ ha => ha.1) hp
  current := (Fixed.path hp).current.trans h.current

theorem lt (h : Solving i s) : i < s.nextInst := h.consistent.current i h.current

theorem root (h : Solving i s) : s.heap.Listed (s.root i) := (h.consistent.opened i h.lt).1

theorem root_root (h : Solving i s) : s.heap.root (s.root i) = s.root i :=
  h.consistent.root_root h.lt

/-- Connected solvers are on the tree of the current instance. -/
theorem here (h : Solving i s) {x : SockId} {n : NodeId} (hx : s.Connected x ∨ x ∈ s.idleSolvers)
    (hn : (s.solver x).node = some n) : s.heap.root n = s.root i := by
  obtain ⟨j, hj, hr⟩ := h.consistent.here x n hx hn
  rw [h.current, Option.some.injEq] at hj
  rw [hr, hj]

end Solving

end Smts.Server
