import Smts.Server.Passing

namespace Smts.Server

open Smts.Lib Smts.Lib.Prog

variable {hindered out : Prop} {idle : List SockId} {i : InstId} {s t : State}

/-- A node that comes with a message is one of the current tree. -/
def PNode.Here (i : InstId) (s : State) (p : PNode) : Prop :=
  ∀ n, p = .node n → s.heap.Reaches (s.root i) n ∧ s.heap.isAnd n = true

theorem PNode.Here.fixed {p : PNode} (h : p.Here i s) (hf : Fixed s t) : p.Here i t := by
  intro n hn
  rw [hf.root, hf.forest, hf.isAnd]
  exact h n hn

theorem Heap.childeren_congr {h g : Heap} (forest : g.toForest = h.toForest)
    (status : ∀ n, g.status n = h.status n) (n : NodeId) : g.childeren n = h.childeren n := by
  rw [Heap.childeren, Heap.childeren, forest]
  simp only [status]

theorem PNode.childeren_congr {h g : Heap} (forest : g.toForest = h.toForest)
    (status : ∀ n, g.status n = h.status n) (p : PNode) : p.childeren g = p.childeren h := by
  cases p with
  | node n => exact Heap.childeren_congr forest status n
  | text => rfl

theorem PNode.childeren_error {h : Heap} {p : PNode} {e : Exn} (he : p.childeren h = .error e) :
    e ≠ .noFuel := by
  cases p with
  | node n => exact Heap.childeren_error he
  | text =>
    cases he
    decide

section Spare

variable {portfolioMin counter : Int} {idle xs : List SockId}

theorem mem_of_mem_spare {x : SockId} (hx : x ∈ spare portfolioMin idle counter xs) : x ∈ xs := by
  induction xs generalizing counter with
  | nil => exact hx
  | cons y ys ih =>
    rw [spare] at hx
    split at hx
    · exact (List.mem_cons.mp hx).elim (fun h => h ▸ List.mem_cons_self)
        fun h => List.mem_cons_of_mem _ (ih h)
    · exact List.mem_cons_of_mem _ (ih hx)

theorem length_spare_le : (spare portfolioMin idle counter xs).length ≤ xs.length := by
  induction xs generalizing counter with
  | nil => exact Nat.le_refl _
  | cons y ys ih =>
    rw [spare]
    split
    · exact Nat.succ_le_succ ih
    · exact Nat.le_succ_of_le ih

theorem spare_eq_nil (h : ¬ (0 ≤ portfolioMin ∧ portfolioMin < counter)) :
    spare portfolioMin idle counter xs = [] := by
  induction xs with
  | nil => rfl
  | cons y ys ih => rw [spare, if_neg fun hc => h ⟨hc.1, hc.2.1⟩, ih]

end Spare

/-- Whether there may be movable solvers at all. -/
def State.Spares (s : State) : Prop :=
  s.config.portfolioMin = 0 ∨
    0 ≤ s.config.portfolioMin ∧ s.config.portfolioMin < (s.solvers .all).length

/-- How many movable solvers there can be. -/
def State.movableBound (s : State) : PNode → Nat
  | .node n => s.rlist.length * (s.heap.pathToNode n).length + s.rlist.length
  | .text => s.rlist.length

theorem State.length_solvers_le (s : State) (w : Which) : (s.solvers w).length ≤ s.rlist.length :=
  List.length_filter_le _ _

theorem State.length_solvers_le_all (s : State) (w : Which) :
    (s.solvers w).length ≤ (s.solvers .all).length := by
  refine (List.monotone_filter_right _ fun x hx => ?_).length_le
  simp only [Bool.and_eq_true, Which.holds] at hx ⊢
  exact ⟨hx.1, trivial⟩

theorem Quiet.solvers (h : Quiet s t) (w : Which) : t.solvers w = s.solvers w := by
  have holds : ∀ x, w.holds (t.solver x) = w.holds (s.solver x) := by
    intro x
    cases w with
    | all => rfl
    | busy => simp only [Which.holds, h.node]
    | «at» n => simp only [Which.holds, h.node]
  simp only [State.solvers, h.rlist, h.kind, holds]

theorem runs_movableSolvers {p : PNode} :
    Runs (Act.Inside hindered) out (movableSolvers p) (fun l _ => (∀ x ∈ l, s.Connected x) ∧
      l.length ≤ s.movableBound p ∧ (l ≠ [] → s.Spares)) s := by
  refine Traced.get (Traced.ite (fun hmin => ?_) fun hmin => ?_)
  · cases p with
    | text => exact Runs.raise (by decide)
    | node n =>
      have start : Quiet s s ∧ (∀ x ∈ ([] : List SockId), s.Connected x) ∧
          ([] : List SockId).length + s.rlist.length * (s.heap.pathToNode n).length ≤
            s.rlist.length * (s.heap.pathToNode n).length ∧
          (([] : List SockId) ≠ [] → s.Spares) :=
        ⟨.refl s, fun _ hx => absurd hx List.not_mem_nil, Nat.le_of_eq (Nat.zero_add _),
          fun h => absurd rfl h⟩
      refine Traced.mono (Traced.foldEach (I := fun acc ms t => Quiet s t ∧
        (∀ x ∈ acc, s.Connected x) ∧ acc.length + s.rlist.length * ms.length ≤
          s.rlist.length * (s.heap.pathToNode n).length ∧ (acc ≠ [] → s.Spares)) ?_ start)
        fun l t _ hl => ⟨hl.2.1, Nat.le_trans hl.2.2.1 (Nat.le_add_right _ _), hl.2.2.2⟩
      intro acc m ms t _ ⟨hq, hacc, hlen, hsp⟩
      refine Traced.bind (runs_solvers inside_quiet) fun xs u _ ⟨hqu, hxs⟩ => ?_
      refine Traced.get (Traced.pure ?_)
      have hlenx : xs.length ≤ s.rlist.length := by
        rw [hxs.length_eq, hq.solvers]
        exact s.length_solvers_le _
      refine ⟨hq.trans hqu, fun x hx => ?_, ?_, fun hne => ?_⟩
      · rcases List.mem_append.mp hx with hx | hx
        · exact hacc x hx
        · have hx := hxs.mem_iff.mp (mem_of_mem_spare hx)
          rw [hq.solvers] at hx
          exact (State.mem_solvers.mp hx).1
      · have hsl : (spare u.config.portfolioMin u.idleSolvers xs.length xs).length ≤ xs.length :=
          length_spare_le
        rw [List.length_append]
        rw [List.length_cons, Nat.mul_succ] at hlen
        omega
      · by_cases hc : 0 ≤ u.config.portfolioMin ∧ u.config.portfolioMin < xs.length
        · refine .inr ?_
          rw [(hq.trans hqu).portfolioMin] at hc
          refine ⟨hc.1, Int.lt_of_lt_of_le hc.2 ?_⟩
          rw [hxs.length_eq, hq.solvers]
          exact Int.ofNat_le.mpr (s.length_solvers_le_all _)
        · rw [spare_eq_nil hc, List.append_nil] at hne
          exact hsp hne
  · refine (runs_solvers inside_quiet).mono fun l t _ ⟨_, hl⟩ => ⟨fun x hx => ?_, ?_, fun _ => ?_⟩
    · exact (State.mem_solvers.mp (hl.mem_iff.mp hx)).1
    · rw [hl.length_eq]
      refine Nat.le_trans (s.length_solvers_le _) ?_
      cases p with
      | node n => exact Nat.le_add_left _ _
      | text => exact Nat.le_refl _
    · exact .inl (not_not.mp hmin)

/-- A round moves somebody if there is a new partition. -/
theorem runs_spreadRound (hs : Solving i s) {p : PNode} (hp : p.Here i s) {l : List SockId}
    (hl : ∀ x ∈ l, s.Connected x) :
    Runs (Act.Inside hindered) out (spreadRound p l) (fun r _ => (∀ x ∈ r, x ∈ l) ∧
      (l ≠ [] → p.childeren s.heap ≠ .ok [] → r.length < l.length)) s := by
  refine Traced.get ?_
  refine Traced.bind (Q := fun childs t => t = s ∧ p.childeren s.heap = .ok childs)
    (Traced.ofExcept (fun e he hf => absurd hf (PNode.childeren_error he)) fun _ h => ⟨rfl, h⟩) ?_
  rintro childs t - ⟨rfl, hchilds⟩
  have hc : ∀ c ∈ childs, t.heap.Reaches (t.root i) c ∧ t.heap.isAnd c = true := by
    cases p with
    | text => exact nomatch hchilds
    | node n =>
      obtain ⟨hn, hand⟩ := hp n rfl
      intro c hcc
      exact ⟨hn.trans (Heap.reaches_childeren hchilds hcc),
        (Heap.isAnd_childeren hchilds hcc).trans hand⟩
  have start : (∀ x ∈ l, x ∈ l) ∧ (∀ c ∈ childs, c ∈ childs) ∧
      (l ≠ [] → l.length < l.length ∨ l = l ∧ childs = childs) :=
    ⟨fun _ hx => hx, fun _ hc => hc, fun _ => .inr ⟨rfl, rfl⟩⟩
  refine Traced.mono (Traced.foldEach (I := fun r cs _ => (∀ x ∈ r, x ∈ l) ∧
    (∀ c ∈ cs, c ∈ childs) ∧ (l ≠ [] → r.length < l.length ∨ r = l ∧ cs = childs)) ?_ start)
    fun r u _ hr => ⟨hr.1, fun hne hchild => ?_⟩
  · intro r c cs u hu ⟨hsub, hcs, hlen⟩
    have hcs' : ∀ c' ∈ cs, c' ∈ childs := fun c' hc' => hcs c' (List.mem_cons_of_mem _ hc')
    cases r with
    | nil => exact Traced.pure ⟨hsub, hcs', fun hne => .inl (List.length_pos_iff.mpr hne)⟩
    | cons x rest =>
      have hf := Fixed.path hu
      obtain ⟨hreach, hand⟩ := hc c (hcs c List.mem_cons_self)
      have hx : u.Connected x := (hf.connected x).mpr (hl x (hsub x List.mem_cons_self))
      have hn : u.heap.Reaches (u.root i) c := by
        rw [hf.root, hf.forest]
        exact hreach
      refine Traced.seq ((runs_incremental (hs.path hu) hn ((hf.isAnd c).trans hand)
        fun a ha => (hs.path hu).here (.inl hx) ha).mono fun _ _ _ _ => trivial) fun _ v _ => ?_
      refine Traced.pure ⟨fun y hy => hsub y (List.mem_cons_of_mem _ hy), hcs', fun hne => .inl ?_⟩
      rcases hlen hne with hlt | ⟨rfl, _⟩
      · exact Nat.lt_trans (Nat.lt_succ_self _) hlt
      · exact Nat.lt_succ_self _
  · rcases hr.2.2 hne with hlt | ⟨_, hnil⟩
    · exact hlt
    · rw [hchilds, ← hnil] at hchild
      exact absurd rfl hchild

/-- The spreading ends if there is nobody to move or somewhere to move to. -/
theorem runs_spread (hs : Solving i s) {fuel : Nat} {p : PNode} (hp : p.Here i s)
    (live : out ∨ s.movableBound p ≤ fuel ∧ (s.Spares → p.childeren s.heap ≠ .ok [])) :
    Runs (Act.Inside hindered) out (spread fuel p) (fun _ _ => True) s := by
  refine Traced.bind runs_movableSolvers fun movable t ht ⟨hmov, hlen, hsp⟩ => ?_
  have hft := Fixed.path ht
  have round : ∀ l u, Path (Act.Inside hindered) t u → (∀ x ∈ l, s.Connected x) →
      Runs (Act.Inside hindered) out (spreadRound p l) (fun r _ => (∀ x ∈ r, s.Connected x) ∧
        (l ≠ [] → p.childeren s.heap ≠ .ok [] → r.length < l.length)) u := by
    intro l u hu hl
    have hf := hft.trans (Fixed.path hu)
    have hch := PNode.childeren_congr hf.forest hf.status p
    refine (runs_spreadRound (hs.path (ht.trans hu)) (hp.fixed hf)
      fun x hx => (hf.connected x).mpr (hl x hx)).mono fun r v _ hr =>
        ⟨fun x hx => hl x (hr.1 x hx), fun hne hchild => hr.2 hne (hch ▸ hchild)⟩
  cases movable with
  | nil => cases fuel <;> exact Traced.pure trivial
  | cons x rest =>
    refine Traced.mono (Traced.whileNonempty (I := fun l _ => ∀ x ∈ l, s.Connected x)
      (fun l u _ hu hl => (round l u hu hl).mono fun _ _ _ hr => hr.1) hmov ?_)
      fun _ _ _ _ => trivial
    rcases live with hout | ⟨hfuel, hchild⟩
    · exact .inl fun _ => hout
    · refine .inr ⟨Nat.le_trans hlen hfuel, fun l u hne hu hl => ?_⟩
      exact (round l u hu hl).mono fun _ _ _ hr =>
        hr.2 hne (hchild (hsp (List.cons_ne_nil _ _)))

theorem wp_pickIdle {leaf : NodeId} {l : List SockId} {Q : Option SockId → State → Prop}
    {E : Exn → State → Prop} (none : Q none s) (some : ∀ x ∈ l, Q (some x) s)
    (failed : ∀ e, e ≠ .noFuel → E e s) : wp (pickIdle leaf l) Q E s := by
  induction l with
  | nil => exact none
  | cons x xs ih =>
    rw [pickIdle, wp_bind, wp_get]
    cases (s.solver x).node with
    | none => exact failed _ (by decide)
    | some n =>
      simp only
      split
      · exact failed _ (by decide)
      · split
        · exact some x List.mem_cons_self
        · split
          · exact some x List.mem_cons_self
          · exact ih fun y hy => some y (List.mem_cons_of_mem _ hy)

theorem runs_reassignTo (hs : Solving i s) {leaf : NodeId}
    (hleaf : s.heap.Reaches (s.root i) leaf) :
    Runs (Act.Inside hindered) out (reassignTo leaf) (fun _ _ => True) s := by
  refine Traced.get (Traced.when (fun hc => ?_) fun _ => trivial)
  have hand : s.heap.isAnd leaf = true := by
    have hun := hc.1
    simp only [State.unAttempted, Bool.and_eq_true] at hun
    exact hun.1.2
  refine Traced.bind (Q := fun r t => t = s ∧ ∀ x, r = some x → x ∈ s.idleSolvers)
    (wp_pickIdle ⟨.refl, rfl, fun _ hx => nomatch hx⟩ (fun x hx => ⟨.refl, rfl, fun y hy => ?_⟩)
      fun e he => ⟨.refl, fun h => absurd h he⟩) ?_
  · cases hy
    exact hx
  rintro r t - ⟨rfl, hr⟩
  cases r with
  | none => exact Traced.pure trivial
  | some x =>
    refine Traced.bind (Q := fun _ u => u.solver = t.solver ∧ Fixed t u)
      (Runs.act (.idleDrop x) (Act.Calm.inside trivial ⟨trivial, trivial⟩) (Quiet.refl _)
        ⟨rfl, Fixed.act (.idleDrop x) t trivial⟩) fun _ u hu ⟨hsol, hf⟩ => ?_
    have hn : u.heap.Reaches (u.root i) leaf := by
      rw [hf.root, hf.forest]
      exact hleaf
    refine (runs_incremental (hs.path hu) hn ((hf.isAnd leaf).trans hand) fun a ha => ?_).mono
      fun _ _ _ _ => trivial
    rw [hsol] at ha
    rw [hf.root, hf.forest]
    exact hs.here (.inr (hr x rfl)) ha

theorem runs_sendIdle (hs : Solving i s) {target : NodeId}
    (ht : s.heap.Reaches (s.root i) target) (hand : s.heap.isAnd target = true) :
    Runs (Act.Inside hindered) out (sendIdle target) (fun _ _ => True) s := by
  refine Traced.get (Traced.ite (fun _ => Runs.raise (by decide)) fun _ => ?_)
  have hperm := List.filter_append_perm
    (fun x => (s.solver x).node.any fun n => samePrefix s.heap target n) s.idleSolvers
  refine Traced.bind (Q := fun _ u => u.solver = s.solver ∧ Fixed s u)
    (Runs.act (.idleSort _) (Act.Calm.inside trivial ⟨trivial, hperm⟩) (Quiet.refl _)
      ⟨rfl, Fixed.act (.idleSort _) s trivial⟩) fun _ u hu ⟨hsol, hf⟩ => ?_
  refine Traced.get ?_
  cases hidle : u.idleSolvers with
  | nil => exact Traced.pure trivial
  | cons x rest =>
    refine Traced.when (fun _ => ?_) fun _ => trivial
    have hn : u.heap.Reaches (u.root i) target := by
      rw [hf.root, hf.forest]
      exact ht
    have hx : x ∈ u.idleSolvers := hidle ▸ List.mem_cons_self
    refine Traced.seq ((runs_incremental (hs.path hu) hn ((hf.isAnd target).trans hand)
      fun a ha => (hs.path hu).here (.inr hx) ha).mono fun _ _ _ _ => trivial) fun _ v _ => ?_
    exact Runs.act (.idleDrop x) (Act.Calm.inside trivial ⟨trivial, trivial⟩) (Quiet.refl _) trivial

theorem runs_reassignAll (hs : Solving i s) {nodes : List NodeId}
    (hnodes : ∀ n ∈ nodes, s.heap.Reaches (s.root i) n) :
    Runs (Act.Inside hindered) out (forEach reassignTo nodes) (fun _ _ => True) s := by
  refine Traced.mono (Traced.forEach (I := fun ns _ =>
    ∀ n ∈ ns, s.heap.Reaches (s.root i) n) ?_ hnodes) fun _ _ _ _ => trivial
  intro n ns t ht hns
  have hf := Fixed.path ht
  have hn : t.heap.Reaches (t.root i) n := by
    rw [hf.root, hf.forest]
    exact hns n List.mem_cons_self
  exact (runs_reassignTo (hs.path ht) hn).mono
    fun _ _ _ _ m hm => hns m (List.mem_cons_of_mem _ hm)

theorem runs_reassign (hs : Solving i s) {nodes : List NodeId} {pass : Pass}
    (hnodes : ∀ n ∈ nodes, s.heap.Reaches (s.root i) n) (hpass : pass.Fits i s) :
    Runs (Act.Inside hindered) out (reassign nodes pass) (fun _ _ => True) s := by
  refine Traced.get (Traced.when (fun _ => ?_) fun _ => trivial)
  refine Traced.seq (runs_reassignAll hs hnodes) fun _ t ht => ?_
  refine Traced.get (Traced.seq (Traced.when (fun _ => Runs.raise (by decide))
    fun _ => trivial) fun _ u hu => ?_)
  have hfits := hpass.fixed (Fixed.path (ht.trans hu))
  cases htarget : pass.toPartition with
  | none => exact Traced.pure trivial
  | some target =>
    obtain ⟨hn, hand, _⟩ := hfits.target target htarget
    exact Traced.when (fun _ => runs_sendIdle (hs.path (ht.trans hu)) hn hand) fun _ => trivial

/-- The actions of `entrust`, when the idle solvers are `idle` at its beginning. -/
def Act.Inner (hindered : Prop) (idle : List SockId) : Act → State → Prop
  | .report .., _ | .reply .., _ | .submit .., _ | .split .., _ | .create .., _ | .enlist _, _
  | .delist _, _ => False
  | .leave _, s => hindered ∧ s.idleSolvers = idle
  | .shut _, s => s.idleSolvers = []
  | _, _ => True

def Act.Entrusted (hindered : Prop) (idle : List SockId) (a : Act) (s : State) : Prop :=
  a.Allowed hindered s ∧ a.Inner hindered idle s

theorem Act.Inside.entrusted {a : Act} (h : a.Inside hindered s) : a.Entrusted hindered idle s := by
  refine ⟨h.1, ?_⟩
  have hc := h.2
  cases a with
  | quiet | solve | move | process | idleAdd | idleDrop | idleSort => trivial
  | _ => exact hc.elim

theorem entrusted_quiet : Act.Entrusted hindered idle .quiet s := inside_quiet.entrusted

theorem Path.entrusted (h : Path (Act.Inside hindered) s t) :
    Path (Act.Entrusted hindered idle) s t :=
  h.mono fun _ _ ha => ha.entrusted

theorem Runs.entrusted {α : Type} {m : M α} {Q : α → State → Prop}
    (h : Runs (Act.Inside hindered) out m Q s) : Runs (Act.Entrusted hindered idle) out m Q s :=
  h.imp fun _ _ ha => ha.entrusted

theorem still_levelChildren (level : Nat) : Still (levelChildren level) := by
  refine Still.get.bind fun s => ?_
  cases s.config.partitionPolicy[level % s.config.partitionPolicy.length]? with
  | none => exact Still.raise (by decide)
  | some k => exact Still.pure k

/-- A node that may be asked to be split. -/
def State.Unsplit (s : State) (n : NodeId) : Prop :=
  s.heap.children n = [] ∧ (s.heap.attrs n).partitioning = false

theorem Quiet.unsplit {n : NodeId} (h : Quiet s t) (hn : s.Unsplit n) : t.Unsplit n := by
  rw [State.Unsplit, h.heap.forest, h.heap.partitioning]
  exact hn

theorem runs_askFirst {n : NodeId} {l : List SockId} (hn : s.Unsplit n)
    (hl : ∀ x ∈ l, s.Connected x ∧ (s.solver x).node = some n) :
    Runs (Act.Entrusted hindered idle) out (askFirst n l) (fun r t => r = false → Quiet s t) s := by
  induction l generalizing s with
  | nil => exact Traced.pure fun _ => .refl s
  | cons x xs ih =>
    obtain ⟨hx, hnode⟩ := hl x List.mem_cons_self
    refine Traced.get ?_
    cases (s.solver x).started with
    | none => exact Runs.raise (by decide)
    | some started =>
      cases s.config.partitionTimeout with
      | none => exact Runs.raise (by decide)
      | some limit =>
        refine Traced.bind (Runs.still entrusted_quiet Still.now) fun time t _ ht => ?_
        refine Traced.ite (fun _ => ?_) fun _ => ?_
        · refine Traced.bind (Runs.still entrusted_quiet (still_levelChildren _))
            fun k u _ hu => ?_
          have hq := ht.trans hu
          refine Traced.seq ?_ fun _ _ _ => Traced.pure fun h => nomatch h
          refine Solver.wp_askPartitions
            (fun e v hv he => ⟨Path.quiet entrusted_quiet hv, fun h => absurd h he⟩)
            fun m v hm _ _ hv => ?_
          rw [hq.node, hnode, Option.some.injEq] at hm
          subst hm
          refine ⟨Path.act (.ask x n) ⟨⟨?_, ?_, hq.unsplit hn⟩, trivial⟩ hv, trivial⟩
          · exact (hq.node x).trans hnode
          · exact (hq.connected x).mpr hx
        · refine (ih (ht.unsplit hn) fun y hy => ?_).mono fun r v _ hr hfalse =>
            ht.trans (hr hfalse)
          obtain ⟨hc, hy'⟩ := hl y (List.mem_cons_of_mem _ hy)
          exact ⟨(ht.connected y).mpr hc, (ht.node y).trans hy'⟩

theorem runs_partitionLoop {n : NodeId} {k : Nat} (hn : s.Unsplit n) :
    Runs (Act.Entrusted hindered idle) out (partitionLoop n k) (fun _ _ => True) s := by
  induction k generalizing s with
  | zero => exact Traced.pure trivial
  | succ k ih =>
    refine Traced.bind (runs_solversAt entrusted_quiet) fun l t _ ⟨ht, hl⟩ => ?_
    refine Traced.bind (runs_askFirst (ht.unsplit hn) hl) fun r u _ hr => ?_
    refine Traced.ite (fun _ => Traced.pure trivial) fun hc => ?_
    exact ih ((hr (Bool.eq_false_iff.mpr hc)).unsplit (ht.unsplit hn))

theorem runs_partition {n : NodeId} (hn : s.Unsplit n) :
    Runs (Act.Entrusted hindered idle) out (partition n) (fun _ _ => True) s := by
  refine Traced.get (Traced.bind (Runs.still entrusted_quiet (still_levelChildren _))
    fun k t _ ht => ?_)
  exact runs_partitionLoop (ht.unsplit hn)

theorem runs_redistribute (hs : Solving i s) {nodes : List NodeId} {pass : Pass}
    (hnodes : ∀ n ∈ nodes, s.heap.Reaches (s.root i) n) (hpass : pass.Fits i s) :
    Runs (Act.Entrusted hindered idle) out (redistribute i nodes pass) (fun _ _ => True) s := by
  have inside : Runs (Act.Inside hindered) out (reassign nodes pass)
      (fun _ t => Path (Act.Inside hindered) s t) s :=
    (runs_reassign hs hnodes hpass).mono fun _ _ h _ => h
  refine Traced.bind inside.entrusted fun _ t _ ht => Traced.get (Traced.ite (fun _ => ?_)
    fun _ => Traced.pure trivial)
  have hfits := hpass.fixed (Fixed.path ht)
  cases htarget : pass.toPartition with
  | none => exact Traced.pure trivial
  | some n =>
    obtain ⟨_, _, hn⟩ := hfits.target n htarget
    refine Traced.when (fun _ => ?_) fun _ => trivial
    exact Traced.seq (runs_partition hn) fun _ _ _ => Traced.pure trivial

theorem runs_distribute (hs : Solving i s) {fuel : Nat} {p : Option PNode} {nodes : List NodeId}
    {pass : Pass} (hp : ∀ q, p = some q → q.Here i s)
    (hnodes : ∀ n ∈ nodes, s.heap.Reaches (s.root i) n) (hpass : pass.Fits i s)
    (live : out ∨ ∀ q, p = some q →
      s.movableBound q ≤ fuel ∧ (s.Spares → q.childeren s.heap ≠ .ok [])) :
    Runs (Act.Entrusted hindered idle) out (distribute fuel i p nodes pass) (fun _ _ => True) s := by
  cases p with
  | none => exact runs_redistribute hs hnodes hpass
  | some q =>
    have inside : Runs (Act.Inside hindered) out (spread fuel q)
        (fun _ t => Path (Act.Inside hindered) s t) s :=
      (runs_spread hs (hp q rfl) (live.imp_right fun h => h q rfl)).mono fun _ _ h _ => h
    refine Traced.bind inside.entrusted fun _ t _ ht => ?_
    have hf := Fixed.path ht
    refine runs_redistribute (hs.path ht) (fun n hn => ?_) (hpass.fixed hf)
    rw [hf.root, hf.forest]
    exact hnodes n hn

end Smts.Server
