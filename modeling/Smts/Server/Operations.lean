import Smts.Lib.Run
import Smts.Server.Soundness

namespace Smts.Server

open Smts.Lib Smts.Lib.Prog

/-- The calls of the methods of `Solver`. -/
inductive Op
  | solve (x : SockId) (n : NodeId) (parameters : Header)
  | incremental (x : SockId) (n : NodeId)
  | askPartitions (x : SockId) (k : Nat)
  | stop (x : SockId)
  | read (x : SockId) (header : Header) (payload : Payload)

def Op.run : Op → M Unit
  | .solve x n parameters => Solver.solve x n parameters
  | .incremental x n => Solver.incremental x n
  | .askPartitions x k => Solver.askPartitions x k
  | .stop x => Solver.stop x
  | .read x header payload => do
    let _ ← Solver.read x header payload

/-- Solvers are put on AND nodes of the trees. -/
def Op.Allowed : Op → State → Prop
  | .solve _ n _, s => s.heap.Listed n
  | .incremental _ n, s => s.heap.Listed n
  | _, _ => True

/-- A run of calls in any order, returning or raising, each allowed by `G` where
it is made. -/
def OpRun (G : Op → State → Prop) : State → State → Prop :=
  Relation.ReflTransGen fun s t => ∃ op : Op, op.Allowed s ∧ G op s ∧ (op.run s).2 = t

/-- The actions that a call made in state `s` can consist of. -/
def Op.Causes (op : Op) (s : State) (a : Act) (t : State) : Prop :=
  a.Enabled t ∧ match a with
  | .quiet => True
  | .leave x => op = .stop x ∨ ∃ n parameters, op = .solve x n parameters
  | .solve x n _ => ∃ parameters, op = .solve x n parameters
  | .move x n _ => op = .incremental x n
  | .ask x _ => ∃ k, op = .askPartitions x k
  | .report x n status => t = s ∧ ∃ header payload, op = .read x header payload ∧
      Solver.Matches s x n header ∧ header.lookup Constant.report = some status.name
  | .reply x _ partitions => t = s ∧ ∃ n header payload, op = .read x header payload ∧
      Solver.Matches s x n header ∧ header.lookup Constant.report = some Constant.partitions ∧
      partitions = payload.map Solver.pieces
  | _ => False

namespace Op

variable {s t : State}

/-- Solving starts with leaving, if there is something to leave. -/
theorem solve_path {x : SockId} {n : NodeId} {parameters : Header} (hn : s.heap.Listed n) :
    Path ((Op.solve x n parameters).Causes s) s ((Op.solve x n parameters).run s).2 := by
  have assign : ∀ t, (t.solver x).node = none → t.heap.Listed n →
      wp (Solver.assign x n parameters)
        (fun _ u => Path ((Op.solve x n parameters).Causes s) t u)
        (fun _ u => Path ((Op.solve x n parameters).Causes s) t u) t := by
    intro t hx hl
    refine Solver.wp_assign (fun m u hm hu => ?_) fun e u hu _ => ?_
    · refine Path.act (.solve x n (some m)) ⟨⟨hx, hl, fun m' hm' => ?_⟩, parameters, rfl⟩ hu
      cases hm'
      exact hm
    · exact Path.act (.solve x n none) ⟨⟨hx, hl, fun m' hm' => (nomatch hm')⟩, parameters, rfl⟩ hu
  refine wp_final (m := Solver.solve x n parameters) (Solver.wp_solve (fun hx => assign s hx hn)
    fun a hx => ?_)
  rw [wp_bind]
  have leave : ∀ t, Quiet ((Act.leave x).apply s) t →
      Path ((Op.solve x n parameters).Causes s) s t := fun t ht =>
    Path.act (.leave x) ⟨trivial, Or.inr ⟨n, parameters, rfl⟩⟩ ht
  refine Solver.wp_stop (fun hx' => ?_) (fun _ t _ ht => ?_) fun e _ t _ ht _ => leave t ht
  · rw [hx] at hx'
    exact nomatch hx'
  · have hfree : (t.solver x).node = none := by
      rw [ht.node]
      simp [Act.apply, State.modifySolver, Solver.reset]
    have hl : t.heap.Listed n := (Heap.Grows.of_eq ht.heap.forest ht.heap.label).listed hn
    exact wp_mono (assign t hfree hl) (fun _ u hu => (leave t ht).trans hu)
      fun _ u hu => (leave t ht).trans hu

/-- Every call is a run of the actions it causes. -/
theorem path (op : Op) (ha : op.Allowed s) :
    Path (op.Causes s) s (op.run s).2 := by
  have quiet : ∀ t, Quiet s t → Path (op.Causes s) s t :=
    fun t ht => Path.act .quiet ⟨trivial, trivial⟩ ht
  cases op with
  | solve x n parameters => exact solve_path ha
  | incremental x n =>
    refine wp_final (m := Solver.incremental x n) (Solver.wp_incremental (fun e t ht _ => quiet t ht)
      fun a m t hn hm ht => ?_)
    exact Path.act (.move x n m) ⟨⟨ha, a, hn, hm⟩, rfl⟩ ht
  | askPartitions x k =>
    refine wp_final (m := Solver.askPartitions x k) (Solver.wp_askPartitions
      (fun e t ht _ => quiet t ht) fun n t hn _ _ ht => ?_)
    exact Path.act (.ask x n) ⟨hn, k, rfl⟩ ht
  | stop x =>
    have leave : ∀ t, Quiet ((Act.leave x).apply s) t → Path ((Op.stop x).Causes s) s t :=
      fun t ht => Path.act (.leave x) ⟨trivial, Or.inl rfl⟩ ht
    exact wp_final (m := Solver.stop x) (Solver.wp_stop (fun _ => Path.refl s)
      (fun _ t _ ht => leave t ht) fun _ _ t _ ht _ => leave t ht)
  | read x header payload =>
    refine wp_final (m := (Op.read x header payload).run) ?_
    rw [run, wp_bind]
    have replied : ∀ n o t, Solver.Matches s x n header →
        header.lookup Constant.report = some Constant.partitions →
        (s.solver x).orWaiting.getLast? = some o →
        Quiet ((Act.reply x o (payload.map Solver.pieces)).apply s) t →
        Path ((Op.read x header payload).Causes s) s t := fun n o t hm hr ho ht =>
      Path.act (.reply x o _) ⟨ho, rfl, n, header, payload, rfl, hm, hr, rfl⟩ ht
    refine Solver.wp_read (fun _ t ht _ => quiet t ht) (fun n status _ t hm hr ht _ => ?_)
      (fun n o _ t hm hr ho ht _ => replied n o t hm hr ho ht)
      fun n o _ t hm hr ho ht _ => replied n o t hm hr ho ht
    exact Path.act (.report x n status) ⟨hm.node, rfl, header, payload, rfl, hm, hr⟩ ht

end Op

section Soundness

variable {Model : Type}

/-- What is assumed of incoming reports about the tree of `r`.  A status report
is true of the AND node that its header names, and a partition reply covers it. -/
def Op.Truthful (sem : String → Set Model) (r : NodeId) : Op → State → Prop
  | .read _ header payload, s => ∀ n, s.heap.Listed n → s.heap.root n = r →
      header.lookup Constant.name = some (s.heap.label r).name →
      header.lookup Constant.node = some (render (s.heap.path n)) →
      (∀ status : SolveStatus, header.lookup Constant.report = some status.name →
        Verdict status (s.heap.formula sem n)) ∧
      (header.lookup Constant.report = some Constant.partitions → ∀ text, payload = some text →
        s.heap.formula sem n = { v | ∃ q ∈ Solver.pieces text,
          v ∈ s.heap.formula sem n ∩ sem (Solver.assertText q) })
  | _, _ => True

/-- An instance that has just been opened, with `r` as the root of its tree. -/
structure Opened (r : NodeId) (s : State) : Prop where
  seated : Seated s
  lt : r < s.heap.size
  smt : (s.heap.label r).cls = .smt
  alone : ∀ n, s.heap.root n = r → n = r
  unknown : s.heap.status r = .unknown

theorem Opened.sober {sem : String → Set Model} {r : NodeId} {s : State} (h : Opened r s) :
    Sober sem r s := by
  have hand : s.heap.isAnd r = true := by simp [Heap.isAnd, Heap.isOr, h.smt]
  refine ⟨h.seated, h.lt, hand, fun n hn _ => ?_, fun o p hr hp hor _ => ?_⟩
  · rw [h.alone n hn, h.unknown]
    exact ⟨fun he => (nomatch he), fun he => (nomatch he)⟩
  · rw [h.alone o hr, Heap.isAnd_iff.mp hand] at hor
    exact nomatch hor

/-- The calls keep the tree in order. -/
theorem Sober.op {sem : String → Set Model} {r : NodeId} {s : State} {op : Op}
    (hs : Sober sem r s) (ha : op.Allowed s) (ht : op.Truthful sem r s) :
    Sober sem r (op.run s).2 := by
  refine (op.path ha).invariant (I := Sober sem r) (fun _ _ => Sober.quiet) ?_ hs
  rintro a t ⟨hen, hc⟩ hst
  refine hst.act a hen ?_
  cases a with
  | report x n status =>
    obtain ⟨rfl, header, payload, rfl, hm, hr⟩ := hc
    intro hroot
    exact (ht n (hs.seated.placed x n hm.node) hroot (hroot ▸ hm.name) hm.path).1 status hr
  | reply x o partitions =>
    obtain ⟨rfl, n, header, payload, rfl, hm, hr, rfl⟩ := hc
    cases payload with
    | none => trivial
    | some text =>
      intro p hp hroot
      obtain ⟨_, _, _, n', hn', hc⟩ := hs.seated.getLast_lt hen
      rw [hm.node, Option.some.injEq] at hn'
      subst hn'
      rw [t.heap.parent_of_mem hc, Option.some.injEq] at hp
      subst hp
      exact (ht n (hs.seated.placed x n hm.node) hroot (hroot ▸ hm.name) hm.path).2 hr text rfl
  | split root p => exact hc.elim
  | _ => trivial

theorem Sober.run {sem : String → Set Model} {r : NodeId} {s t : State} (hs : Sober sem r s)
    (run : OpRun (Op.Truthful sem r) s t) : Sober sem r t := by
  induction run with
  | refl => exact hs
  | tail _ hstep ih =>
    obtain ⟨op, ha, ht, rfl⟩ := hstep
    exact ih.op ha ht

/-- In every state that any interleaving of the calls leads to, the statuses of
the tree are right. -/
theorem statuses_sound {sem : String → Set Model} {r : NodeId} {s t : State} (opened : Opened r s)
    (run : OpRun (Op.Truthful sem r) s t) (n : NodeId) (listed : t.heap.Listed n)
    (root : t.heap.root n = r) :
    (t.heap.status n = .sat → (t.heap.formula sem n).Nonempty) ∧
      (t.heap.status n = .unsat → t.heap.formula sem n = ∅) :=
  (opened.sober.run run).sound.verdict n root listed.2.1

/-- One instance with one connected solver, before any work is given. -/
def State.single (name smt : String) : State where
  world := { env := Env.steady }
  heap := (Heap.empty.addRoot { cls := .smt, smt := smt, name := name }).2
  kind _ := .solver
  sock _ := some 0
  isOpen _ := true

theorem opened_single (name smt : String) : Opened 0 (State.single name smt) where
  seated := ⟨fun _ _ hn => (nomatch hn), fun _ _ ho => (nomatch ho), fun _ => List.nodup_nil,
    fun _ _ _ ho => (nomatch ho)⟩
  lt := Nat.zero_lt_one
  smt := rfl
  alone _ hn := hn
  unknown := rfl

/-- What a line says about the one variable that there is. -/
def holds (p : Bool) (line : String) : Bool :=
  if line = "(assert p)" then p else if line = "(assert (not p))" then !p else true

def saying (text : String) : Set Bool := { p | holds p text = true }

instance (text : String) (p : Bool) : Decidable (p ∈ saying text) :=
  inferInstanceAs (Decidable (holds p text = true))

instance (s : State) : (op : Op) → Decidable (op.Allowed s)
  | .solve _ n _ | .incremental _ n => inferInstanceAs (Decidable (s.heap.Listed n))
  | .askPartitions .. | .stop _ | .read .. => .isTrue trivial

/-- The report is right about the node. -/
def Told (h : Heap) (n : NodeId) (header : Header) (payload : Payload) : Prop :=
  (∀ status ∈ [SolveStatus.unknown, .sat, .unsat],
    header.lookup Constant.report = some status.name → Verdict status (h.formula saying n)) ∧
  (header.lookup Constant.report = some Constant.partitions → ∀ text ∈ payload, ∀ v,
    v ∈ h.formula saying n ↔
      ∃ q ∈ Solver.pieces text, v ∈ h.formula saying n ∧ v ∈ saying (Solver.assertText q))

instance (h : Heap) (n : NodeId) (header : Header) (payload : Payload) :
    Decidable (Told h n header payload) := inferInstanceAs (Decidable (_ ∧ _))

instance (r : NodeId) (s : State) : (op : Op) → Decidable (op.Truthful saying r s)
  | .read _ header payload => decidable_of_iff
      (∀ n, n < s.heap.size → s.heap.Listed n ∧ s.heap.root n = r ∧
        header.lookup Constant.name = some (s.heap.label r).name ∧
        header.lookup Constant.node = some (render (s.heap.path n)) →
        Told s.heap n header payload) <| by
    have all (status : SolveStatus) : status ∈ [SolveStatus.unknown, .sat, .unsat] := by
      cases status <;> simp
    simp only [Told, all, Op.Truthful, Set.ext_iff, Option.mem_def, forall_const, and_imp]
    exact ⟨fun h n listed => h n listed.1 listed, fun h n _ => h n⟩
  | .solve .. | .incremental .. | .askPartitions .. | .stop _ => .isTrue trivial

theorem OpRun.of_run {G : Op → State → Prop} {s t : State} (h : Run (fun s op => some (op.run s).2)
    (fun s op => op.Allowed s ∧ G op s) s t) : OpRun G s t :=
  Relation.ReflTransGen.mono (fun _ _ ⟨op, ⟨ha, hG⟩, ht⟩ => ⟨op, ha, hG, Option.some.inj ht⟩) _ _ h

/-- The solver splits the instance and finds out about either part. -/
def split : List Op :=
  [.solve 0 0 [], .askPartitions 0 2,
    .read 0 [("report", "partitions"), ("name", "a"), ("node", "[]")] (some "(not p)\x00p"),
    .incremental 0 2, .read 0 [("report", "unsat"), ("name", "a"), ("node", "[0, 0]")] (some ""),
    .incremental 0 3, .read 0 [("report", "sat"), ("name", "a"), ("node", "[0, 1]")] (some "")]

theorem statuses_sound_split :
    ∃ t, OpRun (Op.Truthful saying 0) (State.single "a" "(assert p)") t ∧
      (t.heap.status 2 = .unsat ∧ t.heap.formula saying 2 = ∅) ∧
      t.heap.status 0 = .sat ∧ (t.heap.formula saying 0).Nonempty := by
  obtain ⟨t, ht, unsat, sat, listed, top, root⟩ := exists_of_any
    (o := split.foldlM (guarded (fun s op => some (op.run s).2) fun s op =>
      op.Allowed s ∧ op.Truthful saying 0 s) (State.single "a" "(assert p)"))
    (P := fun t => t.heap.status 2 = .unsat ∧ t.heap.status 0 = .sat ∧ t.heap.Listed 2 ∧
      t.heap.Listed 0 ∧ t.heap.root 2 = 0 ∧ t.heap.root 0 = 0) (by decide +kernel)
  have run : OpRun (Op.Truthful saying 0) (State.single "a" "(assert p)") t :=
    .of_run (.of_script ht)
  have sound := statuses_sound (opened_single "a" "(assert p)") run
  exact ⟨t, run, ⟨unsat, (sound 2 listed root.1).2 unsat⟩, sat, (sound 0 top root.2).1 sat⟩

end Soundness

end Smts.Server
