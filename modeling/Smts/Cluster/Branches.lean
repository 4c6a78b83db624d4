import Smts.Cluster.Entailment
import Smts.Server.Assertions
import Smts.Server.Soundness

namespace Smts

open Smts.Lib
open Smts.Client (Branch Sharer formula)
open Smts.LemmaServer (ands)
open Smts.Server (Heap NodeId InstId State Env Config Turns)

theorem plain_flatMap (l : List Nat) : Plain (l.flatMap fun a => [0, a]) := by
  have hands : ands (l.flatMap fun a => [0, a]) = l := by
    induction l with
    | nil => rfl
    | cons a l ih =>
      rw [List.flatMap_cons, List.cons_append, List.cons_append, List.nil_append, ands, ih]
  rw [Plain, hands]

theorem Plain.child {b : Branch} (h : Plain b) (i : Nat) : Plain (b ++ [0] ++ [i]) := by
  have hb := plain_flatMap (ands b ++ [i])
  rw [List.flatMap_append, ← h] at hb
  rw [List.append_assoc]
  exact hb

namespace Server.Heap

section Paths

variable {h : Heap} {n : NodeId}

/-- AND nodes stand at even depth. -/
theorem even_path (ha : h.Attached n) (hroot : h.isAnd (h.root n) = true) :
    (h.path n).length % 2 = if h.isAnd n then 0 else 1 := by
  induction n using Nat.strongRecOn with
  | ind n ih =>
    cases hp : h.parent n with
    | none =>
      rw [h.root_of_none hp] at hroot
      rw [path_none (truthyParent_of_none hp), if_pos hroot]
      rfl
    | some p =>
      have hrest := ih p (h.parent_lt hp) (ha.parent hp) (h.root_of_parent hp ▸ hroot)
      rw [path_child (ha.mem_of_parent hp), List.length_append, List.length_singleton, Nat.add_mod,
        hrest, isAnd_of_parent hp, isAnd]
      cases h.isOr p <;> rfl

/-- Where AND nodes have at most one OR child, branches are plain. -/
theorem plain_path (single : ∀ n, n < h.size → h.isAnd n = true → h.len n ≤ 1)
    (hlt : n < h.size) (ha : h.Attached n) (hroot : h.isAnd (h.root n) = true) :
    (h.isAnd n = true → Smts.Plain (h.path n)) ∧
      (h.isAnd n = false → ∃ b, Smts.Plain b ∧ h.path n = b ++ [0]) := by
  induction n using Nat.strongRecOn with
  | ind n ih =>
    cases hp : h.parent n with
    | none =>
      rw [h.root_of_none hp] at hroot
      rw [path_none (truthyParent_of_none hp)]
      exact ⟨fun _ => rfl, fun hor => by simp [hroot] at hor⟩
    | some p =>
      have hmem := ha.mem_of_parent hp
      have hplt := (h.parent_lt hp).trans hlt
      obtain ⟨hand, hor⟩ := ih p (h.parent_lt hp) hplt (ha.parent hp) (h.root_of_parent hp ▸ hroot)
      rw [path_child hmem, isAnd_of_parent hp]
      refine ⟨fun hn => ?_, fun hn => ⟨_, hand (by simpa [isAnd] using hn), ?_⟩⟩
      · obtain ⟨b, hb, hpath⟩ := hor (by simpa [isAnd] using hn)
        rw [hpath]
        exact hb.child _
      · obtain ⟨m, hm⟩ := List.length_eq_one_iff.mp (Nat.le_antisymm
          (single p hplt (by simpa [isAnd] using hn)) (List.length_pos_of_mem hmem))
        rw [hm, List.mem_singleton] at hmem
        rw [hm, hmem, List.idxOf_cons_self]

variable {Model : Type} {sem : String → Set Model}

/-- What is asserted at a branch of a tree. -/
def frameAt (h : Heap) (sem : String → Set Model) (r : NodeId) (b : Branch) : Set Model :=
  { v | ∀ m, h.Listed m → h.root m = r → h.path m = b → v ∈ sem (h.label m).smt }

/-- The frames of a branch are the conjuncts of its node. -/
theorem formula_path (hn : h.Listed n) (hroot : h.isAnd (h.root n) = true) :
    Client.formula (h.frameAt sem (h.root n)) (h.path n) = h.formula sem n := by
  obtain ⟨hlt, -, hatt⟩ := hn
  ext v
  constructor
  · intro hv m hm hand
    have hreach := hatt.reaches_of_mem hm
    have hmatt : h.Attached m := hatt.above hreach
    have hmroot : h.root m = h.root n := hreach.root_eq.symm
    have hpre := path_prefix_of_reaches hreach
    have heven := even_path hmatt (hmroot ▸ hroot)
    rw [hand, if_pos rfl] at heven
    obtain ⟨k, hk⟩ := Nat.dvd_of_mod_eq_zero heven
    refine hv k (hk ▸ hpre.length_le) m ⟨?_, hand, hmatt⟩ hmroot ?_
    · exact Nat.lt_of_le_of_lt (h.le_of_mem_lineage hm) hlt
    · rw [← hk]
      exact List.prefix_iff_eq_take.mp hpre
  · intro hv k hk m hm hmroot hpath
    have hreach := reaches_of_pathPrefix hm.2.2 hatt hmroot (hpath ▸ List.take_prefix _ _)
    exact hv m hreach.mem_lineage hm.2.1

end Paths

end Server.Heap

/-- The branches of an instance's AND nodes. -/
def Server.State.Knows (s : State) (i : InstId) (b : Branch) : Prop :=
  ∃ n, s.heap.Listed n ∧ s.heap.root n = s.root i ∧ s.heap.path n = b

namespace Exchange

variable {Model : Type} {sem : String → Set Model} {clause : Bytes → Set Model} {env : Env}
  {config : Config} {s : State}
  {j : InstId} {x : Exchange}

/-- Automatic scheduling makes no trees on which the lemma server loses its way: clients and lemma
server deal in plain branches only, and solvers that share lemmas on an instance decide the formulas
of their nodes. -/
theorem Reaches.lemmas_scheduled (hs : Turns (fun _ ev => ev.Definite) (.init env config) s)
    (hj : j < s.nextInst) {sendAgain : Bool} {names : Nat → Bytes} {nodes : Nat → Branch}
    (known : ∀ i, s.Knows j (nodes i))
    (h : Reaches (fun _ _ => True) (s.Knows j) (fun _ => s.heap.frameAt sem (s.root j)) clause
      (init sendAgain fun i => .start (names i) (nodes i)) x) (i : Nat) :
    (∀ b, s.Knows j b → Plain b) ∧ x.Within (s.Knows j) ∧ ∃ n, s.heap.Listed n ∧
      s.heap.root n = s.root j ∧ s.heap.path n = (x.client i).loaded ∧
      { v | v ∈ s.heap.formula sem n ∧ ∀ e ∈ (x.client i).lemmas, v ∈ clause e.2.clause } =
        s.heap.formula sem n := by
  have ordered : s.Orderly := .turns hs
  obtain ⟨⟨-, hand, -⟩, -⟩ := ordered.consistent.opened j hj
  have plain (b : Branch) (hb : s.Knows j b) : Plain b := by
    obtain ⟨n, ⟨hlt, hn, hatt⟩, hroot, rfl⟩ := hb
    exact (Heap.plain_path ordered.shaped.single hlt hatt (hroot ▸ hand)).1 hn
  have start : (init sendAgain fun i => Sharer.start (names i) (nodes i)).Within (s.Knows j) :=
    ⟨fun i => Sharer.within_start _ (known i), by simp [init], by simp [init]⟩
  obtain ⟨hreach, hx⟩ := h.within start plain
  obtain ⟨n, hn, hroot, hpath⟩ := (hx.clients i).loaded
  have key := (hreach.lemmas_entailed i).2
  rw [← hpath, ← hroot, Heap.formula_path hn (hroot ▸ hand)] at key
  exact ⟨plain, hx, n, hn, hroot, hpath, key⟩

/-- Two solvers get an instance, which one of them partitions. -/
def parted : List Server.Event :=
  [.accept "a", .message 1 [(Server.Constant.solver, "OpenSMT2")] (some ""),
    .accept "b", .message 3 [(Server.Constant.solver, "OpenSMT2")] (some ""), .accept "c",
    .message 5 [(Server.Constant.command, Server.Constant.solve),
      (Server.Constant.name, "a.smt2")] (some "(assert true)"), .timeout,
    .message 2 [(Server.Constant.report, "partitions"), (Server.Constant.name, "a.smt2"),
      (Server.Constant.node, "[]")] (some "x\x00y")]

theorem Reaches.lemmas_scheduled_parted :
    ∃ s x, parted.foldlM (guarded (State.turn 3) fun _ ev => ev.Definite) (.init .steady
        { partitionTimeout := some Server.second }) = some s ∧
      shared.foldlM (move .sorting) (init false fun _ => .start (utf8 "a.smt2") []) = some x ∧
      (x.client 2).lemmas = [([0, 1], ⟨utf8 "x", 0⟩)] ∧
      ∃ n, s.heap.Listed n ∧ s.heap.root n = s.root 0 ∧ s.heap.path n = (x.client 2).loaded ∧
        { v : Nat | v ∈ s.heap.formula (fun _ => { v | 0 < v }) n ∧
          ∀ e ∈ (x.client 2).lemmas, v ∈ { v : Nat | e.2.clause = utf8 "x" → 0 < v } } =
            s.heap.formula (fun _ => { v | 0 < v }) n := by
  obtain ⟨s, hs, hinst, hroot, ho, hn, hlt, hand, hn0, hpath⟩ := exists_of_any
    (o := parted.foldlM (guarded (State.turn 3) fun _ ev => ev.Definite) (.init .steady
      { partitionTimeout := some Server.second }))
    (P := fun s => 0 < s.nextInst ∧ s.root 0 = 0 ∧ 1 ∈ s.heap.children 0 ∧ 3 ∈ s.heap.children 1 ∧
      3 < s.heap.size ∧ s.heap.isAnd 3 = true ∧ s.heap.root 3 = 0 ∧ s.heap.path 3 = [0, 1])
    (by decide +kernel)
  obtain ⟨x, hx, hlemmas⟩ := exists_of_any
    (o := shared.foldlM (move .sorting) (init false fun _ => .start (utf8 "a.smt2") []))
    (P := fun x => (x.client 2).lemmas = [([0, 1], ⟨utf8 "x", 0⟩)]) (by decide +kernel)
  have turns : Turns (fun _ ev => ev.Definite) (.init .steady
      { partitionTimeout := some Server.second }) s := .of_run (.of_script hs)
  obtain ⟨top, hpar⟩ := (State.Orderly.turns turns).consistent.opened 0 hinst
  have here : s.Knows 0 [] := ⟨s.root 0, top, s.heap.root_of_none hpar,
    Server.Heap.path_none (Server.Heap.truthyParent_of_none hpar)⟩
  have below : s.Knows 0 [0, 1] := ⟨3, ⟨hlt, hand, ((hroot ▸ top.2.2).child ho).child hn⟩,
    hn0.trans hroot.symm, hpath⟩
  have hreach : Reaches (fun _ _ => True) (s.Knows 0)
      (fun _ => s.heap.frameAt (fun _ => { v : Nat | 0 < v }) (s.root 0))
      (fun c => { v | c = utf8 "x" → 0 < v })
      (init false fun _ => .start (utf8 "a.smt2") []) x := by
    refine .of_script (fun i ls hm s' l hl => ?_) (fun i b hm => ?_) hx
    · obtain ⟨-, rfl⟩ : i = 1 ∧ ls = [⟨utf8 "x", 0⟩] := by simpa [shared] using hm
      obtain rfl := List.mem_singleton.mp hl
      obtain ⟨n, hn, hnroot, hnpath⟩ := here
      exact ⟨0, rfl, Nat.zero_le _, fun v hv _ => hv.1 0 (Nat.zero_le _) n hn hnroot hnpath⟩
    · obtain ⟨-, rfl⟩ : i = 2 ∧ b = [0, 1] := by simpa [shared] using hm
      exact below
  exact ⟨s, x, hs, hx, hlemmas, (hreach.lemmas_scheduled turns hinst (fun _ => here) 2).2.2⟩

end Exchange

end Smts
