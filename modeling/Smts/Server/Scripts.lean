import Smts.Lib.Stack
import Smts.Server.Operations

namespace Smts.Server

open Smts.Lib Smts.Lib.Prog

/-- The command in a line of a script.  An empty line carries none. -/
def lineCommand (line : String) : Option (Command String) :=
  if line = Constant.push then some .push
  else if line = Constant.pop then some .pop
  else if line = "" then none
  else some (.item line)

def lines (text : String) : List String := (text.toList.splitOn '\n').map String.ofList

/-- A script as the stack machine of a solver reads it. -/
def interpret (script : String) : List (Command String) := (lines script).filterMap lineCommand

/-- The lines that a text leaves in a frame. -/
def body (text : String) : List String := (lines text).filter (· ≠ "")

/-- The text itself contains no push and no pop. -/
def Plain (text : String) : Prop := ∀ line ∈ lines text, line ≠ Constant.push ∧ line ≠ Constant.pop

instance (text : String) : Decidable (Plain text) :=
  inferInstanceAs (Decidable (∀ line ∈ lines text, line ≠ Constant.push ∧ line ≠ Constant.pop))

theorem splitOn_append_cons (x : Char) (as bs : List Char) :
    (as ++ x :: bs).splitOn x = as.splitOn x ++ bs.splitOn x := by
  simp [List.splitOn, List.splitOnP_append_cons]

theorem lines_intercalate_cons (text : String) (texts : List String) (hne : texts ≠ []) :
    lines ("\n".intercalate (text :: texts)) = lines text ++ lines ("\n".intercalate texts) := by
  have hsep : "\n".toList = ['\n'] := by decide
  have hne' : texts.map String.toList ≠ [] := by simpa using hne
  rw [lines, lines, lines, String.toList_intercalate, String.toList_intercalate, hsep,
    List.map_cons, List.intercalate_cons_of_ne_nil hne', List.append_assoc,
    List.singleton_append, splitOn_append_cons, List.map_append]

theorem interpret_intercalate (texts : List String) :
    interpret ("\n".intercalate texts) = texts.flatMap interpret := by
  induction texts with
  | nil => decide
  | cons t ts ih =>
    by_cases hne : ts = []
    · subst hne
      simp [interpret]
    · rw [interpret, lines_intercalate_cons t ts hne, List.filterMap_append, List.flatMap_cons, ← ih]
      rfl

theorem interpret_plain {text : String} (h : Plain text) :
    interpret text = (body text).map .item := by
  unfold Plain at h
  rw [interpret, body]
  generalize lines text = l at h ⊢
  induction l with
  | nil => rfl
  | cons line rest ih =>
    have hl := h line List.mem_cons_self
    have ih := ih fun l hl => h l (List.mem_cons_of_mem _ hl)
    by_cases he : line = ""
    · simp [he, lineCommand, ih, Constant.push, Constant.pop]
    · simp [he, lineCommand, ih, hl.1, hl.2]

section Climbs

variable {h : Heap} {self a n : Nat}

/-- The AND nodes among the ones from `n` up to `a`, without `a` itself. -/
def Heap.andsBelow (h : Heap) (a n : NodeId) : List NodeId := (h.below a n).filter h.isAnd

/-- The AND nodes from `n` up to the root. -/
def Heap.ands (h : Heap) (n : NodeId) : List NodeId := (h.lineage n).filter h.isAnd

theorem ands_eq (hr : h.Reaches a n) : h.ands n = h.andsBelow a n ++ h.ands a := by
  rw [Heap.ands, Heap.andsBelow, Heap.ands, ← List.filter_append, Forest.below_append hr]

theorem ands_ne_nil (hroot : h.isAnd (h.root n) = true) : h.ands n ≠ [] :=
  List.ne_nil_of_mem (List.mem_filter.mpr ⟨h.root_mem_lineage n, hroot⟩)

/-- What `collect` lists for one AND node: its text and the push before it. -/
def collected (h : Heap) (self m : NodeId) : List String :=
  (h.label m).smt :: if m ≠ self then [Constant.push] else []

theorem collect_step {start : Option NodeId} {k : Nat} {l : List NodeId} (hne : some n ≠ start)
    (rest : SMT.collect h self start k (h.parent n) = .ok (l.flatMap (collected h self))) :
    SMT.collect h self start (k + 1) (some n) =
      .ok (([n].filter h.isAnd ++ l).flatMap (collected h self)) := by
  rw [SMT.collect, if_neg hne]
  simp only [rest]
  by_cases hand : h.isAnd n = true
  · by_cases hself : n = self
    · subst hself
      simp [hand, collected, bind, Except.bind, pure, Except.pure]
    · simp [hand, hself, collected, bind, Except.bind, pure, Except.pure]
  · simp [hand, bind, Except.bind, pure, Except.pure]

theorem collect_below {k : Nat} (hk : n < k) (hr : h.Reaches a n) :
    SMT.collect h self (some a) k (some n) =
      .ok ((h.andsBelow a n).flatMap (collected h self)) := by
  induction hr generalizing k with
  | refl => cases k <;> simp [SMT.collect, Heap.andsBelow, Forest.below_self]
  | @tail p c hap hc ih =>
    have hlt : a < c := Nat.lt_of_le_of_lt (Forest.Reaches.le hap) (Forest.lt_of_mem hc)
    have hpc := Forest.lt_of_mem hc
    cases k with
    | zero => omega
    | succ k =>
      have hne : some c ≠ some a := by
        simp only [ne_eq, Option.some.injEq]
        omega
      have hsplit : h.andsBelow a c = [c].filter h.isAnd ++ h.andsBelow a p := by
        rw [Heap.andsBelow, Forest.below_child hap hc, ← List.singleton_append,
          List.filter_append, Heap.andsBelow]
      rw [hsplit]
      refine collect_step hne ?_
      rw [h.parent_of_mem hc]
      exact ih (by omega)

theorem collect_all {k : Nat} (hk : n < k) :
    SMT.collect h self none k (some n) = .ok ((h.ands n).flatMap (collected h self)) := by
  induction n using Nat.strongRecOn generalizing k with
  | ind n ih =>
    cases k with
    | zero => omega
    | succ k =>
      have hne : some n ≠ none := Option.some_ne_none n
      cases hp : h.parent n with
      | none =>
        have hsplit : h.ands n = [n].filter h.isAnd ++ [] := by
          rw [Heap.ands, Forest.lineage_none hp, List.append_nil]
        rw [hsplit]
        refine collect_step hne ?_
        rw [hp]
        cases k <;> simp [SMT.collect]
      | some p =>
        have hlt := h.parent_lt hp
        have hsplit : h.ands n = [n].filter h.isAnd ++ h.ands p := by
          rw [Heap.ands, Forest.lineage_some hp, ← List.singleton_append, List.filter_append,
            Heap.ands]
        rw [hsplit]
        refine collect_step hne ?_
        rw [hp]
        exact ih p hlt (by omega)

theorem climb_here {k : Nat} (hr : h.root a = h.root n) (hanc : h.isAncestor a n = true) :
    SMT.climb h n k a = .ok (a, 0) := by
  unfold SMT.climb
  simp [hr, hanc]

theorem climb_up {k p top pops : Nat} (hr : h.root a = h.root n)
    (hanc : ¬ h.isAncestor a n = true) (hp : h.parent a = some p)
    (hup : SMT.climb h n k p = .ok (top, pops)) :
    SMT.climb h n (k + 1) a = .ok (top, if h.isAnd a = true then pops + 1 else pops) := by
  unfold SMT.climb
  simp [hr, hanc, hp, hup, bind, Except.bind, pure, Except.pure]

/-- The first climb ends at the lowest node above both, and counts the AND nodes
below it. -/
theorem climb_spec {k : Nat} (hk : a ≤ k) (ha : h.Attached a) (hn : h.Attached n)
    (hr : h.root a = h.root n) :
    ∃ top, SMT.climb h n k a = .ok (top, (h.andsBelow top a).length) ∧
      h.Reaches top a ∧ h.Reaches top n := by
  induction a using Nat.strongRecOn generalizing k with
  | ind a ih =>
    by_cases hanc : h.isAncestor a n = true
    · refine ⟨a, ?_, Forest.Reaches.refl a, (Heap.isAncestor_iff ha hn hr).mp hanc⟩
      rw [climb_here hr hanc]
      simp [Heap.andsBelow]
    · cases hp : h.parent a with
      | none =>
        refine absurd ((Heap.isAncestor_iff ha hn hr).mpr ?_) hanc
        have hra := h.root_of_none hp
        rw [← hra, hr]
        exact hn
      | some p =>
        have hlt := h.parent_lt hp
        have hc := ha.mem_of_parent hp
        obtain ⟨k, rfl⟩ := Nat.exists_eq_add_of_le' (Nat.le_trans (Nat.succ_le_of_lt
          (Nat.lt_of_le_of_lt (Nat.zero_le p) hlt)) hk)
        obtain ⟨top, htop, hta, htn⟩ := ih p hlt (k := k) (by omega) (ha.parent hp)
          ((h.root_of_parent hp).symm.trans hr)
        refine ⟨top, ?_, hta.child hc, htn⟩
        have hsplit : h.andsBelow top a =
            if h.isAnd a = true then a :: h.andsBelow top p else h.andsBelow top p := by
          rw [Heap.andsBelow, Forest.below_child hta hc, List.filter_cons, Heap.andsBelow]
        rw [climb_up hr hanc hp htop, hsplit]
        by_cases hand : h.isAnd a = true
        · rw [if_pos hand, if_pos hand, List.length_cons]
        · rw [if_neg hand, if_neg hand]

/-- The frame that an AND node stands for. -/
def Heap.frame (h : Heap) (m : NodeId) : List String := body (h.label m).smt

/-- The stack that a node stands for: one frame for each AND node down to it. -/
def Heap.stack (h : Heap) (n : NodeId) : Stack String := Stack.ofFrames ((h.ands n).map h.frame)

/-- The texts of the tree of `r` contain no push and no pop. -/
def Heap.PlainTree (h : Heap) (r : NodeId) : Prop :=
  ∀ m, m < h.size → h.root m = r → Plain (h.label m).smt

theorem interpret_pushes {l : List NodeId} (hplain : ∀ m ∈ l, Plain (h.label m).smt)
    (hself : ∀ m ∈ l, m ≠ self) :
    ((l.flatMap (collected h self)).reverse.flatMap interpret) =
      ((l.map h.frame).reverse.flatMap fun f => .push :: f.map .item) := by
  have hpush : interpret Constant.push = [.push] := by decide
  induction l with
  | nil => rfl
  | cons m l ih =>
    have hm := hself m List.mem_cons_self
    have ih := ih (fun m hm => hplain m (List.mem_cons_of_mem _ hm))
      fun m hm => hself m (List.mem_cons_of_mem _ hm)
    rw [List.flatMap_cons, List.reverse_append, List.flatMap_append, ih, List.map_cons,
      List.reverse_cons, List.flatMap_append]
    simp [collected, hm, hpush, interpret_plain (hplain m List.mem_cons_self), Heap.frame]

theorem root_lt_of_mem_andsBelow {m : Nat} (hn : h.Attached n) (hr : h.Reaches a n)
    (hm : m ∈ h.andsBelow a n) : h.root n < m := by
  have hra : h.Attached a := hn.above hr
  have hle : h.root a ≤ a := Forest.Reaches.le hra
  rw [hr.root_eq]
  exact Nat.lt_of_le_of_lt hle (Forest.lt_of_mem_below hr (List.mem_filter.mp hm).1)

theorem root_eq_of_mem_lineage {m : Nat} (hn : h.Attached n) (hm : m ∈ h.lineage n) :
    h.root m = h.root n := ((hn.reaches_of_mem hm).root_eq).symm

theorem plain_of_mem {r : Nat} {l : List Nat} (hp : h.PlainTree r) (hn : h.Attached n)
    (hlt : n < h.size) (hroot : h.root n = r) (hl : l ⊆ h.lineage n) :
    ∀ m ∈ l, Plain (h.label m).smt := fun m hm =>
  hp m (Nat.lt_of_le_of_lt (Forest.le_of_mem_lineage (hl hm)) hlt)
    ((root_eq_of_mem_lineage hn (hl hm)).trans hroot)

theorem andsBelow_subset (hr : h.Reaches a n) : h.andsBelow a n ⊆ h.lineage n := by
  rw [← Forest.below_append hr]
  exact fun m hm => List.mem_append_left _ (List.mem_filter.mp hm).1

/-- Interpreting the script of a node from scratch builds the stack it stands for. -/
theorem exec_scratch {r : Nat} (hsmt : (h.label r).cls = .smt) (hp : h.PlainTree r)
    (hn : h.Listed n) (hroot : h.root n = r) :
    ∃ script, h.toString r n none = .ok (script, Constant.checkSat) ∧
      Stack.empty.exec (interpret script) = some (h.stack n) := by
  obtain ⟨hlt, -, hatt⟩ := hn
  have hreach : h.Reaches r n := hroot ▸ hatt
  have hpar : h.parent r = none := hroot ▸ h.root_parent n
  have hand : h.isAnd r = true := by simp [Heap.isAnd, Heap.isOr, hsmt]
  have hands : h.ands r = [r] := by simp [Heap.ands, Forest.lineage_none hpar, hand]
  refine ⟨"\n".intercalate ((h.ands n).flatMap (collected h r)).reverse, ?_, ?_⟩
  · simp only [Heap.toString, hsmt, SMT.toString, bind, Except.bind, pure, Except.pure,
      collect_all (Nat.lt_succ_self n), List.replicate_zero, List.append_nil]
  · have hplain : ∀ {l : List Nat}, l ⊆ h.lineage n → ∀ m ∈ l, Plain (h.label m).smt :=
      plain_of_mem hp hatt hlt hroot
    have hself : ∀ m ∈ h.andsBelow r n, m ≠ r := fun m hm =>
      Nat.ne_of_gt (hroot ▸ root_lt_of_mem_andsBelow hatt hreach hm)
    have hbase : ((h.ands r).flatMap (collected h r)).reverse.flatMap interpret =
        (h.frame r).map .item := by
      rw [hands]
      simp [collected, Heap.frame,
        interpret_plain (hplain (List.Subset.refl _) r hreach.mem_lineage)]
    rw [interpret_intercalate, ands_eq hreach, List.flatMap_append, List.reverse_append,
      List.flatMap_append, Stack.exec_append, hbase, Stack.exec_base, Option.bind_some,
      interpret_pushes (hplain (andsBelow_subset hreach)) hself,
      Stack.exec_frames _ _ (List.cons_ne_nil _ _), Heap.stack, ands_eq hreach, hands,
      List.map_append]
    rfl

/-- Interpreting the script of a move takes the stack of the old node to the stack
of the new one. -/
theorem exec_move {r : Nat} {script query : String} (hsmt : (h.label r).cls = .smt)
    (hp : h.PlainTree r) (ha : h.Listed a) (hn : h.Listed n) (hroot : h.root a = r)
    (hs : h.toString r n (some a) = .ok (script, query)) :
    h.root n = r ∧ (h.stack a).exec (interpret script) = some (h.stack n) := by
  have hand : h.isAnd r = true := by simp [Heap.isAnd, Heap.isOr, hsmt]
  simp only [Heap.toString, hsmt, SMT.toString] at hs
  have hr : h.root a = h.root n := by
    by_contra hne
    unfold SMT.climb at hs
    simp [hne, bind, Except.bind] at hs
  obtain ⟨top, hclimb, hta, htn⟩ := climb_spec (Nat.le_refl a) ha.2.2 hn.2.2 hr
  have hnr : h.root n = r := hr.symm.trans hroot
  refine ⟨hnr, ?_⟩
  simp only [hclimb, bind, Except.bind, pure, Except.pure,
    collect_below (Nat.lt_succ_self n) htn] at hs
  have hs : "\n".intercalate ((h.andsBelow top n).flatMap (collected h r) ++
      List.replicate (h.andsBelow top a).length Constant.pop).reverse = script := by
    injection hs with hs
    exact congrArg Prod.fst hs
  have hself : ∀ m ∈ h.andsBelow top n, m ≠ r := fun m hm =>
    Nat.ne_of_gt (hnr ▸ root_lt_of_mem_andsBelow hn.2.2 htn hm)
  have hpops : ∀ k, (List.replicate k Constant.pop).flatMap interpret =
      List.replicate k (.pop : Command String) := by
    intro k
    have hpop : interpret Constant.pop = [.pop] := by decide
    induction k with
    | zero => rfl
    | succ k ih => simp [List.replicate_succ, hpop, ih]
  have htop : (h.ands top).map h.frame ≠ [] := by
    have : h.isAnd (h.root top) = true := by rw [← hta.root_eq, hroot, hand]
    simpa using ands_ne_nil this
  rw [← hs, interpret_intercalate, List.reverse_append, List.reverse_replicate,
    List.flatMap_append, hpops, Stack.exec_append, Heap.stack, ands_eq hta, List.map_append,
    interpret_pushes (plain_of_mem hp hn.2.2 hn.1 hnr (andsBelow_subset htn)) hself]
  have := Stack.exec_pops ((h.andsBelow top a).map h.frame) ((h.ands top).map h.frame) htop
  rw [List.length_map] at this
  rw [this, Option.bind_some, Stack.exec_frames _ _ htop, Heap.stack, ands_eq htn,
    List.map_append]

end Climbs

/-- The scripts among the messages, as far as they are for `x`. -/
def scripts (x : SockId) (l : List Sent) : List String :=
  (l.filter fun m => m.sock = x && m.places).map Sent.payload

/-- The commands that the stack machine of `x` reads. -/
def commands (x : SockId) (l : List Sent) : List (Command String) :=
  (scripts x l).flatMap interpret

section Runs

variable {x : SockId} {r : Nat} {s t : State}

theorem commands_append (l k : List Sent) : commands x (l ++ k) = commands x l ++ commands x k := by
  simp [commands, scripts]

theorem commands_quiet {l : List Sent} (h : ∀ m ∈ l, m.places = false) : commands x l = [] := by
  have : l.filter (fun m => m.sock = x && m.places) = [] :=
    List.filter_eq_nil_iff.mpr fun m hm => by simp [h m hm]
  simp [commands, scripts, this]

theorem commands_other {m : Sent} (h : m.sock ≠ x) : commands x [m] = [] := by
  simp [commands, scripts, h]

theorem commands_own {m : Sent} (h : m.sock = x) (hp : m.places = true) :
    commands x [m] = interpret m.payload := by
  simp [commands, scripts, h, hp]

theorem Heap.Grows.stack {h g : Heap} {n : Nat} (hg : h.Grows g) (hn : n < h.size) :
    g.stack n = h.stack n := by
  have hlt : ∀ m ∈ h.lineage n, m < h.size :=
    fun m hm => Nat.lt_of_le_of_lt (Forest.le_of_mem_lineage hm) hn
  have hands : g.ands n = h.ands n := by
    rw [Heap.ands, Heap.ands, hg.lineage hn]
    exact List.filter_congr fun m hm => hg.isAnd (hlt m hm)
  rw [Heap.stack, Heap.stack, hands]
  refine congrArg Stack.ofFrames (List.map_congr_left fun m hm => ?_)
  rw [Heap.frame, Heap.frame, hg.label m (hlt m (List.mem_filter.mp hm).1)]

theorem Heap.Grows.plainTree {h g : Heap} (hg : h.Grows g) (hp : g.PlainTree r) :
    h.PlainTree r := fun m hm hroot => by
  rw [← hg.label m hm]
  exact hp m (Nat.lt_of_lt_of_le hm hg.size) ((hg.root m hm).trans hroot)

/-- The machine of `x` has read the messages since `l₀`, and stands at the node
that the server takes the solver to be on. -/
structure Loaded (x : SockId) (r : NodeId) (l₀ : List Sent) (s : State) : Prop where
  seated : Seated s
  smt : r < s.heap.size ∧ (s.heap.label r).cls = .smt
  stack : ∃ n l, (s.solver x).node = some n ∧ s.heap.root n = r ∧ s.sent = l₀ ++ l ∧
    Stack.empty.exec (commands x l) = some (s.heap.stack n)

theorem Loaded.quiet {l₀ : List Sent} (h : Quiet s t) (hs : Loaded x r l₀ s) :
    Loaded x r l₀ t := by
  have hg : s.heap.Grows t.heap := .of_eq h.heap.forest h.heap.label
  obtain ⟨n, l, hn, hroot, hsent, hexec⟩ := hs.stack
  obtain ⟨k, hk, hq⟩ := h.sent
  refine ⟨hs.seated.quiet h, ?_, n, l ++ k, (h.node x).trans hn, ?_, ?_, ?_⟩
  · rw [h.heap.forest, h.heap.label]
    exact hs.smt
  · rw [h.heap.forest]
    exact hroot
  · rw [hk, hsent, List.append_assoc]
  · rw [commands_append, commands_quiet hq, List.append_nil, hexec,
      hg.stack (hs.seated.placed x n hn).1]

/-- Calls that do not take the solver off the tree. -/
def Op.Keeps (x : SockId) (op : Op) : Prop :=
  op ≠ .stop x ∧ ∀ n parameters, op ≠ .solve x n parameters

theorem Loaded.act {l₀ : List Sent} {op : Op} {s₀ : State} {a : Act} (hk : op.Keeps x)
    (ha : op.Causes s₀ a s) (hp : (a.apply s).heap.PlainTree r) (hs : Loaded x r l₀ s) :
    Loaded x r l₀ (a.apply s) := by
  obtain ⟨hen, hc⟩ := ha
  have hg := hs.seated.grows a hen
  obtain ⟨n, l, hn, hroot, hsent, hexec⟩ := hs.stack
  have hlt := (hs.seated.placed x n hn).1
  have hsmt : r < (a.apply s).heap.size ∧ ((a.apply s).heap.label r).cls = .smt := by
    rw [hg.label r hs.smt.1]
    exact ⟨Nat.lt_of_lt_of_le hs.smt.1 hg.size, hs.smt.2⟩
  -- whatever is neither a move of `x` nor takes it away leaves the machine as it is
  have stays : ∀ k, ((a.apply s).solver x).node = some n → (a.apply s).sent = s.sent ++ k →
      commands x k = [] → Loaded x r l₀ (a.apply s) := by
    intro k hn' hk hcmd
    refine ⟨hs.seated.act a hen, hsmt, n, l ++ k, hn', (hg.root n hlt).trans hroot, ?_, ?_⟩
    · rw [hk, hsent, List.append_assoc]
    · rw [commands_append, hcmd, List.append_nil, hexec, hg.stack hlt]
  have other : ∀ {y : SockId} {d : SolverData}, y ≠ x →
      (Function.update s.solver y d x).node = some n := by
    intro y d hy
    rw [Function.update_of_ne (Ne.symm hy)]
    exact hn
  cases a with
  | quiet => exact hs
  | solve y m sent =>
    obtain ⟨parameters, rfl⟩ := hc
    have hy : y ≠ x := by
      rintro rfl
      exact hk.2 m parameters rfl
    refine stays sent.toList (other hy) rfl ?_
    cases sent with
    | none => rfl
    | some msg =>
      rw [Option.toList_some]
      exact commands_other ((hen.2.2 msg rfl).sock ▸ hy)
  | move y m msg =>
    obtain ⟨hlm, b, hb, hmsg⟩ := hen
    by_cases hy : y = x
    · subst hy
      rw [hn, Option.some.injEq] at hb
      subst hb
      obtain ⟨query, hscript⟩ := hmsg.script
      rw [hroot] at hscript
      obtain ⟨hrm, hmove⟩ := exec_move hs.smt.2 hp (hs.seated.placed y n hn) hlm hroot hscript
      refine ⟨hs.seated.act _ ⟨hlm, n, hn, hmsg⟩, hsmt, m, l ++ [msg], ?_, hrm, ?_, ?_⟩
      · simp [Act.apply, State.modifySolver]
      · simp only [Act.apply]
        rw [hsent, List.append_assoc]
      · have hplaces : msg.places = true := by simp [Sent.places, hmsg.command]
        rw [commands_append, commands_own hmsg.sock hplaces, Stack.exec_append, hexec]
        exact hmove
    · exact stays [msg] (other hy) rfl (commands_other (hmsg.sock ▸ hy))
  | leave y =>
    have hy : y ≠ x := by
      rintro rfl
      rcases hc with rfl | ⟨m, parameters, rfl⟩
      · exact hk.1 rfl
      · exact hk.2 m parameters rfl
    exact stays [] (other hy) (List.append_nil _).symm rfl
  | ask y m =>
    refine stays [] ?_ (List.append_nil _).symm rfl
    by_cases hy : y = x
    · simpa [Act.apply, State.modifySolver, hy] using hn
    · exact other hy
  | report y m status =>
    refine stays [] ?_ (List.append_nil _).symm rfl
    by_cases hy : y = x
    · simpa [Act.apply, State.modifySolver, hy] using hn
    · exact other hy
  | reply y o partitions =>
    refine stays [] ?_ (List.append_nil _).symm rfl
    by_cases hy : y = x
    · simpa [Act.apply, State.modifySolver, hy] using hn
    · exact other hy
  | _ => exact hc.elim

/-- What a run of actions adds to the trees. -/
theorem Path.grows {G : Act → State → Prop} (hG : ∀ a s, G a s → a.Enabled s) (h : Path G s t)
    (hs : Seated s) : Seated t ∧ s.heap.Grows t.heap := by
  refine h.invariant (I := fun u => Seated u ∧ s.heap.Grows u.heap) ?_ ?_ ⟨hs, .refl _⟩
  · exact fun u v q hu => ⟨hu.1.quiet q, hu.2.trans (.of_eq q.heap.forest q.heap.label)⟩
  · exact fun a u ha hu => ⟨hu.1.act a (hG a u ha), hu.2.trans (hu.1.grows a (hG a u ha))⟩

theorem OpRun.grows {G : Op → State → Prop} (h : OpRun G s t) (hs : Seated s) :
    Seated t ∧ s.heap.Grows t.heap := by
  induction h with
  | refl => exact ⟨hs, .refl _⟩
  | tail _ hstep ih =>
    obtain ⟨op, ha, _, rfl⟩ := hstep
    have := (op.path ha).grows (fun a u hc => hc.1) ih.1
    exact ⟨this.1, ih.2.trans this.2⟩

theorem Loaded.path {l₀ : List Sent} {op : Op} {s₀ : State} (hk : op.Keeps x)
    (h : Path (op.Causes s₀) s t) (hp : t.heap.PlainTree r) (hs : Loaded x r l₀ s) :
    Loaded x r l₀ t := by
  induction h with
  | refl => exact hs
  | @tail u v hpath hstep ih =>
    obtain ⟨a, ha, hq⟩ := hstep
    have hu := (Path.grows (fun a u hc => hc.1) hpath hs.seated).1
    have hav : (a.apply u).heap.Grows v.heap := .of_eq hq.heap.forest hq.heap.label
    have hpa := hav.plainTree hp
    exact (Loaded.act hk ha hpa (ih ((hu.grows a ha.1).plainTree hpa))).quiet hq

theorem Loaded.run {l₀ : List Sent} (h : OpRun (fun op _ => op.Keeps x) s t)
    (hp : t.heap.PlainTree r) (hs : Loaded x r l₀ s) : Loaded x r l₀ t := by
  induction h with
  | refl => exact hs
  | tail hrun hstep ih =>
    obtain ⟨op, ha, hk, rfl⟩ := hstep
    have hu := (OpRun.grows hrun hs.seated).1
    have hg := ((op.path ha).grows (fun a u hc => hc.1) hu).2
    exact Loaded.path hk (op.path ha) hp (ih (hg.plainTree hp))

theorem Loaded.rebase {l₀ k : List Sent} (hk : commands x k = [])
    (hs : Loaded x r (l₀ ++ k) s) : Loaded x r l₀ s := by
  obtain ⟨n, l, hn, hroot, hsent, hexec⟩ := hs.stack
  refine ⟨hs.seated, hs.smt, n, k ++ l, hn, hroot, by rw [hsent, List.append_assoc], ?_⟩
  rw [commands_append, hk, List.nil_append, hexec]

/-- A free solver that was given a node has loaded its script. -/
theorem Loaded.assigned {n : Nat} (parameters : Header) (hs : Seated s)
    (hfree : (s.solver x).node = none) (hn : s.heap.Listed n)
    (hsmt : (s.heap.label (s.heap.root n)).cls = .smt) (hp : s.heap.PlainTree (s.heap.root n)) :
    wp (Solver.assign x n parameters) (fun _ t => Loaded x (s.heap.root n) s.sent t)
      (fun _ _ => True) s := by
  refine Solver.wp_assign (fun m t hm hq => ?_) fun _ _ _ _ => trivial
  have hen : (Act.solve x n (some m)).Enabled s :=
    ⟨hfree, hn, fun m' hm' => by cases hm'; exact hm⟩
  refine Loaded.quiet hq ⟨hs.act _ hen, ⟨Nat.lt_of_le_of_lt (Forest.Reaches.le hn.2.2) hn.1, hsmt⟩,
    n, [m], by simp [Act.apply, State.modifySolver], rfl, rfl, ?_⟩
  obtain ⟨query, hscript⟩ := hm.script
  obtain ⟨script, hscript', hexec⟩ := exec_scratch hsmt hp hn rfl
  rw [hscript, Except.ok.injEq, Prod.mk.injEq] at hscript'
  have hplaces : m.places = true := by simp [Sent.places, hm.command]
  rw [commands_own hm.sock hplaces, hscript'.1]
  exact hexec

/-- A solve that returned has loaded the script of the node. -/
theorem Loaded.solved {n : Nat} {parameters : Header} (hs : Seated s) (hn : s.heap.Listed n)
    (hsmt : (s.heap.label (s.heap.root n)).cls = .smt) (hp : s.heap.PlainTree (s.heap.root n))
    (h : Solver.solve x n parameters s = (.ok (), t)) :
    Loaded x (s.heap.root n) s.sent t := by
  refine wp_ok (Q := fun _ t => Loaded x (s.heap.root n) s.sent t) (E := fun _ _ => True)
    (Solver.wp_solve (fun hfree => ?_) fun a _ => ?_) h
  · exact Loaded.assigned parameters hs hfree hn hsmt hp
  · rw [wp_bind]
    refine Solver.wp_stop (fun _ => trivial) (fun _ u _ hq => ?_) fun _ _ _ _ _ _ => trivial
    have hu := (hs.act (.leave x) trivial).quiet hq
    have hfree : (u.solver x).node = none := by
      rw [hq.node]
      simp [Act.apply, State.modifySolver, Solver.reset]
    have hg : s.heap.Grows u.heap := .of_eq hq.heap.forest hq.heap.label
    have hback : u.heap.Grows s.heap := .of_eq hq.heap.forest.symm hq.heap.label.symm
    have hroot := hg.root n hn.1
    have hlabel : u.heap.label = s.heap.label := hq.heap.label
    obtain ⟨k, hk, hquiet⟩ := hq.sent
    have := Loaded.assigned parameters hu hfree (hg.listed hn)
      (by rw [hroot, hlabel]; exact hsmt) (by rw [hroot]; exact hback.plainTree hp)
    refine wp_mono this (fun _ v hv => ?_) fun _ _ _ => trivial
    rw [hroot, hk] at hv
    exact hv.rebase (commands_quiet hquiet)

/-- After a solve, whatever moves follow while the tree grows, the machine that
reads the transmitted scripts is where a machine is that reads the script of the
solver's node from scratch. -/
theorem incremental_scratch {n : Nat} {parameters : Header} {s₀ s₁ s₂ s₃ : State}
    (opened : Opened r s₀) (before : OpRun (fun _ _ => True) s₀ s₁)
    (listed : s₁.heap.Listed n) (root : s₁.heap.root n = r)
    (solved : Solver.solve x n parameters s₁ = (.ok (), s₂))
    (run : OpRun (fun op _ => op.Keeps x) s₂ s₃) (plain : s₃.heap.PlainTree r) :
    ∃ m script l, (s₃.solver x).node = some m ∧ s₃.sent = s₁.sent ++ l ∧
      s₃.heap.toString r m none = .ok (script, Constant.checkSat) ∧
      ∃ stack, Stack.empty.exec (commands x l) = some stack ∧
        Stack.empty.exec (interpret script) = some stack := by
  obtain ⟨hseat, hg⟩ := before.grows opened.seated
  have hsmt : (s₁.heap.label r).cls = .smt := by
    rw [hg.label r opened.lt]
    exact opened.smt
  have hstep : (Op.run (.solve x n parameters) s₁).2 = s₂ := congrArg Prod.snd solved
  have hpath := ((Op.solve x n parameters).path (s := s₁) listed).grows (fun a u hc => hc.1) hseat
  rw [hstep] at hpath
  have hp₂ := (run.grows hpath.1).2.plainTree plain
  have hloaded := Loaded.solved hseat listed (root ▸ hsmt)
    (root ▸ hpath.2.plainTree hp₂) solved
  rw [root] at hloaded
  have hfinal := hloaded.run run plain
  obtain ⟨m, l, hm, hroot, hsent, hexec⟩ := hfinal.stack
  obtain ⟨script, hscript, hscratch⟩ := exec_scratch hfinal.smt.2 plain
    (hfinal.seated.placed x m hm) hroot
  exact ⟨m, script, l, hm, hsent, hscript, _, hexec, hscratch⟩

/-- One instance, one solver: the root is split and the solver moves to the second
of the two partitions. -/
theorem incremental_scratch_split :
    let s₀ := State.single "a" "(declare)"
    let s₁ := (Solver.solve 0 0 [] s₀).2
    let s₂ := ((Op.askPartitions 0 2).run s₁).2
    let s₃ := ((Op.read 0 [("report", "partitions"), ("name", "a"), ("node", "[]")]
      (some "p\x00q")).run s₂).2
    let s₄ := ((Op.incremental 0 3).run s₃).2
    ∃ m script l, (s₄.solver 0).node = some m ∧ s₄.sent = s₀.sent ++ l ∧
      s₄.heap.toString 0 m none = .ok (script, Constant.checkSat) ∧
      ∃ stack, Stack.empty.exec (commands 0 l) = some stack ∧
        Stack.empty.exec (interpret script) = some stack := by
  intro s₀ s₁ s₂ s₃ s₄
  have solved : Solver.solve 0 0 [] s₀ = (.ok (), s₁) := Prod.ext (by decide) rfl
  refine incremental_scratch (opened_single "a" "(declare)") .refl ?_ rfl solved ?_ ?_
  · exact ⟨by decide, by decide, Forest.attached_of_none rfl⟩
  · refine .tail (.tail (.single ⟨.askPartitions 0 2, trivial, ?_, rfl⟩)
      ⟨.read 0 _ _, trivial, ?_, rfl⟩) ⟨.incremental 0 3, ?_, ?_, rfl⟩
    · exact ⟨fun h => (by cases h), fun _ _ h => (by cases h)⟩
    · exact ⟨fun h => (by cases h), fun _ _ h => (by cases h)⟩
    · have h₁ : 1 ∈ s₃.heap.children 0 := by decide
      have h₃ : 3 ∈ s₃.heap.children 1 := by decide
      have hr : s₃.heap.root 3 = 0 := by decide
      refine ⟨by decide, by decide, ?_⟩
      rw [Forest.Attached, hr]
      exact (Forest.Reaches.of_mem h₁).child h₃
    · exact ⟨fun h => (by cases h), fun _ _ h => (by cases h)⟩
  · have hplain : ∀ m, m < 4 → s₄.heap.root m = 0 → Plain (s₄.heap.label m).smt := by decide
    have hsize : s₄.heap.size = 4 := by decide
    exact fun m hm => hplain m (hsize ▸ hm)

end Runs

end Smts.Server
