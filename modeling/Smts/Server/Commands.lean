import Smts.Net.RoundTrip
import Smts.Server.TreeLaws

namespace Smts.Server

open Smts.Lib

/-- What one byte for the length allows. -/
def Short (v : String) : Prop := v.utf8ByteSize ≤ 255

instance : DecidablePred Short := fun _ => inferInstanceAs (Decidable (_ ≤ _))

namespace Header

variable {h l : Header} {k v : String} {e : String × String}

/-- Every key and every value can be packed. -/
def Encodable (h : Header) : Prop := ∀ e ∈ h, Net.Fits e

instance : DecidablePred Encodable := fun h => inferInstanceAs (Decidable (∀ e ∈ h, _))

theorem fits_iff (h : Header) (payload : String) :
    h.fits payload = true ↔ Net.Encodable ⟨h, utf8 payload⟩ := by
  have hsize : (h.map fun e => e.1.utf8ByteSize + e.2.utf8ByteSize + 2) =
      h.map fun e => 2 + e.1.utf8ByteSize + e.2.utf8ByteSize :=
    List.map_congr_left fun e _ => by omega
  have hfits (e : String × String) :
      (e.1 ≠ "" && decide (e.1.utf8ByteSize < 256) && decide (e.2.utf8ByteSize < 256)) = true ↔
        Net.Fits e := by
    have hne : e.1 ≠ "" ↔ 1 ≤ e.1.utf8ByteSize := by
      rw [Ne, ← String.utf8ByteSize_eq_zero_iff]
      omega
    simp only [Bool.and_eq_true, decide_eq_true_eq, hne, Net.Fits]
    omega
  rw [fits, Bool.and_eq_true, List.all_eq_true, decide_eq_true_eq, hsize]
  constructor
  · rintro ⟨hall, hlt⟩
    refine ⟨fun e he => (hfits e).mp (hall e he), ?_⟩
    rwa [Net.Message.size, length_utf8]
  · rintro ⟨hall, hlt⟩
    rw [Net.Message.size, length_utf8] at hlt
    exact ⟨fun e he => (hfits e).mpr (hall e he), hlt⟩

theorem encodable_cons : Encodable (e :: h) ↔ Net.Fits e ∧ Encodable h := List.forall_mem_cons

theorem encodable_append : Encodable (h ++ l) ↔ Encodable h ∧ Encodable l :=
  List.forall_mem_append

theorem mem_set_self : (k, v) ∈ set h k v := by
  rw [set]
  split
  · next hk =>
    obtain ⟨w, hw⟩ := Option.isSome_iff_exists.mp hk
    obtain ⟨l₁, l₂, rfl, -⟩ := List.lookup_eq_some_iff.mp hw
    simp
  · simp

theorem mem_set_of_ne (he : e ∈ h) (hk : e.1 ≠ k) : e ∈ set h k v := by
  rw [set]
  split
  · exact List.mem_map.mpr ⟨e, he, if_neg hk⟩
  · exact List.mem_append_left _ he

theorem of_mem_set (he : e ∈ set h k v) : e ∈ h ∨ e = (k, v) := by
  rw [set] at he
  split at he
  · obtain ⟨e', he', rfl⟩ := List.mem_map.mp he
    split
    · exact .inr rfl
    · exact .inl he'
  · simpa using he

theorem of_mem_update (he : e ∈ update h l) : e ∈ h ∨ e ∈ l := by
  induction l generalizing h with
  | nil => exact .inl he
  | cons e' l ih =>
    rcases ih he with he | he
    · rcases of_mem_set he with he | rfl
      · exact .inl he
      · exact .inr List.mem_cons_self
    · exact .inr (List.mem_cons_of_mem _ he)

theorem mem_update_of_notMem (he : e ∈ h) (hk : e.1 ∉ l.map Prod.fst) : e ∈ update h l := by
  induction l generalizing h with
  | nil => exact he
  | cons e' l ih =>
    rw [List.map_cons, List.mem_cons, not_or] at hk
    exact ih (mem_set_of_ne he hk.1) hk.2

theorem mem_update (hn : (l.map Prod.fst).Nodup) (he : e ∈ l) : e ∈ update h l := by
  induction l generalizing h with
  | nil => exact nomatch he
  | cons e' l ih =>
    rw [List.map_cons, List.nodup_cons] at hn
    rcases List.mem_cons.mp he with rfl | he
    · exact mem_update_of_notMem (l := l) mem_set_self hn.1
    · exact ih hn.2 he

/-- What is set on top of entries that fit decides. -/
theorem encodable_update (hh : Encodable h) (hn : (l.map Prod.fst).Nodup) :
    Encodable (update h l) ↔ Encodable l :=
  ⟨fun hu e he => hu e (mem_update hn he),
    fun hl e he => (of_mem_update he).elim (hh e) (hl e)⟩

end Header

namespace Solver

/-- What `stop` writes. -/
def stopHeader (s : State) (n : NodeId) : Header := header s Constant.stop n

/-- What `solve` writes. -/
def solveHeader (s : State) (n : NodeId) (parameters : Header) (query : String) : Header :=
  Header.update parameters (header s Constant.solve n ++
    [(Constant.query, query), (Constant.maxMemory, toString s.config.maxMemory)])

/-- What `incremental` writes to a solver on `n` that goes to `node`. -/
def incrementalHeader (s : State) (n node : NodeId) (query : String) : Header :=
  header s Constant.incremental n ++
    [(Constant.node_, render (s.heap.path node)), (Constant.query, query)]

/-- What `ask_partitions` writes. -/
def partitionHeader (s : State) (n : NodeId) (k : Nat) : Header :=
  header s Constant.partition n ++
    [(Constant.query, Constant.checkSat), (Constant.partitions, toString k)]

theorem stop_eq (self : SockId) : stop self = (do
    let s ← get
    match (s.solver self).node with
    | none => raise .valueError
    | some n =>
      modifySolver self reset
      write self (stopHeader s n) "" (some n)) := rfl

theorem assign_eq (self : SockId) (node : NodeId) (parameters : Header) :
    assign self node parameters = (do
      modifySolver self fun d => { d with node := some node, parameters := parameters }
      let s ← get
      let (smt, query) ← ofExcept (s.heap.toString (s.heap.root node) node none)
      write self (solveHeader s node parameters query) smt (some node)
      let t ← now
      modifySolver self fun d => { d with started := some t }
      markStarted node) := rfl

theorem incremental_eq (self : SockId) (node : NodeId) : incremental self node = (do
    let s ← get
    match (s.solver self).node with
    | none => raise .attributeError
    | some n =>
      let (smt, query) ← ofExcept (s.heap.toString (s.heap.root n) node (some n))
      write self (incrementalHeader s n node query) smt (some node)
      modifySolver self fun d => { d with orWaiting := [] }
      let t ← now
      modifySolver self fun d => { d with started := some t }
      markStarted node
      modifySolver self fun d => { d with node := some node }) := rfl

theorem askPartitions_eq (self : SockId) (k : Nat) : askPartitions self k = (do
    modifyConfig fun c => { c with partitionCount := c.partitionCount + k }
    let s ← get
    match (s.solver self).node with
    | none => raise .valueError
    | some n =>
      write self (partitionHeader s n k) "" (some n)
      let s ← get
      let (o, h) ← ofExcept (s.heap.newOr n)
      modify fun s => { s with heap := h }
      modifyNode n fun a => { a with partitioning := true }
      modifySolver self fun d => { d with orWaiting := d.orWaiting ++ [o] }) := rfl

end Solver

section Encoding

variable {s : State} {n m : NodeId} {command query : String}

/-- The text that names a node in a command. -/
def State.pathText (s : State) (n : NodeId) : String := render (s.heap.path n)

theorem fits_key {k v : String} (hk : 1 ≤ k.utf8ByteSize ∧ Short k) :
    Net.Fits (k, v) ↔ Short v :=
  ⟨fun h => h.2.2, fun h => ⟨hk.1, hk.2, h⟩⟩

theorem encodable_pair {k₁ k₂ v₁ v₂ : String} (h₁ : 1 ≤ k₁.utf8ByteSize ∧ Short k₁)
    (h₂ : 1 ≤ k₂.utf8ByteSize ∧ Short k₂) :
    Header.Encodable [(k₁, v₁), (k₂, v₂)] ↔ Short v₁ ∧ Short v₂ := by
  simp only [Header.encodable_cons, fits_key h₁, fits_key h₂]
  exact ⟨fun h => ⟨h.1, h.2.1⟩, fun h => ⟨h.1, h.2, fun _ he => nomatch he⟩⟩

theorem encodable_header (fixed : Short command) (name : Short (s.heap.label (s.heap.root n)).name) :
    (Solver.header s command n).Encodable ↔ Short (s.pathText n) := by
  have hcommand : Net.Fits (Constant.command, command) := (fits_key (by decide)).mpr fixed
  rw [Solver.header, Header.encodable_cons, encodable_pair (by decide) (by decide)]
  exact ⟨fun h => h.2.2, fun h => ⟨hcommand, name, h⟩⟩

theorem toString_query {h : Heap} {r node : NodeId} {start : Option NodeId} {smt : String}
    (hr : (h.label r).cls = .smt) (ht : h.toString r node start = .ok (smt, query)) :
    query = Constant.checkSat := by
  have collected {top : Option NodeId} {pops : Nat} (hc : (do
      let smt ← SMT.collect h r top (node + 1) (some node)
      return ("\n".intercalate (smt ++ List.replicate pops Constant.pop).reverse,
        Constant.checkSat)) = Except.ok (smt, query)) : query = Constant.checkSat := by
    cases hs : SMT.collect h r top (node + 1) (some node) with
    | error e => rw [hs] at hc; exact nomatch hc
    | ok texts => rw [hs] at hc; cases hc; rfl
  rw [Heap.toString, hr] at ht
  cases start with
  | none => exact collected ht
  | some n =>
    simp only [SMT.toString] at ht
    cases hclimb : SMT.climb h node n n with
    | error e => rw [hclimb] at ht; exact nomatch ht
    | ok top => rw [hclimb] at ht; exact collected ht

/-- A command can be sent if and only if the texts of the nodes it names are short;
the query is, unless the instance is a set of Horn clauses. -/
theorem commands_encodable (s : State) (n m : NodeId) (parameters : Header) (query : String)
    (k : Nat) (name : Short (s.heap.label (s.heap.root n)).name) (given : parameters.Encodable)
    (memory : Short (toString s.config.maxMemory)) (count : Short (toString k)) :
    ((Solver.stopHeader s n).Encodable ↔ Short (s.pathText n)) ∧
    ((Solver.partitionHeader s n k).Encodable ↔ Short (s.pathText n)) ∧
    ((Solver.solveHeader s n parameters query).Encodable ↔
      Short (s.pathText n) ∧ Short query) ∧
    ((Solver.incrementalHeader s n m query).Encodable ↔
      Short (s.pathText n) ∧ Short (s.pathText m) ∧ Short query) ∧
    ((s.heap.label (s.heap.root n)).cls = .smt → ∀ node start smt,
      s.heap.toString (s.heap.root n) node start = .ok (smt, query) → Short query) := by
  refine ⟨encodable_header (by decide) name, ?_, ?_, ?_, fun hr node start smt ht => ?_⟩
  · rw [Solver.partitionHeader, Header.encodable_append, encodable_header (by decide) name,
      encodable_pair (by decide) (by decide)]
    exact ⟨And.left, fun h => ⟨h, by decide, count⟩⟩
  · have hkeys : ((Solver.header s Constant.solve n ++ [(Constant.query, query),
        (Constant.maxMemory, toString s.config.maxMemory)]).map Prod.fst).Nodup := by
      simp only [Solver.header, List.map_append, List.map_cons, List.map_nil]
      decide
    rw [Solver.solveHeader, Header.encodable_update given hkeys, Header.encodable_append,
      encodable_header (by decide) name, encodable_pair (by decide) (by decide)]
    exact ⟨fun h => ⟨h.1, h.2.1⟩, fun h => ⟨h.1, h.2, memory⟩⟩
  · rw [Solver.incrementalHeader, Header.encodable_append, encodable_header (by decide) name,
      encodable_pair (by decide) (by decide)]
    rfl
  · rw [toString_query hr ht]
    decide

/-- The root is split, and so is its second partition. -/
def nested : Heap :=
  let h := (Heap.empty.addRoot { cls := .smt, name := "a" }).2
  match h.newOr 0 with
  | .error _ => h
  | .ok (o, h) =>
    let h := (h.addAnds o ["(assert p)", "(assert (not p))"]).2
    match h.newOr 3 with
    | .error _ => h
    | .ok (o, h) => (h.addAnds o ["(assert q)", "(assert (not q))"]).2

theorem commands_encodable_nested :
    let s : State := { world := { env := .steady }, heap := nested }
    s.pathText 6 = "[0, 1, 0, 1]" ∧
      (Solver.solveHeader s 6 [("OpenSMT2.seed", "1")] Constant.checkSat).Encodable ∧
      (Solver.incrementalHeader s 6 2 Constant.checkSat).Encodable := by
  intro s
  have h := commands_encodable s 6 2 [("OpenSMT2.seed", "1")] Constant.checkSat 2
    (by decide +kernel) (by decide) (by decide) (by decide)
  exact ⟨by decide +kernel, h.2.2.1.mpr ⟨by decide +kernel, by decide⟩,
    h.2.2.2.1.mpr ⟨by decide +kernel, by decide +kernel, by decide⟩⟩

end Encoding

section Depth

open String (intercalate)

theorem three_mul_length_le_render (xs : List Nat) :
    3 * xs.length ≤ (render xs).utf8ByteSize := by
  have hjoin (x : Nat) (xs : List Nat) :
      3 * xs.length + 1 ≤ (intercalate ", " ((x :: xs).map toString)).utf8ByteSize := by
    have hpos (x : Nat) : 1 ≤ (toString x).utf8ByteSize := by
      rw [Nat.one_le_iff_ne_zero, Ne, String.utf8ByteSize_eq_zero_iff]
      exact Nat.repr_ne_empty
    induction xs generalizing x with
    | nil => simpa using hpos x
    | cons y xs ih =>
      have := ih y
      have := hpos x
      have hsep : (", " : String).utf8ByteSize = 2 := by decide
      rw [List.map_cons, List.map_cons, String.intercalate_cons_cons, ← List.map_cons,
        String.utf8ByteSize_append, String.utf8ByteSize_append, hsep, List.length_cons]
      omega
  have hopen : ("[" : String).utf8ByteSize = 1 := by decide
  have hclose : ("]" : String).utf8ByteSize = 1 := by decide
  rw [render, String.utf8ByteSize_append, String.utf8ByteSize_append, hopen, hclose]
  cases xs with
  | nil => exact Nat.zero_le _
  | cons x xs =>
    have := hjoin x xs
    rw [List.length_cons]
    omega

namespace Heap

/-- The trees that requests and replies make of an instance. -/
inductive Built (l : Label) : Heap → Prop
  | root : Built l (empty.addRoot l).2
  | ask {h : Heap} {n : NodeId} : Built l h → n < h.size → h.isAnd n = true → Built l (h.ask n)
  | reply {h : Heap} {o : NodeId} (partitions : Option (List String)) : Built l h → o < h.size →
      h.isOr o = true → h.children o = [] → Built l (h.reply o partitions)

/-- One request for the node, answered with one partition. -/
def deepen (h : Heap) (n : NodeId) : Heap × NodeId :=
  ((h.ask n).reply h.size (some ["true"]), h.size + 1)

/-- An instance that was split `d` times. -/
def chain (l : Label) : Nat → Heap × NodeId
  | 0 => ((empty.addRoot l).2, 0)
  | d + 1 => (chain l d).1.deepen (chain l d).2

theorem length_path {h : Heap} {n : NodeId} (ha : h.Attached n) :
    (h.path n).length + 1 = (h.lineage n).length := by
  induction n using Nat.strongRecOn with
  | ind n ih =>
    cases hp : h.parent n with
    | none =>
      rw [path_none (truthyParent_of_none hp), Forest.lineage_none hp]
      rfl
    | some p =>
      rw [path_child (ha.mem_of_parent hp), Forest.lineage_some hp, List.length_append,
        @List.length_cons _ _ (h.lineage p), ← ih p (h.parent_lt hp) (ha.parent hp)]
      rfl

/-- A node that can be split once more. -/
structure Tip (l : Label) (h : Heap) (n : NodeId) (depth : Nat) : Prop where
  built : h.Built l
  lt : n < h.size
  isAnd : h.isAnd n = true
  attached : h.Attached n
  root : h.root n = 0
  label : h.label 0 = l
  unknown : h.status n = .unknown
  length : (h.lineage n).length = 2 * depth + 1

theorem Tip.deepen {l : Label} {h : Heap} {n : NodeId} {d : Nat} (ht : Tip l h n d) :
    Tip l (h.deepen n).1 (h.deepen n).2 (d + 1) := by
  have hsize : (h.ask n).size = h.size + 1 := by
    rw [ask_forest ht.lt ht.isAnd]
    rfl
  have ho : h.size < (h.ask n).size := hsize ▸ Nat.lt_succ_self _
  have hor : (h.ask n).isOr h.size = true := by
    rw [isOr, ask_label ht.lt ht.isAnd, Function.update_self]
    rfl
  have hoc : (h.ask n).children h.size = [] := by
    rw [ask_forest ht.lt ht.isAnd]
    exact (Function.update_of_ne (Nat.ne_of_gt ht.lt) _ _).trans (h.children_of_size_le (Nat.le_refl _))
  have hop : (h.ask n).parent h.size = some n := by
    rw [ask_forest ht.lt ht.isAnd]
    exact Function.update_self _ _ _
  have hgrow := (ask_grows ht.lt ht.isAnd).trans (reply_grows ho hor hoc (some ["true"]))
  have hlt : n < (h.ask n).size := Nat.lt_trans ht.lt ho
  rcases reply_cases ho hor (some ["true"]) with ⟨hnone, _⟩ | ⟨ps, g, hps, hf, hg⟩
  · exact nomatch hnone
  obtain rfl := Option.some.inj hps
  have hkeep : (h.ask n).reply h.size (some ["true"]) = g := by
    refine hg.elim (fun ⟨p, hp, hs, _⟩ => absurd ?_ hs) And.right
    obtain rfl := Option.some.inj (hop.symm.trans hp)
    rw [status, hf.old _ hlt, ← status, ask_status ht.lt ht.isAnd, if_neg (Nat.ne_of_lt ht.lt),
      ht.unknown]
  have hpar : g.parent (h.size + 1) = some h.size := hsize ▸ hf.parent 0 (by decide)
  have hmem : h.size + 1 ∈ g.children h.size := by
    rw [hf.children, hoc, hsize]
    exact List.mem_singleton_self _
  have hopar : g.parent h.size = some n := (hf.grows.parent _ ho).trans hop
  have homem : h.size ∈ g.children n := by
    rw [hf.others n (Nat.ne_of_lt ht.lt), ask_forest ht.lt ht.isAnd]
    simp [Forest.addChild]
  rw [hkeep] at hgrow
  have hattached : g.Attached (h.size + 1) :=
    ((hgrow.attached ht.lt ht.attached).child homem).child hmem
  have hroot : g.root (h.size + 1) = 0 := by
    rw [g.root_of_parent hpar, g.root_of_parent hopar, hgrow.root n ht.lt, ht.root]
  have hpos : 0 < h.size := Nat.lt_of_le_of_lt (Nat.zero_le n) ht.lt
  show Tip l ((h.ask n).reply h.size (some ["true"])) (h.size + 1) (d + 1)
  rw [hkeep]
  exact {
    built := hkeep ▸ .reply _ (.ask ht.built ht.lt ht.isAnd) ho hor hoc
    lt := by
      rw [hf.size, hsize, List.length_map, List.length_singleton]
      exact Nat.lt_succ_self _
    isAnd := by rw [isAnd_of_parent hpar, hf.grows.isOr ho, hor]
    attached := hattached
    root := hroot
    label := (hgrow.label 0 hpos).trans ht.label
    unknown := by
      have := hf.new 0 (by decide)
      rw [hsize] at this
      exact congrArg Attrs.status this
    length := by
      rw [Forest.lineage_some hpar, Forest.lineage_some hopar, hgrow.lineage ht.lt,
        List.length_cons, List.length_cons, ht.length]
      omega }

theorem chain_tip (l : Label) (hl : l.cls ≠ .orNode) (d : Nat) :
    Tip l (chain l d).1 (chain l d).2 d := by
  induction d with
  | zero =>
    exact {
      built := .root
      lt := Nat.zero_lt_one
      isAnd := by simpa [chain, addRoot, isAnd, isOr, empty, Forest.empty] using hl
      attached := Forest.attached_of_none rfl
      root := rfl
      label := rfl
      unknown := rfl
      length := congrArg List.length (Forest.lineage_none rfl) }
  | succ d ih => exact ih.deepen

end Heap

theorem not_short_of_tip {s : State} {l : Label} {n : NodeId} {d : Nat}
    (ht : Heap.Tip l s.heap n d) (hd : 43 ≤ d) : ¬ Short (s.pathText n) := by
  have hlength := Heap.length_path ht.attached
  rw [ht.length] at hlength
  have := three_mul_length_le_render (s.heap.path n)
  rw [Short, State.pathText]
  omega

/-- No command about a node below forty-three splits can be sent. -/
theorem refused_of_tip {s : State} {l : Label} {n : NodeId} {d : Nat}
    (ht : Heap.Tip l s.heap n d) (hd : 43 ≤ d) :
    ¬ (Solver.stopHeader s n).Encodable ∧ ¬ (Solver.partitionHeader s n 2).Encodable ∧
      ¬ (Solver.solveHeader s n [] Constant.checkSat).Encodable ∧
      ¬ (Solver.incrementalHeader s 0 n Constant.checkSat).Encodable := by
  have hlong := not_short_of_tip ht hd
  have refused {h : Header} {k : String} (he : (k, s.pathText n) ∈ h) : ¬ h.Encodable :=
    fun hfits => hlong (hfits _ he).2.2
  refine ⟨refused (k := Constant.node) ?_, refused (k := Constant.node) ?_,
    refused (k := Constant.node) ?_, refused (k := Constant.node_) ?_⟩
  · simp [Solver.stopHeader, Solver.header, State.pathText]
  · simp [Solver.partitionHeader, Solver.header, State.pathText]
  · refine Header.mem_update ?_ ?_
    · simp only [Solver.header, List.map_append, List.map_cons, List.map_nil]
      decide
    · simp [Solver.header, State.pathText]
  · simp [Solver.incrementalHeader, State.pathText]

/-- The deepest node after forty-three splits: no command about it can be sent. -/
theorem commands_too_deep :
    let c := Heap.chain { cls := .smt, name := "a.smt2" } 43
    let s : State := { world := { env := .steady }, heap := c.1 }
    s.heap.Built { cls := .smt, name := "a.smt2" } ∧ s.heap.isAnd c.2 = true ∧
      Short (s.heap.label (s.heap.root c.2)).name ∧
      ¬ (Solver.stopHeader s c.2).Encodable ∧ ¬ (Solver.partitionHeader s c.2 2).Encodable ∧
      ¬ (Solver.solveHeader s c.2 [] Constant.checkSat).Encodable ∧
      ¬ (Solver.incrementalHeader s 0 c.2 Constant.checkSat).Encodable := by
  intro c
  have ht : Heap.Tip { cls := .smt, name := "a.smt2" } c.1 c.2 43 :=
    Heap.chain_tip _ (by decide) 43
  clear_value c
  have hname : Short (c.1.label (c.1.root c.2)).name := by
    rw [ht.root, ht.label]
    decide
  exact ⟨ht.built, ht.isAnd, hname, refused_of_tip ht (Nat.le_refl 43)⟩

end Depth

end Smts.Server
