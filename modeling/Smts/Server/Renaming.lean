import Smts.Lib.Embedding
import Smts.Server.TreeLaws

namespace Smts.Server.Heap

open Smts.Lib

/-- The trees of `h` are among those of `g`, under the names that `f` gives to their
nodes. -/
structure Embeds (f : Nat → Nat) (h g : Heap) : Prop
    extends Forest.Embeds f h.toForest g.toForest where
  label : ∀ n, n < h.size → g.label (f n) = h.label n
  attrs : ∀ n, n < h.size → g.attrs (f n) = h.attrs n

namespace Embeds

variable {f : Nat → Nat} {h g : Heap} {n : Nat}

theorem refl (h : Heap) : h.Embeds id h where
  toEmbeds := .refl _
  label _ _ := rfl
  attrs _ _ := rfl

section Reading

theorem len (e : Embeds f h g) (n : Nat) : g.len (f n) = h.len n := by
  rw [Heap.len, Heap.len, e.children, List.length_map]

theorem status (e : Embeds f h g) (hn : n < h.size) : g.status (f n) = h.status n := by
  rw [Heap.status, Heap.status, e.attrs n hn]

theorem isAnd (e : Embeds f h g) (hn : n < h.size) : g.isAnd (f n) = h.isAnd n := by
  rw [Heap.isAnd, Heap.isAnd, Heap.isOr, Heap.isOr, e.label n hn]

theorem children_eq_nil (e : Embeds f h g) (n : Nat) :
    g.children (f n) = [] ↔ h.children n = [] := by
  rw [e.children, List.map_eq_nil_iff]

theorem truthyParent (e : Embeds f h g) (n : Nat) :
    g.truthyParent (f n) = (h.truthyParent n).map f := by
  rw [Heap.truthyParent, Heap.truthyParent, e.parent]
  cases h.parent n with
  | none => rfl
  | some p => by_cases hp : h.children p = [] <;> simp [Option.filter, e.children, hp]

theorem idxOf (e : Embeds f h g) (c : Nat) (l : List Nat) : (l.map f).idxOf (f c) = l.idxOf c := by
  induction l with
  | nil => rfl
  | cons a l ih =>
    by_cases hc : a = c
    · subst hc
      simp
    · rw [List.map_cons, List.idxOf_cons_ne _ hc, List.idxOf_cons_ne _ fun he => hc (e.inj.mp he), ih]

theorem path (e : Embeds f h g) (n : Nat) : g.path (f n) = h.path n := by
  induction n using Nat.strong_induction_on with
  | _ n ih =>
    have hp := e.truthyParent n
    cases hn : h.truthyParent n with
    | none =>
      rw [hn] at hp
      rw [path_none hp, path_none hn]
    | some p =>
      rw [hn] at hp
      rw [path_some hp, path_some hn, ih p (truthyParent_lt hn), e.children, e.idxOf]

theorem level (e : Embeds f h g) (n : Nat) : g.level (f n) = h.level n := by
  rw [Heap.level, Heap.level, e.path]

theorem isAncestor (e : Embeds f h g) (a n : Nat) :
    g.isAncestor (f a) (f n) = h.isAncestor a n := by
  rw [Heap.isAncestor, Heap.isAncestor, e.path, e.path]

theorem pathToNodeAux (e : Embeds f h g) (k l : Nat) (hk : n ≤ k) (hl : f n ≤ l) :
    g.pathToNodeAux l (f n) = (h.pathToNodeAux k n).map f := by
  induction n using Nat.strong_induction_on generalizing k l with
  | _ n ih =>
    have hp := e.truthyParent n
    cases hn : h.truthyParent n with
    | none =>
      rw [hn] at hp
      cases k <;> cases l <;> simp_all [Heap.pathToNodeAux]
    | some p =>
      rw [hn] at hp
      have hlt := truthyParent_lt hn
      have hfp := e.mono hlt
      have hsize := h.lt_size (truthyParent_eq_some.mp hn).1
      cases k with
      | zero => omega
      | succ k =>
        cases l with
        | zero => omega
        | succ l =>
          simp only [Heap.pathToNodeAux, hp, hn, Option.map_some, List.map_append]
          rw [ih p hlt k l (by omega) (by omega), e.isAnd (Nat.lt_trans hlt hsize)]
          split <;> rfl

theorem pathToNode (e : Embeds f h g) (n : Nat) : g.pathToNode (f n) = (h.pathToNode n).map f := by
  rw [Heap.pathToNode, Heap.pathToNode, e.pathToNodeAux n (f n) (Nat.le_refl _) (Nat.le_refl _),
    List.map_append, List.map_singleton]

theorem allAux (e : Embeds f h g) (k l : Nat) (hk : h.size ≤ k + n) (hl : g.size ≤ l + f n) :
    g.allAux l (f n) = (h.allAux k n).map f := by
  induction k generalizing l n with
  | zero =>
    have hn : h.children n = [] := Forest.children_of_size_le (by omega)
    cases l <;> simp [Heap.allAux, e.children, hn]
  | succ k ih =>
    cases l with
    | zero =>
      have hn : g.children (f n) = [] := Forest.children_of_size_le (by omega)
      simp [Heap.allAux, (e.children_eq_nil n).mp hn]
    | succ l =>
      simp only [Heap.allAux, e.children, List.map_cons, List.map_flatMap, List.flatMap_map]
      refine congrArg _ (List.flatMap_congr fun c hc => ?_)
      have hlt := Forest.lt_of_mem hc
      have hfc := e.mono hlt
      exact ih l (by omega) (by omega)

theorem all (e : Embeds f h g) (n : Nat) : g.all (f n) = (h.all n).map f :=
  e.allAux _ _ (by omega) (by omega)

theorem sortByLevel (e : Embeds f h g) (ns : List Nat) :
    g.sortByLevel (ns.map f) = (h.sortByLevel ns).map f := by
  refine (List.map_insertionSort _ _ f ns fun a _ b _ => ?_).symm
  rw [e.level, e.level]

theorem filter_unknown (e : Embeds f h g) {l : List Nat} (hl : ∀ c ∈ l, c < h.size) :
    ((l.map f).filter fun c => g.status c = .unknown) =
      (l.filter fun c => h.status c = .unknown).map f := by
  rw [List.filter_map]
  refine congrArg _ (List.filter_congr fun c hc => ?_)
  simp [e.status (hl c hc)]

theorem childeren (e : Embeds f h g) (n : Nat) :
    g.childeren (f n) = (h.childeren n).map (List.map f) := by
  rw [Heap.childeren, Heap.childeren, e.children]
  cases h.children n with
  | nil => rfl
  | cons o os =>
    simp only [List.map_cons, Except.map, e.children]
    rw [e.filter_unknown fun c hc => Forest.mem_lt_size hc]

end Reading

section Writing

theorem modify (e : Embeds f h g) (n : Nat) (r : Attrs → Attrs) (hn : n < h.size) :
    Embeds f (h.modify n r) (g.modify (f n) r) where
  toEmbeds := e.toEmbeds
  label := e.label
  attrs m hm := e.update (r := id) (by rw [e.attrs n hn]; rfl) fun _ => e.attrs m hm

theorem clear (e : Embeds f h g) (n : Nat) : Embeds f (h.clear n) (g.clear (f n)) where
  toEmbeds := e.toEmbeds.clear n
  label := e.label
  attrs := e.attrs

theorem addRoot (e : Embeds f h g) (l : Label) : Embeds f (h.addRoot l).2 (g.addRoot l).2 where
  toEmbeds := e.toEmbeds.addRoot
  label m hm := by
    simp only [Heap.addRoot, e.size]
    exact e.update (r := id) rfl fun hne => e.label m (Nat.lt_of_le_of_ne (Nat.le_of_lt_succ hm) hne)
  attrs m hm := by
    simp only [Heap.addRoot, e.size]
    exact e.update (r := id) rfl fun hne => e.attrs m (Nat.lt_of_le_of_ne (Nat.le_of_lt_succ hm) hne)

theorem addChild (e : Embeds f h g) {p : Nat} (l : Label) (hp : p < h.size) (hq : f p < g.size)
    (hl : l.cls = .orNode ↔ (h.label p).cls ≠ .orNode)
    (hm : l.cls = .orNode ↔ (g.label (f p)).cls ≠ .orNode) :
    Embeds f (h.addChild p l hp hl).2 (g.addChild (f p) l hq hm).2 where
  toEmbeds := e.toEmbeds.addChild hp hq
  label m hm := by
    simp only [Heap.addChild, e.size]
    exact e.update (r := id) rfl fun hne => e.label m (Nat.lt_of_le_of_ne (Nat.le_of_lt_succ hm) hne)
  attrs m hm := by
    simp only [Heap.addChild, e.size]
    exact e.update (r := id) rfl fun hne => e.attrs m (Nat.lt_of_le_of_ne (Nat.le_of_lt_succ hm) hne)

/-- Both constructors raise, or both make a node, under the name that comes next. -/
def Made (f : Nat → Nat) (h : Heap) : Except Exn (NodeId × Heap) → Except Exn (NodeId × Heap) → Prop
  | .ok (n, h'), .ok (m, g') => m = f n ∧ n = h.size ∧ h'.size = h.size + 1 ∧ Embeds f h' g'
  | .error e, .error e' => e' = e
  | _, _ => False

theorem newAnd (e : Embeds f h g) (p : Nat) (smt : String) :
    Made f h (h.newAnd p smt) (g.newAnd (f p) smt) := by
  rw [Heap.newAnd, Heap.newAnd]
  by_cases hp : p < h.size ∧ (h.label p).cls = .orNode
  · have hq : f p < g.size ∧ (g.label (f p)).cls = .orNode := by
      rwa [e.lt_size, e.label p hp.1]
    rw [dif_pos hp, dif_pos hq]
    exact ⟨e.size, rfl, rfl, e.addChild _ hp.1 hq.1 (by simp [hp.2]) (by simp [hq.2])⟩
  · have hq : ¬ (f p < g.size ∧ (g.label (f p)).cls = .orNode) := by
      rw [e.lt_size]
      exact fun h' => hp ⟨h'.1, e.label p h'.1 ▸ h'.2⟩
    rw [dif_neg hp, dif_neg hq]
    exact rfl

theorem newOr (e : Embeds f h g) (p : Nat) (smt : String) :
    Made f h (h.newOr p smt) (g.newOr (f p) smt) := by
  rw [Heap.newOr, Heap.newOr]
  by_cases hp : p < h.size ∧ (h.label p).cls ≠ .orNode
  · have hq : f p < g.size ∧ (g.label (f p)).cls ≠ .orNode := by
      rwa [e.lt_size, e.label p hp.1]
    rw [dif_pos hp, dif_pos hq]
    exact ⟨e.size, rfl, rfl, e.addChild _ hp.1 hq.1 (by simp [hp.2]) (by simp [hq.2])⟩
  · have hq : ¬ (f p < g.size ∧ (g.label (f p)).cls ≠ .orNode) := by
      rw [e.lt_size]
      exact fun h' => hp ⟨h'.1, e.label p h'.1 ▸ h'.2⟩
    rw [dif_neg hp, dif_neg hq]
    exact rfl

theorem addAnds (e : Embeds f h g) (o : Nat) (smts : List String) :
    (g.addAnds (f o) smts).1 = (h.addAnds o smts).1 ∧ h.size ≤ (h.addAnds o smts).2.size ∧
      Embeds f (h.addAnds o smts).2 (g.addAnds (f o) smts).2 := by
  induction smts generalizing h g with
  | nil => exact ⟨rfl, Nat.le_refl _, e⟩
  | cons smt smts ih =>
    have hmade := e.newAnd o smt
    rw [Heap.addAnds, Heap.addAnds]
    rcases hn : h.newAnd o smt with x | ⟨n, h'⟩
    · rcases hm : g.newAnd (f o) smt with y | ⟨m, g'⟩
      · rw [hn, hm] at hmade
        exact ⟨congrArg some hmade, Nat.le_refl _, e⟩
      · rw [hn, hm] at hmade
        exact hmade.elim
    · rcases hm : g.newAnd (f o) smt with y | ⟨m, g'⟩
      · rw [hn, hm] at hmade
        exact hmade.elim
      · rw [hn, hm] at hmade
        obtain ⟨_, _, hsize, e'⟩ := hmade
        obtain ⟨h₁, h₂, h₃⟩ := ih e'
        exact ⟨h₁, Nat.le_trans (by omega) h₂, h₃⟩

theorem setStatusAux_of_none {status : SolveStatus} (hn : h.parent n = none) (k : Nat) :
    h.setStatusAux status k n = h.modify n fun a => { a with status := status } := by
  cases k with
  | zero => rfl
  | succ k =>
    have ht : (h.modify n fun a => { a with status := status }).truthyParent n = none :=
      truthyParent_of_none hn
    simp only [Heap.setStatusAux, ht, modify_toForest, hn, ite_self]

theorem all_status (e : Embeds f h g) (p : Nat) (status : SolveStatus) :
    (∀ c ∈ g.children (f p), g.status c = status) ↔ ∀ c ∈ h.children p, h.status c = status := by
  rw [e.children, List.forall_mem_map]
  refine forall₂_congr fun c hc => ?_
  rw [e.status (Forest.mem_lt_size hc)]

theorem setStatusAux (e : Embeds f h g) (status : SolveStatus) (k l : Nat) (hn : n < h.size)
    (hk : n ≤ k) (hl : f n ≤ l) :
    Embeds f (h.setStatusAux status k n) (g.setStatusAux status l (f n)) := by
  induction n using Nat.strong_induction_on generalizing h g k l with
  | _ n ih =>
    have hpar := e.parent n
    have em := e.modify n (fun a => { a with status := status }) hn
    cases hp : h.parent n with
    | none =>
      rw [hp] at hpar
      rwa [setStatusAux_of_none hp, setStatusAux_of_none hpar]
    | some p =>
      have hlt := h.parent_lt hp
      have hfp := e.mono hlt
      have hup := fun k l (hk : p ≤ k) (hl : f p ≤ l) => ih p hlt em k l (Nat.lt_trans hlt hn) hk hl
      have htp := em.truthyParent n
      cases k with
      | zero => omega
      | succ k =>
        cases l with
        | zero => omega
        | succ l =>
          simp only [Heap.setStatusAux, em.isAnd hn, htp, em.parent]
          have hp' : (h.modify n fun a => { a with status := status }).parent n = some p := hp
          split
          · cases ht : (h.modify n fun a => { a with status := status }).truthyParent n with
            | none => exact em
            | some q =>
              obtain rfl : q = p := by
                rw [(truthyParent_eq_some.mp ht).1] at hp'
                exact Option.some.inj hp'
              simp only [Option.map_some, em.all_status]
              split
              · exact hup k l (by omega) (by omega)
              · exact em
          · simp only [hp', Option.map_some]
            exact hup k l (by omega) (by omega)

theorem setStatus (e : Embeds f h g) (hn : n < h.size) (status : SolveStatus) :
    Embeds f (h.setStatus n status) (g.setStatus (f n) status) :=
  e.setStatusAux status n (f n) hn (Nat.le_refl _) (Nat.le_refl _)

end Writing

section Scripts

/-- A node and a number, with the node under its other name. -/
def rename (f : Nat → Nat) (r : NodeId × Nat) : NodeId × Nat := (f r.1, r.2)

theorem climb (e : Embeds f h g) (node : Nat) (k l : Nat) (hk : n ≤ k) (hl : f n ≤ l) :
    SMT.climb g (f node) l (f n) = (SMT.climb h node k n).map (rename f) := by
  induction n using Nat.strong_induction_on generalizing k l with
  | _ n ih =>
    unfold SMT.climb
    simp only [e.root, e.isAncestor, ne_eq, e.inj, e.parent]
    split
    · rfl
    · split
      · rfl
      · cases hp : h.parent n with
        | none => cases k <;> cases l <;> rfl
        | some p =>
          have hlt := h.parent_lt hp
          have hfp := e.mono hlt
          cases k with
          | zero => omega
          | succ k =>
            cases l with
            | zero => omega
            | succ l =>
              simp only [Option.map_some, e.isAnd (h.lt_size hp),
                ih p hlt k l (by omega) (by omega)]
              cases SMT.climb h node k p <;> rfl

theorem collect_none (self : Nat) (start : Option Nat) (k l : Nat) :
    SMT.collect g (f self) (start.map f) l none = SMT.collect h self start k none := by
  unfold SMT.collect
  cases start <;> cases k <;> cases l <;> rfl

theorem collect (e : Embeds f h g) (self : Nat) (start : Option Nat) (k l : Nat) (hn : n < h.size)
    (hk : n < k) (hl : f n < l) :
    SMT.collect g (f self) (start.map f) l (some (f n)) = SMT.collect h self start k (some n) := by
  induction n using Nat.strong_induction_on generalizing k l with
  | _ n ih =>
    cases k with
    | zero => omega
    | succ k =>
      cases l with
      | zero => omega
      | succ l =>
        have hstart : some (f n) = start.map f ↔ some n = start := by
          cases start <;> simp [e.inj]
        have hup : SMT.collect g (f self) (start.map f) l ((h.parent n).map f) =
            SMT.collect h self start k (h.parent n) := by
          cases hp : h.parent n with
          | none => exact collect_none self start k l
          | some p =>
            have hlt := h.parent_lt hp
            have hfp := e.mono hlt
            exact ih p hlt k l (Nat.lt_trans hlt hn) (by omega) (by omega)
        unfold SMT.collect
        simp only [hstart, e.parent, hup, e.isAnd hn, e.label n hn, ne_eq, e.inj]

theorem smtToString (e : Embeds f h g) (self node : Nat) (start : Option Nat)
    (hnode : node < h.size) :
    SMT.toString g (f self) (f node) (start.map f) = SMT.toString h self node start := by
  cases start with
  | none =>
    have hc := e.collect self none (node + 1) (f node + 1) hnode (Nat.lt_succ_self _)
      (Nat.lt_succ_self _)
    simp only [Option.map_none] at hc
    simp only [SMT.toString, Option.map_none, pure_bind, hc]
  | some s =>
    have hclimb := e.climb node s (f s) (Nat.le_refl s) (Nat.le_refl _)
    simp only [SMT.toString, Option.map_some, hclimb]
    cases SMT.climb h node s s with
    | error x => rfl
    | ok r =>
      have hc := e.collect self (some r.1) (node + 1) (f node + 1) hnode (Nat.lt_succ_self _)
        (Nat.lt_succ_self _)
      simp only [Option.map_some] at hc
      change (SMT.collect g (f self) (some (f r.1)) (f node + 1) (some (f node)) >>= _) = _
      rw [hc]
      rfl

theorem toString (e : Embeds f h g) {self node : Nat} (start : Option Nat) (hself : self < h.size)
    (hnode : node < h.size) :
    g.toString (f self) (f node) (start.map f) = h.toString self node start := by
  unfold Heap.toString
  rw [e.label self hself]
  split
  · exact e.smtToString self node start hnode
  · simp only [e.root, ne_eq, e.inj, Option.isSome_map, e.parent, e.label node hnode]
    cases hp : h.parent node with
    | none => rfl
    | some p => simp only [Option.map_some, e.label p (Nat.lt_trans (h.parent_lt hp) hnode)]
  · rfl
  · rfl

end Scripts

end Embeds

end Smts.Server.Heap
