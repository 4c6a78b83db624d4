import Mathlib.Data.List.Sort
import Smts.Lib.Forest

namespace Smts.Server

open Smts.Lib

abbrev NodeId := Nat

/-- Readings of the clock and time spans, in microseconds. -/
abbrev Time := Int

def second : Time := 1000000

/-- The exceptions the server can raise.  `noFuel` is not one of them: it marks
a loop that was still running when the model stopped counting its rounds. -/
inductive Exn
  | valueError | typeError | attributeError | indexError | keyError | zeroDivisionError
  | assertionError | unicodeError | osError | systemExit | noFuel
  deriving DecidableEq

inductive SolveStatus
  | unknown | sat | unsat
  deriving DecidableEq

def SolveStatus.name : SolveStatus → String
  | .unknown => "unknown"
  | .sat => "sat"
  | .unsat => "unsat"

/-- Lookup in `SolveStatus.__members__`. -/
def SolveStatus.ofName? (s : String) : Option SolveStatus :=
  if s = "unknown" then some .unknown
  else if s = "sat" then some .sat
  else if s = "unsat" then some .unsat
  else none

/-- The class a node object was made by. -/
inductive NodeClass
  | orNode | andNode | smt | fixedpoint | mcmt
  deriving DecidableEq

/-- What the constructors fix for good.  `query` belongs to `Fixedpoint` roots. -/
structure Label where
  cls : NodeClass
  smt : String := ""
  name : String := ""
  query : String := ""

structure Attrs where
  status : SolveStatus := .unknown
  started : Option Time := none
  assumedTimout : Bool := false
  partitioning : Bool := false
  processed : Bool := false
  isTimeout : Bool := false

/-- All node objects of all trees.  AND and OR nodes alternate, since either
constructor refuses a parent of its own kind. -/
structure Heap extends Forest where
  label : NodeId → Label
  attrs : NodeId → Attrs
  alternates : ∀ {c p}, parent c = some p →
    ((label c).cls = .orNode ↔ (label p).cls ≠ .orNode)

namespace Heap

def empty : Heap where
  toForest := Forest.empty
  label _ := { cls := .andNode }
  attrs _ := {}
  alternates h := nomatch h

variable (h : Heap)

/-- `isinstance(node, OrNode)`. -/
def isOr (n : NodeId) : Bool := (h.label n).cls = .orNode

/-- `isinstance(node, AndNode)`; the roots are AND nodes. -/
def isAnd (n : NodeId) : Bool := !h.isOr n

def status (n : NodeId) : SolveStatus := (h.attrs n).status

def len (n : NodeId) : Nat := (h.children n).length

def modify (n : NodeId) (f : Attrs → Attrs) : Heap :=
  { h with attrs := Function.update h.attrs n (f (h.attrs n)) }

def clear (p : NodeId) : Heap :=
  { h with toForest := h.toForest.clear p, alternates := h.alternates }

/-- A new object takes the next identity. -/
def addRoot (l : Label) : NodeId × Heap :=
  (h.size, { h with
    toForest := h.toForest.addRoot
    label := Function.update h.label h.size l
    attrs := Function.update h.attrs h.size {}
    alternates := fun {c p} hp => by
      have hc : c ≠ h.size := Nat.ne_of_lt (h.lt_size hp)
      have hp' : p ≠ h.size := Nat.ne_of_lt (Nat.lt_trans (h.parent_lt hp) (h.lt_size hp))
      rw [Function.update_of_ne hc, Function.update_of_ne hp']
      exact h.alternates hp })

def addChild (p : NodeId) (l : Label) (hp : p < h.size)
    (hl : l.cls = .orNode ↔ (h.label p).cls ≠ .orNode) : NodeId × Heap :=
  (h.size, { h with
    toForest := h.toForest.addChild p hp
    label := Function.update h.label h.size l
    attrs := Function.update h.attrs h.size {}
    alternates := fun {c q} hq => by
      have hlt : q < h.size := by
        have := (h.toForest.addChild p hp).parent_lt hq
        have := (h.toForest.addChild p hp).lt_size hq
        simp only [Forest.addChild] at this
        omega
      rw [Function.update_of_ne (Nat.ne_of_lt hlt)]
      simp only [Forest.addChild] at hq
      by_cases hc : c = h.size
      · subst hc
        simp only [Function.update_self, Option.some.injEq] at hq
        subst hq
        rwa [Function.update_self]
      · rw [Function.update_of_ne hc] at hq ⊢
        exact h.alternates hq })

/-- `AndNode(parent, smt)` for a parent that is not `None`. -/
def newAnd (parent : NodeId) (smt : String) : Except Exn (NodeId × Heap) :=
  if hp : parent < h.size ∧ (h.label parent).cls = .orNode then
    .ok (h.addChild parent { cls := .andNode, smt := smt } hp.1 (by simp [hp.2]))
  else .error .typeError

/-- `OrNode(parent, smt)`. -/
def newOr (parent : NodeId) (smt : String := "") : Except Exn (NodeId × Heap) :=
  if hp : parent < h.size ∧ (h.label parent).cls ≠ .orNode then
    .ok (h.addChild parent { cls := .orNode, smt := smt } hp.1 (by simp [hp.2]))
  else .error .typeError

/-- AND nodes made one after the other.  The heap that was reached is kept when a
constructor raises. -/
def addAnds (h : Heap) (o : NodeId) : List String → Option Exn × Heap
  | [] => (none, h)
  | smt :: smts =>
    match h.newAnd o smt with
    | .error e => (some e, h)
    | .ok (_, h) => addAnds h o smts

/-- `if self.parent`: a node without children counts as false. -/
def truthyParent (n : NodeId) : Option NodeId :=
  (h.parent n).filter fun p => h.children p ≠ []

/-- Parents come before their children, so a walk upwards has no more steps
than the identity it starts from. -/
def pathAux : Nat → NodeId → List Nat
  | 0, _ => []
  | k + 1, n =>
    match h.truthyParent n with
    | none => []
    | some p => pathAux k p ++ [(h.children p).idxOf n]

def path (n : NodeId) : List Nat := h.pathAux n n

/-- The AND nodes strictly above `n`, the root first. -/
def pathToNodeAux : Nat → NodeId → List NodeId
  | 0, _ => []
  | k + 1, n =>
    match h.truthyParent n with
    | none => []
    | some p => pathToNodeAux k p ++ (if h.isAnd p then [p] else [])

def pathToNode (n : NodeId) : List NodeId := h.pathToNodeAux n n ++ [n]

def level (n : NodeId) : Nat := (h.path n).length

/-- The prefix test of `is_ancestor`, once both nodes are known to be in one tree. -/
def isAncestor (a n : NodeId) : Bool := (h.path a).isPrefixOf (h.path n)

/-- Children come after their parents, so `size - n` bounds the depth below `n`. -/
def allAux : Nat → NodeId → List NodeId
  | 0, n => [n]
  | k + 1, n => n :: (h.children n).flatMap (allAux k)

def all (n : NodeId) : List NodeId := h.allAux (h.size - n) n

/-- `AndNode._set_status` and `OrNode._set_status`. -/
def setStatusAux (status : SolveStatus) : Nat → Heap → NodeId → Heap
  | 0, h, n => h.modify n fun a => { a with status := status }
  | k + 1, h, n =>
    let h := h.modify n fun a => { a with status := status }
    if h.isAnd n then
      match h.truthyParent n with
      | none => h
      | some p =>
        if status = .sat ∨ ∀ c ∈ h.children p, h.status c = status then
          setStatusAux status k h p
        else h
    else
      match h.parent n with
      | none => h
      | some p => setStatusAux status k h p

def setStatus (n : NodeId) (status : SolveStatus) : Heap := setStatusAux status n h n

/-- `AndNode.childeren`: the unknown children of the first OR child. -/
def childeren (n : NodeId) : Except Exn (List NodeId) :=
  match h.children n with
  | [] => .error .indexError
  | o :: _ => .ok ((h.children o).filter fun c => h.status c = .unknown)

/-- `nodes.sort()`: by the length of the path, nodes of one length in their old order. -/
def sortByLevel (nodes : List NodeId) : List NodeId :=
  nodes.insertionSort fun a b => h.level a ≤ h.level b

end Heap

/-- Python's text of a list of naturals. -/
def render (xs : List Nat) : String :=
  "[" ++ ", ".intercalate (xs.map toString) ++ "]"

namespace Constant

def checkSat : String := "(check-sat)"
def push : String := "(push 1)"
def pop : String := "(pop 1)"

end Constant

namespace SMT

/-- The climb of `to_string` from `start` to the first node that is an ancestor
of `node`, counting the AND nodes left behind. -/
def climb (h : Heap) (node : NodeId) : Nat → NodeId → Except Exn (NodeId × Nat)
  | k, start =>
    if h.root start ≠ h.root node then .error .valueError
    else if h.isAncestor start node then .ok (start, 0)
    else
      match k, h.parent start with
      | k + 1, some p => do
        let (top, pops) ← climb h node k p
        return (top, if h.isAnd start then pops + 1 else pops)
      | _, _ => .error .attributeError

/-- The second climb, from `node` up to `start`: for each AND node its text and,
below the root, the push that goes before it. -/
def collect (h : Heap) (self : NodeId) (start : Option NodeId) :
    Nat → Option NodeId → Except Exn (List String)
  | k, node =>
    if node = start then .ok []
    else
      match k, node with
      | k + 1, some n => do
        let rest ← collect h self start k (h.parent n)
        if h.isAnd n then
          return (h.label n).smt :: (if n ≠ self then Constant.push :: rest else rest)
        else return rest
      | _, _ => .error .attributeError

def toString (h : Heap) (self node : NodeId) (start : Option NodeId) :
    Except Exn (String × String) := do
  let (start, pops) ← match start with
    | none => pure (none, 0)
    | some s => do
      let (top, pops) ← climb h node s s
      pure (some top, pops)
  let smt ← collect h self start (node + 1) (some node)
  return ("\n".intercalate (smt ++ List.replicate pops Constant.pop).reverse, Constant.checkSat)

end SMT

/-- `Root.to_string`, as each kind of instance overrides it. -/
def Heap.toString (h : Heap) (self node : NodeId) (start : Option NodeId) :
    Except Exn (String × String) :=
  match (h.label self).cls with
  | .smt => SMT.toString h self node start
  | .fixedpoint =>
    if h.root node ≠ h.root self ∨ start.isSome then .error .valueError
    else if node = self then
      .ok ((h.label self).smt, "(query " ++ (h.label self).query ++ ")")
    else
      match h.parent node with
      | some p => .ok ((h.label p).smt, (h.label node).smt)
      | none => .error .attributeError
  | .mcmt => .ok ((h.label self).smt, "")
  | _ => .error .attributeError

end Smts.Server
