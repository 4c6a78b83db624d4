import Mathlib.Logic.Function.Basic

namespace Smts.Gui

inductive Count
  | undefined
  | nan
  | number (n : Int)
  deriving DecidableEq

namespace Count

def increment : Count → Count
  | .number n => .number (n + 1)
  | _ => .nan

def decrement : Count → Count
  | .number n => .number (n - 1)
  | _ => .nan

def vacant : Count → Bool
  | .number n => n ≤ 0
  | _ => true

def exhausted : Count → Bool
  | .number n => n ≤ 0
  | _ => false

end Count

section Counting

variable {α κ : Type} [DecidableEq κ] (key : α → κ)

/-- The loop of `showClauses` and `showLearnts` over nodes or edges: the counters it leaves and
the items it collects. -/
def tally (counts : κ → Count) : List α → (κ → Count) × List α
  | [] => (counts, [])
  | item :: items =>
    if (counts (key item)).vacant then
      let rest := tally (Function.update counts (key item) (.number 1)) items
      (rest.1, item :: rest.2)
    else tally (Function.update counts (key item) (counts (key item)).increment) items

/-- The loop of `hideLearnts` over edges: the counters it leaves and the ids it collects. -/
def untally (counts : κ → Count) : List α → (κ → Count) × List κ
  | [] => (counts, [])
  | item :: items =>
    let count := (counts (key item)).decrement
    let rest := untally (Function.update counts (key item) count) items
    if count.exhausted then (rest.1, key item :: rest.2) else rest

end Counting

/-- `vis.DataSet`: what the library makes of items, also where a call ends in an error. -/
structure DataSet (Item Id : Type) where
  Carrier : Type
  make : List Item → Carrier
  add : Carrier → List Item → Carrier
  update : Carrier → List Item → Carrier
  remove : Carrier → List Id → Carrier
  getIds : Carrier → List Id

namespace DataSet

variable {Item Id : Type}

/-- Items of different ids can be added where their ids are not there yet, and items are removed by
their ids. -/
structure Documented (D : DataSet Item Id) (id : Item → Id) : Prop where
  nodup_getIds : ∀ d, (D.getIds d).Nodup
  mem_make : ∀ items, (items.map id).Nodup → ∀ i, i ∈ D.getIds (D.make items) ↔ i ∈ items.map id
  mem_add : ∀ d items, (items.map id).Nodup → (∀ i ∈ items.map id, i ∉ D.getIds d) →
    ∀ i, i ∈ D.getIds (D.add d items) ↔ i ∈ D.getIds d ∨ i ∈ items.map id
  mem_remove : ∀ d ids i, i ∈ D.getIds (D.remove d ids) ↔ i ∈ D.getIds d ∧ i ∉ ids

end DataSet

structure Node where
  id : Int
  isUnary : Bool := false

structure Edge where
  id : String
  source : Int
  target : Int

structure Data where
  nodes : List Node := []
  edges : List Edge := []

structure Learnts where
  instanceName : String
  solverAddress : String
  data : Data

inductive NodeColor
  | normal | unary
  deriving DecidableEq

/-- The id of a node of the network.  One that came without an id has been given one. -/
inductive NodeKey
  | literal (id : Int)
  | uuid (n : Nat)
  deriving DecidableEq

structure NodeItem where
  id : Option Int
  color : Option NodeColor := none

structure EdgeItem where
  id : String
  source : Int
  target : Int
  learnt : Bool := false
  physics : Bool := true

structure Vis where
  nodes : DataSet NodeItem NodeKey
  edges : DataSet EdgeItem String

/-- `smts.cnf`, with the checkbox of the page and the requests for learnts not answered yet. -/
structure Cnf (vis : Vis) where
  clauses : Option Data := none
  learnts : Option Learnts := none
  nodesCounts : Int → Count := fun _ => .undefined
  edgesCounts : String → Count := fun _ => .undefined
  nodes : vis.nodes.Carrier := vis.nodes.make []
  edges : vis.edges.Carrier := vis.edges.make []
  isShowLearnts : Bool := true
  requests : List (String × String) := []

namespace Cnf

variable {vis : Vis}

/-- The ids that `hideLearnts` asks for are spelled `node.is`, which no node has. -/
def hideLearnts (c : Cnf vis) : Cnf vis :=
  match c.learnts with
  | none => c
  | some learnts =>
    let nodes := (learnts.data.nodes.filter Node.isUnary).map fun _ =>
      { id := none, color := some .normal }
    let (edgesCounts, edgeIds) := untally Edge.id c.edgesCounts learnts.data.edges
    { c with
      nodes := vis.nodes.update c.nodes nodes
      edgesCounts
      edges := vis.edges.remove c.edges edgeIds }

def showClauses (c : Cnf vis) : Cnf vis :=
  let (nodesCounts, nodes) := tally Node.id (fun _ => .undefined) (c.clauses.elim [] Data.nodes)
  let (edgesCounts, edges) := tally Edge.id (fun _ => .undefined) (c.clauses.elim [] Data.edges)
  { c with
    nodesCounts
    edgesCounts
    nodes := vis.nodes.make (nodes.map fun node => { id := some node.id })
    edges := vis.edges.make (edges.map fun edge =>
      { id := edge.id, source := edge.source, target := edge.target }) }

def showLearnts (c : Cnf vis) : Cnf vis :=
  match c.learnts with
  | none => c
  | some learnts =>
    let nodes := (learnts.data.nodes.filter Node.isUnary).map fun node =>
      { id := some node.id, color := some .unary }
    let (edgesCounts, edges) := tally Edge.id c.edgesCounts learnts.data.edges
    { c with
      nodes := vis.nodes.update c.nodes nodes
      edgesCounts
      edges := vis.edges.add c.edges (edges.map fun edge =>
        { id := edge.id, source := edge.source, target := edge.target, learnt := true,
          physics := false }) }

def given (name : Option String) : Bool := name.any (· ≠ "")

def isSameLearnts (c : Cnf vis) (instanceName solverAddress : String) : Bool :=
  c.learnts.any fun learnts =>
    learnts.instanceName = instanceName && learnts.solverAddress = solverAddress

/-- `updateLearnts` up to its request. -/
def updateLearnts (c : Cnf vis) (instanceName solverAddress : Option String) : Cnf vis :=
  if !given instanceName || !given solverAddress then { c.hideLearnts with learnts := none }
  else
    let instanceName := instanceName.getD ""
    let solverAddress := solverAddress.getD ""
    if c.isSameLearnts instanceName solverAddress then c
    else { c with requests := c.requests ++ [(instanceName, solverAddress)] }

/-- What comes back for a request: no pipe or no learnts in it, a text that is not JSON, or
learnts. -/
inductive Reply
  | missing
  | garbled
  | cnf (data : Data)

/-- The function that `updateLearnts` hands to `getCnf`. -/
def processCnf (c : Cnf vis) (instanceName solverAddress : String) : Reply → Cnf vis
  | .missing => c
  | .garbled => c.hideLearnts
  | .cnf data =>
    let c : Cnf vis := { c.hideLearnts with learnts := some ⟨instanceName, solverAddress, data⟩ }
    if c.isShowLearnts then c.showLearnts else c

def toggleLearnts (c : Cnf vis) : Cnf vis :=
  if c.isShowLearnts then c.showLearnts else c.hideLearnts

/-- What happens on the page while a clause CNF is displayed.  Requests may be answered in any
order. -/
inductive Act
  | update (instanceName solverAddress : Option String)
  | answer (k : Nat) (reply : Reply)
  | click

def step (c : Cnf vis) : Act → Cnf vis
  | .update instanceName solverAddress => c.updateLearnts instanceName solverAddress
  | .answer k reply =>
    match c.requests[k]? with
    | none => c
    | some (instanceName, solverAddress) =>
      processCnf { c with requests := c.requests.eraseIdx k } instanceName solverAddress reply
  | .click => toggleLearnts { c with isShowLearnts := !c.isShowLearnts }

def start (vis : Vis) (clauses : Data) (isShowLearnts : Bool) : Cnf vis :=
  showClauses { clauses := some clauses, isShowLearnts }

end Cnf

end Smts.Gui
