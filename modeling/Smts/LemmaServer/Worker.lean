import Mathlib.Data.List.Sort
import Smts.Lib.Prog
import Smts.Lib.Table
import Smts.Lib.Trie
import Smts.LemmaServer.Text

namespace Smts.LemmaServer

open Smts.Lib
open Smts.Lib.Prog

/-- The header of a message: keys and values are whatever bytes came. -/
abbrev Header := Table Bytes Bytes

namespace Header

def has (header : Header) (key : String) : Bool := utf8 key ∈ header.map Prod.fst

def set (header : Header) (key : String) (value : Bytes) : Header :=
  Table.put (utf8 key) value header

end Header

/-- A lemma as it is sent. -/
structure NetLemma where
  clause : Bytes
  level : Int
  deriving DecidableEq

structure Lemma extends NetLemma where
  score : Int := 0
  deriving DecidableEq

/-- `Node::index`, in the order of its keys. -/
abbrev Index := List (Bytes × Lemma)

/-- Where a node stands below the root of its instance; this is what a `Node *` is
told apart by. -/
abbrev Address := List Nat

/-- A `Lemma *`: a node has one lemma for each clause. -/
abbrev Pointer := Address × Bytes

structure Event where
  header : Header
  body : List NetLemma := []

structure Reply where
  client : Nat
  header : Header
  body : List NetLemma
  deriving DecidableEq

structure State where
  sendAgain : Bool := false
  lemmas : Bytes → Option (Trie Index) := fun _ => none
  solvers : Bytes → Table Nat (Table Pointer Bool) := fun _ => []
  lemmasSize : Nat := 0
  sent : List Reply := []

/-- The algorithms of the standard library, which leave some orders open, and the
sockets that can be written to. -/
structure Env where
  nthElement : {α : Type} → (α → Int) → Nat → List α → List α
  nthElement_perm : ∀ {α : Type} (key : α → Int) n l, (nthElement key n l).Perm l
  nthElement_le : ∀ {α : Type} (key : α → Int) n l,
    ∀ a ∈ (nthElement key n l).take n, ∀ b ∈ (nthElement key n l).drop n, key a ≤ key b
  partialSort : {α : Type} → (α → Int) → Nat → List α → List α
  partialSort_perm : ∀ {α : Type} (key : α → Int) n l, (partialSort key n l).Perm l
  partialSort_sorted : ∀ {α : Type} (key : α → Int) n l,
    ((partialSort key n l).take n).Pairwise fun a b => key a ≤ key b
  partialSort_le : ∀ {α : Type} (key : α → Int) n l,
    ∀ a ∈ (partialSort key n l).take n, ∀ b ∈ (partialSort key n l).drop n, key a ≤ key b
  walk : {α : Type} → List α → List α
  walk_perm : ∀ {α : Type} (l : List α), (walk l).Perm l
  writable : Nat → Bool

theorem le_of_mem_take_drop {α : Type} {key : α → Int} {l : List α}
    (h : l.Pairwise fun a b => key a ≤ key b) (n : Nat) :
    ∀ a ∈ l.take n, ∀ b ∈ l.drop n, key a ≤ key b := by
  rw [← List.take_append_drop n l] at h
  exact (List.pairwise_append.mp h).2.2

/-- Sorting the whole range is one way to do it. -/
def Env.sorting : Env where
  nthElement key _ l := l.insertionSort fun a b => key a ≤ key b
  nthElement_perm _ _ l := l.perm_insertionSort _
  nthElement_le _ n l := le_of_mem_take_drop (l.pairwise_insertionSort _) n
  partialSort key _ l := l.insertionSort fun a b => key a ≤ key b
  partialSort_perm _ _ l := l.perm_insertionSort _
  partialSort_sorted _ _ l := (l.pairwise_insertionSort _).sublist (List.take_sublist _ _)
  partialSort_le _ n l := le_of_mem_take_drop (l.pairwise_insertionSort _) n
  walk l := l
  walk_perm l := .refl l
  writable _ := true

abbrev M := Prog State Exn

def get (header : Header) (key : String) : Bytes := Table.find [] (utf8 key) header

section Nodes

variable (name : Bytes)

def modifyTree (f : Trie Index → Trie Index) : M Unit :=
  modify fun s =>
    { s with lemmas := Function.update s.lemmas name ((s.lemmas name).map f) }

/-- Reads a node through a pointer, which may no longer lead to one. -/
def index (a : Address) : M Index := do
  match (← gets fun s => (s.lemmas name).bind (Trie.lookup a)) with
  | some index => pure index
  | none => raise .dangling

/-- The first use of a name makes its root. -/
def open_ : M Unit :=
  modify fun s =>
    { s with lemmas := Function.update s.lemmas name (some ((s.lemmas name).getD (.node [] []))) }

/-- Adds the missing children; a negative index wraps around and is then read past
the end. -/
def child (a : Address) (index : Int) : M Address := do
  modifyTree name (Trie.update (Trie.grow [] ((index % 2 ^ 32).toNat + 1)) a)
  if index < 0 then raise .outOfRange else pure (a ++ [index.toNat])

/-- One round of the loop over the path, of which every second number counts. -/
def visit (acc : List Address × Nat) (token : Bytes) : M (List Address × Nat) := do
  if acc.2 % 2 = 1 then
    let index ← ofExcept (stoi token)
    let a ← child name (acc.1.getLastD []) index
    pure (acc.1 ++ [a], acc.2 + 1)
  else
    pure (acc.1, acc.2 + 1)

def clear : M Unit :=
  modify fun s => { s with
    lemmas := Function.update s.lemmas name none
    solvers := Function.update s.solvers name [] }

end Nodes

section Marks

variable (name : Bytes) (client : Nat)

def modifyMarks (f : Table Pointer Bool → Table Pointer Bool) : M Unit :=
  modify fun s =>
    let marks := Table.find [] client (s.solvers name)
    { s with
      solvers := Function.update s.solvers name
        (Table.put client (f marks) (s.solvers name)) }

/-- `lemmas_solver[l]`, which adds a missing entry. -/
def marked (l : Pointer) : M Bool := do
  modifyMarks name client fun marks => Table.put l (Table.find false l marks) marks
  gets fun s => Table.find false l (Table.find [] client (s.solvers name))

def mark (l : Pointer) : M Unit := modifyMarks name client (Table.put l true)

end Marks

def cutSize : Nat := 50000

/-- Erases entries one by one until `lemmasSize` has come down to the cut. -/
def eraseMarks {μ : Type} : List μ → Nat → List μ × Nat
  | [], n => ([], n)
  | _ :: ms, n => if n - 1 = cutSize then (ms, n - 1) else eraseMarks ms (n - 1)

def eraseTables (env : Env) :
    Table Nat (Table Pointer Bool) → Nat → Table Nat (Table Pointer Bool) × Nat
  | [], n => ([], n)
  | (client, marks) :: ts, n =>
    let (marks, n) := eraseMarks (env.walk marks) n
    if n = cutSize then ((client, marks) :: ts, n)
    else
      let (ts, n) := eraseTables env ts n
      ((client, marks) :: ts, n)

def garbageCollect (env : Env) (batchSize : Nat) (name : Bytes) : M Unit :=
  modify fun s =>
    let size := s.lemmasSize + batchSize
    if cutSize * 2 < size then
      let (t, n) := eraseTables env (env.walk (s.solvers name)) size
      { s with solvers := Function.update s.solvers name t, lemmasSize := n }
    else { s with lemmasSize := size }

def Index.increase (clause : Bytes) (index : Index) : Index :=
  index.map fun e => if e.1 = clause then (e.1, { e.2 with score := e.2.score + 1 }) else e

def Index.addLemma (l : NetLemma) (index : Index) : Index :=
  index.orderedInsert (fun a b => a.1 ≤ b.1) (l.clause, { l with })

def pushLemma (name : Bytes) (client : Nat) (path : List Address) (l : NetLemma) : M Unit := do
  if l.level < 0 ∨ path.length ≤ l.level then raise .outOfRange
  else
    let a := path.getD l.level.toNat []
    match (← index name a).lookup l.clause with
    | some _ => modifyTree name (Trie.update (Trie.mapVal (Index.increase l.clause)) a)
    | none => modifyTree name (Trie.update (Trie.mapVal (Index.addLemma l)) a)
    mark name client (a, l.clause)

/-- `Node::filter`. -/
def filter (name : Bytes) (client : Nat) (lemmas : List (Pointer × Lemma)) (a : Address) :
    M (List (Pointer × Lemma)) := do
  foldEach (fun lemmas e => do
    if ← marked name client (a, e.1) then pure lemmas
    else pure (lemmas ++ [((a, e.1), e.2)])) lemmas (← index name a)

def select (env : Env) (request : Nat) (lemmas : List (Pointer × Lemma)) :
    List (Pointer × Lemma) :=
  if request < lemmas.length then
    let it := min (2 * request % 2 ^ 32) lemmas.length
    let lemmas := env.nthElement (·.2.score) it lemmas
    env.partialSort (·.2.level) request (lemmas.take it) ++ lemmas.drop it
  else lemmas

def push (env : Env) (name : Bytes) (client : Nat) (path : List Address)
    (body : List NetLemma) : M Unit := do
  modifyMarks name client id
  garbageCollect env body.length name
  forEach (pushLemma name client path) body

def answer (env : Env) (header : Header) (client : Nat) (body : List NetLemma) : M Unit :=
  if env.writable client then
    modify fun s =>
      { s with sent := s.sent ++ [⟨client, header.set "lemmas" (decimal body.length), body⟩] }
  else raise .socketException

def pull (env : Env) (header : Header) (client : Nat) (path : List Address) (request : Nat) :
    M Unit := do
  let name := get header "name"
  modifyMarks name client id
  let lemmas ← foldEach (filter name client) [] path
  let lemmas := (select env request lemmas).take request
  when (¬ (← gets State.sendAgain)) (forEach (fun l => mark name client l.1) lemmas)
  answer env header client (lemmas.map (·.2.toNetLemma))

def lemmaWorker (env : Env) (client : Nat) (event : Event) : M Unit := do
  let name := get event.header "name"
  let sign := get event.header "lemmas"
  let request ← ofExcept ((substr1 sign).bind stoi)
  let request := (request % 2 ^ 32).toNat
  open_ name
  let code ← ofExcept (inner (get event.header "node"))
  let (path, _) ← foldEach (visit name) ([[]], 0) (tokens (eraseSpaces code))
  when (request = 0) (clear name)
  if sign.head? = some '+'.toUInt8 then push env name client path event.body
  else if sign.head? = some '-'.toUInt8 then pull env event.header client path request
  else pure ()

/-- The part of `handle_close` that touches the store. -/
def forget (client : Nat) (s : State) : State :=
  { s with solvers := fun name => Table.erase client (s.solvers name) }

end Smts.LemmaServer
