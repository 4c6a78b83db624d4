import Smts.Server.Printing

namespace Smts.Server

open Smts.Lib

/-- `v[k]`, which for a string is a character. -/
def item : Json → Nat → Option Json
  | .arr l, k => l[k]?
  | .str s, k => (s.toList[k]?).map fun c => .str (String.singleton c)

/-- `s.split(sep)[0]` -/
def beforeFirst (sep : List Char) : List Char → List Char
  | [] => []
  | c :: s => if sep.isPrefixOf (c :: s) then [] else c :: beforeFirst sep s

structure Fixedpoint where
  json : List Json
  query : Json
  smt : List Char
  deriving DecidableEq

namespace Fixedpoint

/-- The commands before the first query, and its relation. -/
def findQuery : List Json → Option (List Json × Json)
  | [] => none
  | i :: l => do
    let name ← item i 0
    if name = .str "query" then
      let query ← item i 1
      pure ([], query)
    else
      let (json, query) ← findQuery l
      pure (i :: json, query)

/-- `none` where the constructor raises. -/
def init (smt : List Char) : Option Fixedpoint := do
  match ← smt2json smt with
  | .str _ => none
  | .arr l =>
    let (json, query) ← findQuery l
    pure {
      json := json.filter fun i => item i 0 ≠ some (.str "query")
      query
      smt := beforeFirst "(query".toList smt }

def queryName (query : String) (n : Nat) : String := query ++ toString n

/-- The head of an implication, under any `let`s, replaced if it is the query. -/
def retarget (query name : String) : Json → Option Json
  | .arr (.str s :: b :: t :: l) =>
    if s = "let" then (retarget query name t).map fun t => .arr (.str s :: b :: t :: l)
    else if s = "=>" ∧ t = .str query then some (.arr (.str s :: b :: .str name :: l))
    else none
  | _ => none

def retargetRule (query name : String) : Json → Option Json
  | .arr (.str s :: t :: l) =>
    if s = "rule" then (retarget query name t).map fun t => .arr (.str s :: t :: l) else none
  | _ => none

/-- The rules with the new names, and how many there are; `n` have been given out before. -/
def retargetRules (query : String) : Nat → List Json → List Json × Nat
  | n, [] => ([], n)
  | n, i :: l =>
    match retargetRule query (queryName query n) i with
    | some i =>
      let (l, m) := retargetRules query (n + 1) l
      (i :: l, m)
    | none =>
      let (l, m) := retargetRules query n l
      (i :: l, m)

def declareRel (name : String) : Json := .arr [.str "declare-rel", .str name, .arr []]

/-- The declarations go before the first one, the last of them first. -/
def insertDeclarations (names : List String) : List Json → Option (List Json)
  | [] => some []
  | i :: l => do
    let name ← item i 0
    if name = .str "declare-rel" then pure (names.reverse.map declareRel ++ i :: l)
    else
      let l ← insertDeclarations names l
      pure (i :: l)

/-- What `partition` leaves behind: the commands of the root, whose rules it changes in place, the
script of the OR node with its text, and the new queries with the texts of the AND nodes. -/
structure Partition where
  json : List Json
  script : List Json
  smt : List Char
  queries : List String
  children : List (List Char)
  deriving DecidableEq

def queryText (name : String) : List Char := "(query ".toList ++ name.toList ++ [')']

/-- The names are made for a query without arguments. -/
def partition (fp : Fixedpoint) : Option Partition := do
  match fp.query with
  | .arr _ => none
  | .str query =>
    let (json, n) := retargetRules query 0 fp.json
    let queries := (List.range n).map (queryName query)
    let script ← insertDeclarations queries json
    pure { json, script, smt := json2smt script, queries, children := queries.map queryText }

end Fixedpoint

end Smts.Server
