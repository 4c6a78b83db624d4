import Smts.Lib.JsonText

namespace Smts.Server

open Smts.Lib

/-- `\s` of the patterns, on any text. -/
def isSpace (c : Char) : Bool :=
  let n := c.toNat
  (9 ≤ n ∧ n ≤ 13) ∨ (28 ≤ n ∧ n ≤ 32) ∨ n = 0x85 ∨ n = 0xA0 ∨ n = 0x1680 ∨
    (0x2000 ≤ n ∧ n ≤ 0x200A) ∨ n = 0x2028 ∨ n = 0x2029 ∨ n = 0x202F ∨ n = 0x205F ∨ n = 0x3000

namespace Patterns

/-- `;.*` -/
def comment : Pattern Char
  | ';' :: s => some ((s.takeWhile (· ≠ '\n')).length + 1)
  | _ => none

/-- `\|[^\|]*\|` -/
def bars : Pattern Char
  | '|' :: s =>
    let n := (s.takeWhile (· ≠ '|')).length
    if n < s.length then some (n + 2) else none
  | _ => none

def wordChar (c : Char) : Bool := c ≠ '"' ∧ ¬ isSpace c ∧ c ≠ '(' ∧ c ≠ ')'

/-- `[^\"\s()]+` -/
def word : Pattern Char := fun s =>
  match (s.takeWhile wordChar).length with
  | 0 => none
  | n + 1 => some (n + 1)

/-- `a\s*b` -/
def apart (a b : Char) : Pattern Char
  | c :: s =>
    if c = a then
      if (s.dropWhile isSpace).head? = some b then some ((s.takeWhile isSpace).length + 2) else none
    else none
  | [] => none

/-- `\)(?!\s*,|\s*\))` -/
def last : Pattern Char
  | ')' :: s =>
    let next := (s.dropWhile isSpace).head?
    if next = some ',' ∨ next = some ')' then none else some 1
  | _ => none

/-- `,\s*$` -/
def trailing : Pattern Char
  | ',' :: s => if s.dropWhile isSpace = [] then some (s.length + 1) else none
  | _ => none

def one (a : Char) : Pattern Char
  | c :: _ => if c = a then some 1 else none
  | [] => none

/-- `[{][0-9]*[}]` -/
def key : Pattern Char
  | '{' :: s =>
    let digits := s.takeWhile Char.isDigit
    if (s.drop digits.length).head? = some '}' then some (digits.length + 2) else none
  | _ => none

end Patterns

abbrev Strings := List (List Char × List Char)

def stringKey (n : Nat) : List Char := '{' :: Nat.toDigits 10 n ++ ['}']

/-- The matches go into `strings`, each under its key, which takes their place. -/
def addStrings : Strings → List (Char ⊕ List Char) → List Char × Strings
  | strings, [] => ([], strings)
  | strings, .inl c :: l =>
    let (s, strings) := addStrings strings l
    (c :: s, strings)
  | strings, .inr u :: l =>
    let key := stringKey strings.length
    let (s, strings) := addStrings (strings ++ [(key, ((Json.dumps u).drop 1).dropLast)]) l
    (key ++ s, strings)

/-- The keys replaced by what they stand for; a key that is not there raises. -/
def lookupStrings (strings : Strings) : List (Char ⊕ List Char) → Option (List Char)
  | [] => some []
  | .inl c :: l => (lookupStrings strings l).map (c :: ·)
  | .inr u :: l => do
    let t ← strings.lookup u
    let s ← lookupStrings strings l
    pure (t ++ s)

/-- `smt2json` up to `json.loads`; `none` where the code raises. -/
def smt2jsonText (smt : List Char) : Option (List Char) :=
  let smt := '(' :: smt ++ [')']
  let s := Patterns.comment.sub (fun _ => []) smt
  let (s, strings) := addStrings [] (Patterns.bars.scan s)
  let (s, strings) := addStrings strings (Json.quotation.scan s)
  let s := Patterns.word.sub (fun w => '"' :: w ++ ['"', ',', ' ']) s
  let s := (Patterns.apart ',' ')').sub (fun _ => [')']) s
  let s := (Patterns.apart ')' '(').sub (fun _ => [')', ',', ' ', '(']) s
  let s := Patterns.last.sub (fun _ => [')', ',', ' ']) s
  let s := Patterns.trailing.sub (fun _ => []) s
  let s := (Patterns.one '(').sub (fun _ => ['[']) s
  let s := (Patterns.one ')').sub (fun _ => [']']) s
  lookupStrings strings (Patterns.key.scan s)

def smt2json (smt : List Char) : Option Json := (smt2jsonText smt).bind Json.loads

mutual

def smtText : Json → List Char
  | .str s => s.toList
  | .arr l => '(' :: smtWords l ++ [')']

def smtWords : List Json → List Char
  | [] => []
  | [v] => smtText v
  | v :: w :: l => smtText v ++ ' ' :: smtWords (w :: l)

end

def json2smt : List Json → List Char
  | [] => []
  | [v] => smtText v
  | v :: w :: l => smtText v ++ '\n' :: json2smt (w :: l)

end Smts.Server
