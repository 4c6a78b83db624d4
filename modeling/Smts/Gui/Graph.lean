import Mathlib.Data.Int.ModEq
import Mathlib.Data.List.Sort
import Mathlib.Data.Nat.Digits.Defs
import Mathlib.Data.Sym.Sym2
import Mathlib.Tactic.Ring
import Smts.Gui.Cnf
import Smts.Lib.JsonText

namespace Smts.Gui

open Smts.Lib

def escape (c : Char) : List Char :=
  if c = '"' then ['\\', '"']
  else if c = '\\' then ['\\', '\\']
  else if c = '\n' then ['\\', 'n']
  else if c = '\r' then ['\\', 'r']
  else if c = '\t' then ['\\', 't']
  else if c.toNat = 8 then ['\\', 'b']
  else if c.toNat = 12 then ['\\', 'f']
  else if c.toNat < 0x20 then '\\' :: 'u' :: Json.hex c.toNat
  else [c]

mutual

/-- `JSON.stringify` -/
def stringify : Json → List Char
  | .str s => '"' :: s.toList.flatMap escape ++ ['"']
  | .arr l => '[' :: stringifyList l ++ [']']

def stringifyList : List Json → List Char
  | [] => []
  | [v] => stringify v
  | v :: w :: l => stringify v ++ ',' :: stringifyList (w :: l)

end

def literalUnits (literalName : Json) : List Nat := (stringify literalName).flatMap Json.units

/-- A number as the bit operators see it. -/
def toInt32 (x : Int) : Int := x.bmod (2 ^ 32)

def hashRound (hash : Int) (char : Nat) : Int := toInt32 (toInt32 (hash * 2 ^ 5) - hash + char)

def makeNodeId (literalName : Json) : Int := (literalUnits literalName).foldl hashRound 0

def makeEdgeId (id1 id2 : Int) : String :=
  if id1 < id2 then toString id1 ++ "-" ++ toString id2 else toString id2 ++ "-" ++ toString id1

mutual

def makeVariables (vars : List String) : Json → List String
  | .str s => if s ∈ vars then vars else vars ++ [s]
  | .arr [] => vars
  | .arr (_ :: l) => makeVariablesList vars l

def makeVariablesList (vars : List String) : List Json → List String
  | [] => vars
  | v :: l => makeVariablesList (makeVariables vars v) l

end

def getVariables (literalName : Json) : List String := makeVariables [] literalName

/-- `sort` without a comparison: by code units. -/
def sortStrings (l : List String) : List String :=
  l.insertionSort fun s t => ¬ List.Lex (· < ·) (t.toList.flatMap Json.units) (s.toList.flatMap Json.units)

structure Literal where
  id : Int
  name : List Char
  vars : List String
  clauseIds : List Nat

abbrev Literals := Int → Option Literal

section Data

/-- `\s` -/
def isSpace (c : Char) : Bool :=
  let n := c.toNat
  (9 ≤ n ∧ n ≤ 13) ∨ n = 32 ∨ n = 0xA0 ∨ n = 0x1680 ∨ (0x2000 ≤ n ∧ n ≤ 0x200A) ∨ n = 0x2028 ∨
    n = 0x2029 ∨ n = 0x202F ∨ n = 0x205F ∨ n = 0x3000 ∨ n = 0xFEFF

/-- `\w` -/
def isWord (c : Char) : Bool := c.isAlphanum || c = '_'

/-- `,?\s*"\.\w+"` -/
def dotted : Pattern Char := fun s =>
  let comma := if s.head? = some ',' then 1 else 0
  let blanks := ((s.drop comma).takeWhile isSpace).length
  match s.drop (comma + blanks) with
  | '"' :: '.' :: t =>
    let word := (t.takeWhile isWord).length
    if word ≠ 0 ∧ (t.drop word).head? = some '"' then some (comma + blanks + word + 3) else none
  | _ => none

/-- The CNF that `getData` goes through: without the variables that start with a dot. -/
def readCnf (cnfStr : List Char) : Option (List Json) :=
  match Json.loads (dotted.sub (fun _ => []) cnfStr) with
  | some (.arr (.arr cnf :: _)) => some cnf
  | _ => none

/-- The literals of a clause.  Unary clauses are not preceded by `or`. -/
def clauseLiterals (clause : Json) : List Json :=
  match clause with
  | .arr (head :: l) => if head = .str "or" then l else [clause]
  | _ => [clause]

def clausesOf (cnf : List Json) : List (List Json) := (cnf.drop 1).map clauseLiterals

def clauseNodes (addUnary : Bool) (clause : List Json) : List Node :=
  clause.map fun l => { id := makeNodeId l, isUnary := addUnary && clause.length = 1 }

def makeEdge (source target : Json) : Edge where
  id := makeEdgeId (makeNodeId target) (makeNodeId source)
  source := makeNodeId source
  target := makeNodeId target

def clauseEdges (previous : List Json) : List Json → List Edge
  | [] => []
  | l :: rest => previous.map (makeEdge · l) ++ clauseEdges (previous ++ [l]) rest

def addLiteral (clauseId : Nat) (literals : Literals) (literalName : Json) : Literals :=
  let id := makeNodeId literalName
  let literal := (literals id).getD
    { id, name := stringify literalName, vars := sortStrings (getVariables literalName)
      clauseIds := [] }
  Function.update literals id (some
    (if clauseId ∈ literal.clauseIds then literal
    else { literal with clauseIds := literal.clauseIds ++ [clauseId] }))

def addClauses (literals : Literals) (clauseId : Nat) : List (List Json) → Literals
  | [] => literals
  | clause :: clauses =>
    addClauses (clause.foldl (addLiteral clauseId) literals) (clauseId + 1) clauses

/-- `getData` on a text that has a CNF.  It also changes `this.literals`. -/
def getData (literals : Literals) (cnfStr : List Char) (addLiterals addUnary : Bool) :
    Option (Data × Literals) :=
  (readCnf cnfStr).map fun cnf =>
    let clauses := clausesOf cnf
    ({ nodes := clauses.flatMap (clauseNodes addUnary), edges := clauses.flatMap (clauseEdges []) },
      if addLiterals then addClauses literals 1 clauses else literals)

end Data

section NodeIds

variable {a b : Json}

/-- The text of a literal as a number: its code units are the digits, in base 31. -/
def literalNumber (literalName : Json) : Nat := Nat.ofDigits 31 (literalUnits literalName).reverse

theorem toInt32_modEq (x : Int) : toInt32 x ≡ x [ZMOD 2 ^ 32] := Int.bmod_emod

theorem toInt32_eq_iff {x y : Int} : toInt32 x = toInt32 y ↔ x ≡ y [ZMOD 2 ^ 32] := by
  refine ⟨fun h => (toInt32_modEq x).symm.trans (h ▸ toInt32_modEq y), fun h => ?_⟩
  have hxy : x % (2 ^ 32 : Nat) = y % (2 ^ 32 : Nat) := by exact_mod_cast h
  rw [toInt32, toInt32, ← Int.emod_bmod x, hxy, Int.emod_bmod]

theorem hashRound_toInt32 (x : Int) (char : Nat) :
    hashRound (toInt32 x) char = toInt32 (char + 31 * x) := by
  refine toInt32_eq_iff.mpr ?_
  have hshift : toInt32 (toInt32 x * 2 ^ 5) ≡ x * 2 ^ 5 [ZMOD 2 ^ 32] :=
    (toInt32_modEq _).trans ((toInt32_modEq x).mul_right _)
  have hround := (hshift.sub (toInt32_modEq x)).add_right (char : Int)
  rwa [show x * 2 ^ 5 - x + char = char + 31 * x by ring] at hround

theorem makeNodeId_eq (literalName : Json) :
    makeNodeId literalName = toInt32 (literalNumber literalName) := by
  rw [makeNodeId, literalNumber]
  induction literalUnits literalName using List.reverseRecOn with
  | nil => rfl
  | append_singleton units char ih =>
    rw [List.foldl_append, List.foldl_cons, List.foldl_nil, ih, hashRound_toInt32, List.reverse_append,
      List.reverse_singleton, List.singleton_append, Nat.ofDigits_cons]
    push_cast
    rfl

/-- Literals have the same id where their numbers agree modulo `2 ^ 32`. -/
theorem makeNodeId_eq_iff :
    makeNodeId a = makeNodeId b ↔ literalNumber a ≡ literalNumber b [MOD 2 ^ 32] := by
  rw [makeNodeId_eq, makeNodeId_eq, toInt32_eq_iff]
  exact_mod_cast Int.natCast_modEq_iff (n := 2 ^ 32)

end NodeIds

section EdgeIds

theorem toList_toString (x : Int) :
    (toString x).toList = (if x < 0 then ['-'] else []) ++ Nat.toDigits 10 x.natAbs := by
  cases x with
  | ofNat n =>
    have hn : ¬ Int.ofNat n < 0 := Int.not_lt.mpr (Int.natCast_nonneg n)
    rw [if_neg hn, List.nil_append]
    exact Nat.toList_repr
  | negSucc n =>
    rw [if_pos (Int.negSucc_lt_zero n)]
    have htext : toString (Int.negSucc n) = "-" ++ Nat.repr (n + 1) := rfl
    rw [htext, String.toList_append, Nat.toList_repr]
    rfl

theorem hyphen_notMem_toDigits (n : Nat) : '-' ∉ Nat.toDigits 10 n := fun h =>
  absurd (Nat.isDigit_of_mem_toDigits (by decide) (by decide) h) (by decide)

theorem toString_int_inj {x y : Int} (h : (toString x).toList = (toString y).toList) : x = y := by
  rw [toList_toString, toList_toString] at h
  have digits {m n : Nat} (h : Nat.toDigits 10 m = Nat.toDigits 10 n) : m = n := by
    rw [← @Nat.ofDigitChars_ten_toDigits m, h, Nat.ofDigitChars_ten_toDigits]
  by_cases hx : x < 0
  · by_cases hy : y < 0
    · simp only [hx, hy, if_true, List.append_cancel_left_eq] at h
      have := digits h
      omega
    · simp only [hx, hy, if_true, if_false, List.singleton_append, List.nil_append] at h
      exact absurd (h ▸ List.mem_cons_self) (hyphen_notMem_toDigits y.natAbs)
  · by_cases hy : y < 0
    · simp only [hx, hy, if_true, if_false, List.singleton_append, List.nil_append] at h
      exact absurd (h ▸ List.mem_cons_self) (hyphen_notMem_toDigits x.natAbs)
    · simp only [hx, hy, if_false, List.nil_append] at h
      have := digits h
      omega

theorem toString_cons (x : Int) : ∃ c s, (toString x).toList = c :: s ∧ '-' ∉ s := by
  by_cases hx : x < 0
  · exact ⟨'-', _, by rw [toList_toString, if_pos hx]; rfl, hyphen_notMem_toDigits _⟩
  · cases hn : Nat.toDigits 10 x.natAbs with
    | nil => exact absurd hn Nat.toDigits_ne_nil
    | cons c s =>
      refine ⟨c, s, by rw [toList_toString, if_neg hx, hn]; rfl, fun h => ?_⟩
      exact hyphen_notMem_toDigits x.natAbs (hn ▸ List.mem_cons_of_mem c h)

theorem toString_append_inj {x y : Int} {s t : List Char}
    (h : (toString x).toList ++ '-' :: s = (toString y).toList ++ '-' :: t) : x = y ∧ s = t := by
  obtain ⟨c, u, hx, hu⟩ := toString_cons x
  obtain ⟨d, v, hy, hv⟩ := toString_cons y
  rw [hx, hy, List.cons_append, List.cons_append, List.cons.injEq] at h
  obtain ⟨rfl, h⟩ := h
  have run {w : List Char} (hw : '-' ∉ w) (r : List Char) :
      (w ++ '-' :: r).takeWhile (fun c => decide (c ≠ '-')) = w :=
    takeWhile_run (fun c hc => by simpa using fun he : c = '-' => hw (he ▸ hc)) (by simp)
  have huv : u = v := by rw [← run hu s, h, run hv t]
  subst huv
  refine ⟨?_, (List.cons.inj (List.append_cancel_left h)).2⟩
  exact toString_int_inj (hx.trans hy.symm)

theorem makeEdgeId_eq (x y : Int) :
    makeEdgeId x y = toString (min x y) ++ "-" ++ toString (max x y) := by
  rw [makeEdgeId]
  split
  · next h => rw [min_eq_left (le_of_lt h), max_eq_right (le_of_lt h)]
  · next h => rw [min_eq_right (not_lt.mp h), max_eq_left (not_lt.mp h)]

/-- An edge id stands for one unordered pair of node ids. -/
theorem makeEdgeId_eq_iff {x y z w : Int} :
    makeEdgeId x y = makeEdgeId z w ↔ s(x, y) = s(z, w) := by
  constructor
  · intro h
    rw [makeEdgeId_eq, makeEdgeId_eq] at h
    have htext := congrArg String.toList h
    simp only [String.toList_append, List.append_assoc] at htext
    obtain ⟨hmin, hmax⟩ := toString_append_inj htext
    have hmax := toString_int_inj hmax
    rw [Sym2.eq_iff]
    omega
  · intro h
    rw [makeEdgeId_eq, makeEdgeId_eq]
    rcases Sym2.eq_iff.mp h with ⟨rfl, rfl⟩ | ⟨rfl, rfl⟩
    · rfl
    · rw [min_comm, max_comm]

end EdgeIds

section Edges

variable {previous clause : List Json} {a b : Json}

theorem mem_clauseEdges {e : Edge} {l : List Json} : e ∈ clauseEdges previous l ↔
    ∃ pre target post source, l = pre ++ target :: post ∧ source ∈ previous ++ pre ∧
      e = makeEdge source target := by
  induction l generalizing previous with
  | nil => simp [clauseEdges]
  | cons v l ih =>
    rw [clauseEdges, List.mem_append, List.mem_map, ih]
    constructor
    · rintro (⟨source, hsource, rfl⟩ | ⟨pre, target, post, source, rfl, hsource, rfl⟩)
      · exact ⟨[], v, l, source, rfl, by simpa using hsource, rfl⟩
      · exact ⟨v :: pre, target, post, source, rfl, by simpa using hsource, rfl⟩
    · rintro ⟨pre, target, post, source, hl, hsource, rfl⟩
      cases pre with
      | nil =>
        cases hl
        exact .inl ⟨source, by simpa using hsource, rfl⟩
      | cons w pre =>
        cases hl
        exact .inr ⟨pre, target, post, source, rfl, by simpa using hsource, rfl⟩

theorem exists_clauseEdge (ha : a ∈ clause) (hb : b ∈ clause) (hne : a ≠ b) :
    ∃ e ∈ clauseEdges [] clause, s(e.source, e.target) = s(makeNodeId a, makeNodeId b) := by
  obtain ⟨pre, post, rfl⟩ := List.append_of_mem ha
  rcases List.mem_append.mp hb with hb | hb
  · exact ⟨makeEdge b a, mem_clauseEdges.mpr ⟨pre, a, post, b, rfl, by simpa using hb, rfl⟩, Sym2.eq_swap⟩
  · obtain ⟨mid, rest, rfl⟩ := List.append_of_mem ((List.mem_cons.mp hb).resolve_left hne.symm)
    exact ⟨makeEdge a b, mem_clauseEdges.mpr ⟨pre ++ a :: mid, b, rest, a, by simp, by simp, rfl⟩, rfl⟩

theorem clauseEdge_ends {e : Edge} (h : e ∈ clauseEdges [] clause) :
    ∃ source ∈ clause, ∃ target ∈ clause, e = makeEdge source target := by
  obtain ⟨pre, target, post, source, rfl, hsource, rfl⟩ := mem_clauseEdges.mp h
  refine ⟨source, List.mem_append_left _ (by simpa using hsource), target, ?_, rfl⟩
  exact List.mem_append_right _ List.mem_cons_self

end Edges

/-- Literals are told apart by their node ids, joined where they share a clause, and joined by one
edge id. -/
structure Data.Faithful (data : Data) (clauses : List (List Json)) : Prop where
  length : data.nodes.length = clauses.flatten.length
  nodes : ∀ (p q : Nat) (a b : Json) (m n : Node), clauses.flatten[p]? = some a →
    clauses.flatten[q]? = some b → data.nodes[p]? = some m → data.nodes[q]? = some n →
    (m.id = n.id ↔ a = b)
  edges : ∀ (p q : Nat) (a b : Json) (m n : Node), clauses.flatten[p]? = some a →
    clauses.flatten[q]? = some b → data.nodes[p]? = some m → data.nodes[q]? = some n → a ≠ b →
    ((∃ e ∈ data.edges, s(e.source, e.target) = s(m.id, n.id)) ↔ ∃ c ∈ clauses, a ∈ c ∧ b ∈ c)
  pairs : ∀ e ∈ data.edges, ∀ f ∈ data.edges,
    (e.id = f.id ↔ s(e.source, e.target) = s(f.source, f.target))

/-- No two literals have numbers that agree modulo `2 ^ 32`. -/
def Collisionless (clauses : List (List Json)) : Prop :=
  ∀ a ∈ clauses.flatten, ∀ b ∈ clauses.flatten, a ≠ b →
    ¬ literalNumber a ≡ literalNumber b [MOD 2 ^ 32]

instance (clauses : List (List Json)) : Decidable (Collisionless clauses) :=
  inferInstanceAs (Decidable (∀ a ∈ clauses.flatten, ∀ b ∈ clauses.flatten, _ → ¬ Nat.ModEq _ _ _))

section Graph

theorem nodes_ids (clauses : List (List Json)) (addUnary : Bool) :
    (clauses.flatMap (clauseNodes addUnary)).map Node.id = clauses.flatten.map makeNodeId := by
  induction clauses with
  | nil => rfl
  | cons clause clauses ih =>
    have hclause : (clauseNodes addUnary clause).map Node.id = clause.map makeNodeId := by
      rw [clauseNodes, List.map_map]
      rfl
    rw [List.flatMap_cons, List.map_append, hclause, ih, List.flatten_cons, List.map_append]

variable {clauses : List (List Json)} {addUnary : Bool}

theorem node_id {p : Nat} {a : Json} {m : Node} (ha : clauses.flatten[p]? = some a)
    (hm : (clauses.flatMap (clauseNodes addUnary))[p]? = some m) : m.id = makeNodeId a := by
  have h := congrArg (·[p]?) (nodes_ids clauses addUnary)
  simp only [List.getElem?_map, ha, hm, Option.map_some, Option.some.injEq] at h
  exact h

theorem faithful_iff : Data.Faithful { nodes := clauses.flatMap (clauseNodes addUnary)
                                       edges := clauses.flatMap (clauseEdges []) } clauses ↔
    Collisionless clauses := by
  have hlength : (clauses.flatMap (clauseNodes addUnary)).length = clauses.flatten.length := by
    have hids := congrArg List.length (nodes_ids clauses addUnary)
    rwa [List.length_map, List.length_map] at hids
  constructor
  · intro h a ha b hb hne hmod
    obtain ⟨p, hp⟩ := List.mem_iff_getElem?.mp ha
    obtain ⟨q, hq⟩ := List.mem_iff_getElem?.mp hb
    have node {p : Nat} {a : Json} (hp : clauses.flatten[p]? = some a) :
        ∃ m, (clauses.flatMap (clauseNodes addUnary))[p]? = some m := by
      have hlt : p < (clauses.flatMap (clauseNodes addUnary)).length :=
        hlength ▸ (List.getElem?_eq_some_iff.mp hp).1
      exact ⟨_, List.getElem?_eq_getElem hlt⟩
    obtain ⟨m, hm⟩ := node hp
    obtain ⟨n, hn⟩ := node hq
    refine hne ((h.nodes p q a b m n hp hq hm hn).mp ?_)
    rw [node_id hp hm, node_id hq hn]
    exact makeNodeId_eq_iff.mpr hmod
  · intro h
    have inj {a b : Json} (ha : a ∈ clauses.flatten) (hb : b ∈ clauses.flatten)
        (he : makeNodeId a = makeNodeId b) : a = b := by
      by_contra hne
      exact h a ha b hb hne (makeNodeId_eq_iff.mp he)
    refine ⟨hlength, fun p q a b m n hp hq hm hn => ?_, fun p q a b m n hp hq hm hn hne => ?_,
      fun e he f hf => ?_⟩
    · rw [node_id hp hm, node_id hq hn]
      exact ⟨inj (List.mem_of_getElem? hp) (List.mem_of_getElem? hq), fun he => he ▸ rfl⟩
    · rw [node_id hp hm, node_id hq hn]
      constructor
      · rintro ⟨e, he, hends⟩
        obtain ⟨c, hc, he⟩ := List.mem_flatMap.mp he
        obtain ⟨source, hs, target, ht, rfl⟩ := clauseEdge_ends he
        have hin {v : Json} (hv : v ∈ c) : v ∈ clauses.flatten := List.mem_flatten.mpr ⟨c, hc, hv⟩
        have ha := List.mem_of_getElem? hp
        have hb := List.mem_of_getElem? hq
        refine ⟨c, hc, ?_⟩
        rcases Sym2.eq_iff.mp hends with ⟨hsa, htb⟩ | ⟨hsb, hta⟩
        · exact ⟨inj (hin hs) ha hsa ▸ hs, inj (hin ht) hb htb ▸ ht⟩
        · exact ⟨inj (hin ht) ha hta ▸ ht, inj (hin hs) hb hsb ▸ hs⟩
      · rintro ⟨c, hc, ha, hb⟩
        obtain ⟨e, he, hends⟩ := exists_clauseEdge ha hb hne
        exact ⟨e, List.mem_flatMap.mpr ⟨c, hc, he⟩, hends⟩
    · have ends {e : Edge} (he : e ∈ clauses.flatMap (clauseEdges [])) :
          e.id = makeEdgeId e.target e.source := by
        obtain ⟨c, _, he⟩ := List.mem_flatMap.mp he
        obtain ⟨source, _, target, _, rfl⟩ := clauseEdge_ends he
        rfl
      change e.id = f.id ↔ _
      rw [ends he, ends hf, makeEdgeId_eq_iff, Sym2.eq_swap, Sym2.eq_swap (a := f.target)]

/-- The graph of a CNF is faithful to its clauses exactly if there is no collision. -/
theorem graph_faithful {cnfStr : List Char} {cnf : List Json} (h : readCnf cnfStr = some cnf)
    (literals : Literals) (addLiterals addUnary : Bool) : ∃ data literals',
      getData literals cnfStr addLiterals addUnary = some (data, literals') ∧
        (data.Faithful (clausesOf cnf) ↔ Collisionless (clausesOf cnf)) := by
  rw [getData, h]
  exact ⟨_, _, rfl, faithful_iff⟩

theorem graph_faithful_nested : ∃ data literals',
    getData (fun _ => none) "[[\"and\",[\"or\",\"a\",[\"not\",\"b\"]],\"c\"]]".toList true true =
      some (data, literals') ∧
    data.Faithful [[.str "a", .arr [.str "not", .str "b"]], [.str "c"]] := by
  have h : readCnf "[[\"and\",[\"or\",\"a\",[\"not\",\"b\"]],\"c\"]]".toList =
      some [.str "and", .arr [.str "or", .str "a", .arr [.str "not", .str "b"]], .str "c"] := by
    decide +kernel
  obtain ⟨data, literals', hdata, hfaithful⟩ := graph_faithful h (fun _ => none) true true
  exact ⟨data, literals', hdata, hfaithful.mpr (by decide +kernel)⟩

/-- The texts of `Aa` and `BB` have one hash: they are one node, with an edge to itself. -/
theorem graph_collision : ∃ data literals',
    getData (fun _ => none) "[[\"and\",[\"or\",\"Aa\",\"BB\"]]]".toList true true =
      some (data, literals') ∧
    data.nodes.map Node.id = [1078400, 1078400] ∧ data.edges.map Edge.id = ["1078400-1078400"] ∧
    (literals' 1078400).map Literal.name = some "\"Aa\"".toList ∧
    ¬ data.Faithful [[.str "Aa", .str "BB"]] := by
  have h : readCnf "[[\"and\",[\"or\",\"Aa\",\"BB\"]]]".toList =
      some [.str "and", .arr [.str "or", .str "Aa", .str "BB"]] := by
    decide +kernel
  have hcollide : ¬ Collisionless [[.str "Aa", .str "BB"]] := by decide +kernel
  rw [getData, h]
  refine ⟨_, _, rfl, by decide +kernel, by decide +kernel, by decide +kernel, fun hfaithful => ?_⟩
  exact hcollide (faithful_iff.mp hfaithful)

end Graph

end Smts.Gui
