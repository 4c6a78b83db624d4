import Mathlib.Data.List.Nodup
import Smts.Lib.Horn
import Smts.Server.Fixedpoint

namespace Smts.Server

open Smts.Lib

namespace Fixedpoint

/-- A fact, or an implication if there is a body, with the bindings of the `let`s around it, the
outermost first. -/
structure Rule where
  lets : List Json
  body : Option Json
  relation : String
  args : List Json
  deriving DecidableEq

/-- The names that a `let` binds. -/
def bound : Json → List String
  | .arr l => l.filterMap fun b =>
    match item b 0 with
    | some (.str x) => some x
    | _ => none
  | .str _ => []

/-- A relation with its arguments, unless the name is bound to something else. -/
def readHead (lets : List Json) (body : Option Json) : Json → Option Rule
  | .str s =>
    if s ∈ lets.flatMap bound ∨ s = "let" ∨ s = "=>" then none else some ⟨lets, body, s, []⟩
  | .arr (.str s :: a :: args) =>
    if s ∈ lets.flatMap bound ∨ s = "let" ∨ s = "=>" then none
    else some ⟨lets, body, s, a :: args⟩
  | .arr _ => none

def readTerm (lets : List Json) : Json → Option Rule
  | .arr [.str s, b, t] =>
    if s = "let" then readTerm (lets ++ [b]) t
    else if s = "=>" then readHead lets (some b) t
    else readHead lets none (.arr [.str s, b, t])
  | t => readHead lets none t

def readRule (i : Json) : Option Rule :=
  if item i 0 = some (.str "rule") then (item i 1).bind (readTerm []) else none

def rules (script : List Json) : List Rule := script.filterMap readRule

def declared (script : List Json) : List String :=
  script.filterMap fun i =>
    if item i 0 = some (.str "declare-rel") then
      match item i 1 with
      | some (.str r) => some r
      | _ => none
    else none

/-- What the terms of a script mean: the value of an argument under `let`s and an assignment to
the variables, and whether a body holds, given the facts of the relations. -/
structure Logic where
  Value : Type
  Assignment : Type
  assignment : Assignment
  value : Assignment → List Json → Json → Value
  holds : Set (String × List Value) → Assignment → List Json → Json → Prop

abbrev Logic.Fact (L : Logic) := String × List L.Value

def clause (L : Logic) (r : Rule) (ρ : L.Assignment) : Clause L.Fact where
  body I := ∀ b ∈ r.body, L.holds I ρ r.lets b
  head := (r.relation, r.args.map (L.value ρ r.lets))

def clauses (L : Logic) (rs : List Rule) : Set (Clause L.Fact) :=
  {c | ∃ r ∈ rs, ∃ ρ, c = clause L r ρ}

/-- A relation without arguments holds in every model of the rules. -/
def Derivable (L : Logic) (script : List Json) (q : String) : Prop :=
  (q, []) ∈ least (clauses L (rules script))

/-- Every rule is a fact or an implication for a declared relation, and its body asks for facts of
declared relations only and never for their absence. -/
structure Horn (L : Logic) (script : List Json) : Prop where
  readable : ∀ i ∈ script, item i 0 = some (.str "rule") → (readRule i).isSome
  declared : ∀ r ∈ rules script, r.relation ∈ declared script
  positive : ∀ r ∈ rules script, ∀ ρ, (clause L r ρ).Positive
  scope : ∀ r ∈ rules script, ∀ ρ, (clause L r ρ).Local fun f => f.1 ∈ Fixedpoint.declared script

def isImplication (q : String) (r : Rule) : Bool :=
  r.body.isSome && r.relation = q && r.args = []

def implications (q : String) (script : List Json) : List Rule :=
  (rules script).filter (isImplication q)

/-- The facts for the query and the rules for the other relations. -/
def others (q : String) (script : List Json) : List Rule :=
  (rules script).filter fun r => !isImplication q r

/-- The body holds for what the other rules derive. -/
def Fires (L : Logic) (q : String) (script : List Json) (r : Rule) : Prop :=
  ∃ ρ, (clause L r ρ).body (least (clauses L (others q script)))

/-- The name is not bound by a `let` around the implication. -/
def Free (name : String) (r : Rule) : Prop := name ∉ r.lets.flatMap bound

instance (name : String) (r : Rule) : Decidable (Free name r) :=
  inferInstanceAs (Decidable (¬ _))

/-- The rules after the implications have got their new names; a head that a `let` binds makes no
rule. -/
def renamed (q : String) : Nat → List Rule → List Rule
  | _, [] => []
  | n, r :: rs =>
    if isImplication q r then
      if Free (queryName q n) r then { r with relation := queryName q n } :: renamed q (n + 1) rs
      else renamed q (n + 1) rs
    else r :: renamed q n rs

section Renaming

variable {q name : String} {r : Rule} {lets : List Json} {t : Json} {script : List Json}

theorem toList_queryName (q : String) (n : Nat) :
    (queryName q n).toList = q.toList ++ Nat.toDigits 10 n := by
  rw [queryName, String.toList_append]
  exact congrArg _ Nat.toList_repr

theorem queryName_injective (q : String) : Function.Injective (queryName q) := by
  intro m n h
  have hlist := congrArg String.toList h
  rw [toList_queryName, toList_queryName, List.append_cancel_left_eq] at hlist
  rw [← @Nat.ofDigitChars_ten_toDigits m, hlist, Nat.ofDigitChars_ten_toDigits]

/-- The new names end in a digit. -/
theorem queryName_ne (q : String) (n : Nat) {s : String}
    (h : s.toList.getLast?.any Char.isDigit = false) : queryName q n ≠ s := by
  rintro rfl
  have hne : Nat.toDigits 10 n ≠ [] := Nat.toDigits_ne_nil
  have hlast : (queryName q n).toList.getLast? = some ((Nat.toDigits 10 n).getLast hne) := by
    rw [toList_queryName, List.getLast?_append_of_ne_nil _ hne, List.getLast?_eq_some_getLast hne]
  rw [hlast, Option.any_some,
    Nat.isDigit_of_mem_toDigits (by decide) (by decide) (List.getLast_mem hne)] at h
  cases h

theorem readHead_body {b : Option Json} (h : readHead lets b t = some r) : r.body = b := by
  rw [readHead.eq_def] at h
  split at h
  · split at h
    · cases h
    · cases h
      rfl
  · split at h
    · cases h
    · cases h
      rfl
  · cases h

theorem isImplication_of_body (h : r.body = none) : isImplication q r = false := by
  simp [isImplication, h]

theorem retarget_arr_none (h : t ≠ .str q) (s : String) (hs : s ≠ "let") (b : Json)
    (l : List Json) : retarget q name (.arr (.str s :: b :: t :: l)) = none := by
  rw [retarget, if_neg hs, if_neg fun he => h he.2]

/-- What becomes of a term that is renamed, and which terms are not. -/
theorem retarget_read (hname : name ≠ "let" ∧ name ≠ "=>") (t : Json) (lets : List Json)
    (h : readTerm lets t = some r) :
    (isImplication q r = true → ∃ t', retarget q name t = some t' ∧
        readTerm lets t' = if Free name r then some { r with relation := name } else none) ∧
      (isImplication q r = false → retarget q name t = none) := by
  induction lets, t using readTerm.induct with
  | case1 lets b t ih =>
    rw [readTerm, if_pos rfl] at h
    obtain ⟨hsome, hnone⟩ := ih h
    rw [retarget, if_pos rfl]
    refine ⟨fun himp => ?_, fun himp => by rw [hnone himp]; rfl⟩
    obtain ⟨t', ht, hread⟩ := hsome himp
    exact ⟨.arr [.str "let", b, t'], by rw [ht]; rfl, by rw [readTerm, if_pos rfl, hread]⟩
  | case2 lets b t hlet =>
    rw [readTerm, if_neg hlet, if_pos rfl] at h
    cases t with
    | str x =>
      rw [readHead] at h
      split at h
      · cases h
      · cases h
        refine ⟨fun himp => ?_, fun himp => ?_⟩
        · have hx : x = q := by simpa [isImplication] using himp
          refine ⟨.arr [.str "=>", b, .str name], ?_, ?_⟩
          · rw [retarget, if_neg hlet, if_pos ⟨rfl, by rw [hx]⟩]
          · rw [readTerm, if_neg hlet, if_pos rfl, readHead]
            simp only [hname.1, hname.2, or_self, or_false, Free]
            by_cases hbound : name ∈ lets.flatMap bound <;> simp [hbound]
        · have hx : x ≠ q := by simpa [isImplication] using himp
          exact retarget_arr_none (by simpa using hx) _ hlet _ _
    | arr l =>
      have hnone : retarget q name (.arr [.str "=>", b, .arr l]) = none :=
        retarget_arr_none (by simp) _ hlet _ _
      refine ⟨fun himp => ?_, fun _ => hnone⟩
      rw [readHead.eq_def] at h
      split at h
      · rename_i heq
        cases heq
      · split at h
        · cases h
        · cases h
          simp [isImplication] at himp
      · cases h
  | case3 lets s b t hlet himp =>
    rw [readTerm, if_neg hlet, if_neg himp] at h
    rw [isImplication_of_body (readHead_body h), retarget, if_neg hlet, if_neg fun he => himp he.1]
    exact ⟨fun h => absurd h (by simp), fun _ => rfl⟩
  | case4 lets t hshape =>
    have hread : readTerm lets t = readHead lets none t := by
      rw [readTerm.eq_def]
      split
      · exact absurd rfl (hshape _ _ _)
      · rfl
    rw [hread] at h
    rw [isImplication_of_body (readHead_body h)]
    refine ⟨fun h => absurd h (by simp), fun _ => ?_⟩
    rw [readHead.eq_def] at h
    split at h
    · rw [retarget]
      simp
    · rename_i s a args
      split at h
      · cases h
      · rename_i hs
        rw [not_or, not_or] at hs
        cases args with
        | nil =>
          rw [retarget]
          simp
        | cons t l => rw [retarget, if_neg hs.2.1, if_neg fun he => hs.2.2 he.1]
    · cases h

theorem item_zero {i : Json} {s : String} (hs : s.toList.length ≠ 1)
    (h : item i 0 = some (.str s)) : ∃ l, i = .arr (.str s :: l) := by
  cases i with
  | str u =>
    obtain ⟨c, -, hc⟩ := Option.map_eq_some_iff.mp h
    cases hc
    exact absurd (by simp) hs
  | arr l =>
    cases l with
    | nil => cases h
    | cons v l =>
      cases h
      exact ⟨l, rfl⟩

theorem retargetRule_none {i : Json} (h : item i 0 ≠ some (.str "rule")) :
    retargetRule q name i = none := by
  rw [retargetRule.eq_def]
  split
  · rename_i s t l
    rw [if_neg]
    rintro rfl
    exact h rfl
  · rfl

theorem retargetRule_read (hname : name ≠ "let" ∧ name ≠ "=>") {i : Json}
    (h : readRule i = some r) :
    (isImplication q r = true → ∃ i', retargetRule q name i = some i' ∧ item i' 0 = item i 0 ∧
        readRule i' = if Free name r then some { r with relation := name } else none) ∧
      (isImplication q r = false → retargetRule q name i = none) := by
  rw [readRule] at h
  split at h
  · rename_i hrule
    obtain ⟨l, rfl⟩ := item_zero (by decide) hrule
    cases l with
    | nil => cases h
    | cons t l =>
      obtain ⟨hsome, hnone⟩ := retarget_read hname t [] h
      rw [retargetRule, if_pos rfl]
      refine ⟨fun himp => ?_, fun himp => by rw [hnone himp]; rfl⟩
      obtain ⟨t', ht, hread⟩ := hsome himp
      refine ⟨.arr (.str "rule" :: t' :: l), by rw [ht]; rfl, rfl, ?_⟩
      rw [← hread]
      exact if_pos rfl
  · cases h

theorem readRule_none {i : Json} (h : item i 0 ≠ some (.str "rule")) : readRule i = none :=
  if_neg h

theorem rules_cons (i : Json) (l : List Json) :
    rules (i :: l) = (readRule i).toList ++ rules l := by
  rw [rules, List.filterMap_cons, rules]
  cases readRule i <;> rfl

/-- The rules that `partition` makes of the readable rules. -/
theorem rules_retargetRules (n : Nat)
    (hread : ∀ i ∈ script, item i 0 = some (.str "rule") → (readRule i).isSome) :
    rules (retargetRules q n script).1 = renamed q n (rules script) ∧
      (retargetRules q n script).2 = n + (implications q script).length ∧
      (retargetRules q n script).1.map (item · 0) = script.map (item · 0) := by
  induction script generalizing n with
  | nil => exact ⟨rfl, rfl, rfl⟩
  | cons i l ih =>
    rw [List.forall_mem_cons] at hread
    have hdigit (s : String) (hs : s.toList.getLast?.any Char.isDigit = false) :
        queryName q n ≠ s := queryName_ne q n hs
    have hname : queryName q n ≠ "let" ∧ queryName q n ≠ "=>" :=
      ⟨hdigit "let" (by decide), hdigit "=>" (by decide)⟩
    rw [retargetRules.eq_def]
    dsimp only
    by_cases hrule : item i 0 = some (.str "rule")
    · obtain ⟨r, hr⟩ := Option.isSome_iff_exists.mp (hread.1 hrule)
      have hretarget := retargetRule_read (q := q) hname hr
      obtain ⟨hsome, hnone⟩ := hretarget
      have hrules : rules (i :: l) = r :: rules l := by
        rw [rules_cons, hr]
        rfl
      have himplications : implications q (i :: l) =
          (if isImplication q r then [r] else []) ++ implications q l := by
        rw [implications, hrules, List.filter_cons, implications]
        split <;> rfl
      cases himp : isImplication q r with
      | true =>
        obtain ⟨i', hi, hitem, hread'⟩ := hsome himp
        obtain ⟨hrest, hcount, hitems⟩ := ih (n + 1) hread.2
        rw [hi]
        refine ⟨?_, ?_, ?_⟩
        · rw [rules_cons, hread', hrest, hrules, renamed, if_pos himp]
          split <;> rfl
        · rw [himplications, himp, if_pos rfl, List.singleton_append, List.length_cons, hcount]
          omega
        · rw [List.map_cons, List.map_cons, ← hitems, hitem]
      | false =>
        obtain ⟨hrest, hcount, hitems⟩ := ih n hread.2
        rw [hnone himp]
        refine ⟨?_, ?_, ?_⟩
        · rw [hrules, renamed, if_neg (by simp [himp]), rules_cons, hr, hrest]
          rfl
        · rw [himplications, himp]
          exact hcount
        · rw [List.map_cons, List.map_cons, ← hitems]
    · obtain ⟨hrules, hcount, hitems⟩ := ih n hread.2
      rw [retargetRule_none hrule]
      have hsame : implications q (i :: l) = implications q l := by
        rw [implications, rules_cons, readRule_none hrule]
        rfl
      refine ⟨?_, by rw [hsame]; exact hcount, ?_⟩
      · rw [rules_cons, rules_cons, readRule_none hrule]
        exact hrules
      · rw [List.map_cons, List.map_cons, ← hitems]

theorem rules_append (l m : List Json) : rules (l ++ m) = rules l ++ rules m :=
  List.filterMap_append

theorem rules_declareRel (names : List String) : rules (names.map declareRel) = [] := by
  induction names with
  | nil => rfl
  | cons name names ih =>
    rw [List.map_cons, rules_cons, readRule_none (by simp [declareRel, item]), ih]
    rfl

theorem insertDeclarations_rules (names : List String) {l : List Json}
    (h : ∀ i ∈ l, (item i 0).isSome) :
    ∃ l', insertDeclarations names l = some l' ∧ rules l' = rules l := by
  induction l with
  | nil => exact ⟨[], rfl, rfl⟩
  | cons i l ih =>
    rw [List.forall_mem_cons] at h
    obtain ⟨v, hv⟩ := Option.isSome_iff_exists.mp h.1
    rw [insertDeclarations, hv]
    by_cases hname : v = .str "declare-rel"
    · refine ⟨names.reverse.map declareRel ++ i :: l, by simp [hname], ?_⟩
      rw [rules_append, rules_declareRel, List.nil_append]
    · obtain ⟨l', hl, hrules⟩ := ih h.2
      refine ⟨i :: l', by simp [hname, hl], ?_⟩
      rw [rules_cons, rules_cons, hrules]

theorem findQuery_items {l json : List Json} {query : Json}
    (h : findQuery l = some (json, query)) : ∀ i ∈ json, (item i 0).isSome := by
  induction l generalizing json with
  | nil => cases h
  | cons i l ih =>
    rw [findQuery] at h
    obtain ⟨v, hv, h⟩ := Option.bind_eq_some_iff.mp h
    split at h
    · obtain ⟨u, -, h⟩ := Option.bind_eq_some_iff.mp h
      cases h
      simp
    · obtain ⟨u, hu, h⟩ := Option.bind_eq_some_iff.mp h
      cases h
      exact List.forall_mem_cons.mpr ⟨by rw [hv]; rfl, ih hu⟩

theorem init_items {smt : List Char} {fp : Fixedpoint} (h : init smt = some fp) :
    ∀ i ∈ fp.json, (item i 0).isSome := by
  rw [init] at h
  obtain ⟨v, -, h⟩ := Option.bind_eq_some_iff.mp h
  cases v with
  | str s => cases h
  | arr l =>
    obtain ⟨u, hu, h⟩ := Option.bind_eq_some_iff.mp h
    cases h
    exact fun i hi => findQuery_items hu i (List.mem_of_mem_filter hi)

theorem partition_rules {fp : Fixedpoint} (hitems : ∀ i ∈ fp.json, (item i 0).isSome)
    (hquery : fp.query = .str q)
    (hread : ∀ i ∈ fp.json, item i 0 = some (.str "rule") → (readRule i).isSome) :
    ∃ p, fp.partition = some p ∧ rules p.script = renamed q 0 (rules fp.json) ∧
      p.queries = (List.range (implications q fp.json).length).map (queryName q) := by
  obtain ⟨hrules, hcount, hsame⟩ := rules_retargetRules (q := q) 0 hread
  rw [Nat.zero_add] at hcount
  have hitems' : ∀ i ∈ (retargetRules q 0 fp.json).1, (item i 0).isSome := by
    intro i hi
    have hmem : item i 0 ∈ fp.json.map (item · 0) := hsame ▸ List.mem_map_of_mem hi
    obtain ⟨k, hk, heq⟩ := List.mem_map.mp hmem
    rw [← heq]
    exact hitems k hk
  obtain ⟨script, hscript, hrules'⟩ := insertDeclarations_rules
    ((List.range (retargetRules q 0 fp.json).2).map (queryName q)) hitems'
  rw [partition, hquery]
  dsimp only
  rw [hscript]
  exact ⟨_, rfl, hrules'.trans hrules, by rw [hcount]⟩

/-- The text of the OR node is that of its script. -/
theorem partition_text {fp : Fixedpoint} {p : Partition} (h : fp.partition = some p)
    (hatoms : ∀ s ∈ Smtlib.listAtoms p.script, Smtlib.Printable s) :
    smt2json p.smt = some (.arr p.script) := by
  have hsmt : p.smt = json2smt p.script := by
    rw [partition] at h
    split at h
    · cases h
    · obtain ⟨script, -, hp⟩ := Option.bind_eq_some_iff.mp h
      cases hp
      rfl
  rw [hsmt, Smtlib.read_printed p.script hatoms]

theorem mem_renamed {n : Nat} {rs : List Rule} {r' : Rule} :
    r' ∈ renamed q n rs ↔ (r' ∈ rs ∧ isImplication q r' = false) ∨
      ∃ k r, (rs.filter (isImplication q))[k]? = some r ∧ Free (queryName q (n + k)) r ∧
        r' = { r with relation := queryName q (n + k) } := by
  induction rs generalizing n with
  | nil => simp [renamed]
  | cons r rs ih =>
    cases himp : isImplication q r with
    | false =>
      rw [renamed, if_neg (by simp [himp]), List.mem_cons, ih, List.mem_cons,
        List.filter_cons_of_neg (by simp [himp]), ← or_assoc]
      refine or_congr_left ⟨?_, ?_⟩
      · rintro (rfl | ⟨hmem, hr⟩)
        · exact ⟨.inl rfl, himp⟩
        · exact ⟨.inr hmem, hr⟩
      · rintro ⟨rfl | hmem, hr⟩
        · exact .inl rfl
        · exact .inr ⟨hmem, hr⟩
    | true =>
      rw [renamed, if_pos himp, List.filter_cons_of_pos himp, List.mem_cons]
      have hshift (k : Nat) : n + 1 + k = n + (k + 1) := by omega
      have hold : (r' = r ∨ r' ∈ rs) ∧ isImplication q r' = false ↔
          r' ∈ rs ∧ isImplication q r' = false := by
        refine and_congr_left fun hr => or_iff_right ?_
        rintro rfl
        rw [himp] at hr
        cases hr
      have hnew : (∃ k s, (r :: rs.filter (isImplication q))[k]? = some s ∧
            Free (queryName q (n + k)) s ∧ r' = { s with relation := queryName q (n + k) }) ↔
          (Free (queryName q n) r ∧ r' = { r with relation := queryName q n }) ∨
            ∃ k s, (rs.filter (isImplication q))[k]? = some s ∧
              Free (queryName q (n + 1 + k)) s ∧
              r' = { s with relation := queryName q (n + 1 + k) } := by
        refine ⟨?_, ?_⟩
        · rintro ⟨k, s, hs, hfree, heq⟩
          cases k with
          | zero =>
            cases hs
            exact .inl ⟨hfree, heq⟩
          | succ k => exact .inr ⟨k, s, hs, hshift k ▸ hfree, hshift k ▸ heq⟩
        · rintro (⟨hfree, heq⟩ | ⟨k, s, hs, hfree, heq⟩)
          · exact ⟨0, r, rfl, hfree, heq⟩
          · exact ⟨k + 1, s, hs, hshift k ▸ hfree, hshift k ▸ heq⟩
      rw [hold, hnew]
      split
      · rename_i hfree
        rw [List.mem_cons, ih, and_iff_right hfree]
        exact or_left_comm
      · rename_i hfree
        rw [ih]
        exact or_congr_right (or_iff_right fun hcase => hfree hcase.1).symm

end Renaming

section Semantics

variable {L : Logic} {script : List Json} {q : String}

theorem mem_implications {r : Rule} : r ∈ implications q script ↔
    r ∈ rules script ∧ r.body.isSome ∧ r.relation = q ∧ r.args = [] := by
  rw [implications, List.mem_filter]
  simp [isImplication, and_assoc]

theorem mem_others {r : Rule} :
    r ∈ others q script ↔ r ∈ rules script ∧ isImplication q r = false := by
  rw [others, List.mem_filter, Bool.not_eq_true']

theorem clauses_union (L : Logic) (q : String) (script : List Json) :
    clauses L (rules script) = clauses L (others q script) ∪ clauses L (implications q script) := by
  ext c
  refine ⟨?_, ?_⟩
  · rintro ⟨r, hr, ρ, rfl⟩
    cases himp : isImplication q r with
    | true => exact .inr ⟨r, List.mem_filter.mpr ⟨hr, himp⟩, ρ, rfl⟩
    | false => exact .inl ⟨r, mem_others.mpr ⟨hr, himp⟩, ρ, rfl⟩
  · rintro (⟨r, hr, ρ, rfl⟩ | ⟨r, hr, ρ, rfl⟩)
    · exact ⟨r, (mem_others.mp hr).1, ρ, rfl⟩
    · exact ⟨r, (mem_implications.mp hr).1, ρ, rfl⟩

/-- The clauses that the implications become. -/
def renamedClauses (L : Logic) (q : String) (script : List Json) : Set (Clause L.Fact) :=
  {c | ∃ k r, (implications q script)[k]? = some r ∧ Free (queryName q k) r ∧
    ∃ ρ, c = clause L { r with relation := queryName q k } ρ}

theorem clauses_renamed (L : Logic) (q : String) (script : List Json) :
    clauses L (renamed q 0 (rules script)) =
      clauses L (others q script) ∪ renamedClauses L q script := by
  ext c
  refine ⟨?_, ?_⟩
  · rintro ⟨r', hr', ρ, rfl⟩
    rcases mem_renamed.mp hr' with hother | ⟨k, r, hk, hfree, rfl⟩
    · exact .inl ⟨r', mem_others.mpr hother, ρ, rfl⟩
    · rw [Nat.zero_add] at hfree ⊢
      exact .inr ⟨k, r, hk, hfree, ρ, rfl⟩
  · rintro (⟨r, hr, ρ, rfl⟩ | ⟨k, r, hk, hfree, ρ, rfl⟩)
    · exact ⟨r, mem_renamed.mpr (.inl (mem_others.mp hr)), ρ, rfl⟩
    · refine ⟨_, mem_renamed.mpr (.inr ⟨k, r, hk, ?_, rfl⟩), ρ, by rw [Nat.zero_add]⟩
      rwa [Nat.zero_add]

variable (h : Horn L script)

include h

theorem Horn.positive_others : ∀ c ∈ clauses L (others q script), c.Positive := by
  rintro c ⟨r, hr, ρ, rfl⟩
  exact h.positive r (mem_others.mp hr).1 ρ

theorem Horn.positive_implications : ∀ c ∈ clauses L (implications q script), c.Positive := by
  rintro c ⟨r, hr, ρ, rfl⟩
  exact h.positive r (mem_implications.mp hr).1 ρ

theorem Horn.positive_renamed : ∀ c ∈ renamedClauses L q script, c.Positive := by
  rintro c ⟨k, r, hk, -, ρ, rfl⟩
  exact h.positive r (mem_implications.mp (List.mem_of_getElem? hk)).1 ρ

/-- The query is derived by a fact, or by an implication whose body follows from the rest. -/
theorem Horn.derivable_iff : Derivable L script q ↔
    (∃ r ∈ rules script, r.relation = q ∧ r.args = [] ∧ r.body = none) ∨
      ∃ r ∈ implications q script, Fires L q script r := by
  have hhead : ∀ c ∈ clauses L (implications q script), c.head = (q, []) := by
    rintro c ⟨r, hr, ρ, rfl⟩
    obtain ⟨-, -, hrelation, hargs⟩ := mem_implications.mp hr
    rw [clause, hrelation, hargs]
    rfl
  rw [Derivable, clauses_union L q, mem_least_union h.positive_others h.positive_implications hhead]
  refine or_congr ?_ ?_
  · rw [mem_least h.positive_others]
    refine ⟨?_, ?_⟩
    · rintro ⟨c, ⟨r, hr, ρ, rfl⟩, heq, -⟩
      obtain ⟨hmem, himp⟩ := mem_others.mp hr
      have hrelation : r.relation = q := congrArg Prod.fst heq
      have hargs : r.args = [] := List.map_eq_nil_iff.mp (congrArg Prod.snd heq)
      refine ⟨r, hmem, hrelation, hargs, ?_⟩
      simpa [isImplication, hrelation, hargs] using himp
    · rintro ⟨r, hr, hrelation, hargs, hbody⟩
      refine ⟨clause L r L.assignment, ⟨r, mem_others.mpr ⟨hr, ?_⟩, _, rfl⟩, ?_, ?_⟩
      · simp [isImplication, hbody]
      · rw [clause, hrelation, hargs]
        rfl
      · intro b hb
        rw [hbody] at hb
        cases hb
  · refine ⟨?_, ?_⟩
    · rintro ⟨c, ⟨r, hr, ρ, rfl⟩, hbody⟩
      exact ⟨r, hr, ρ, hbody⟩
    · rintro ⟨r, hr, ρ, hbody⟩
      exact ⟨_, ⟨r, hr, ρ, rfl⟩, hbody⟩

/-- A new query is derived by its own implication alone. -/
theorem Horn.new_derivable_iff {k : Nat}
    (hfresh : ∀ k < (implications q script).length, queryName q k ∉ Fixedpoint.declared script)
    (hk : k < (implications q script).length) :
    (queryName q k, []) ∈ least (clauses L (renamed q 0 (rules script))) ↔
      ∃ r, (implications q script)[k]? = some r ∧ Free (queryName q k) r ∧ Fires L q script r := by
  have hlocal : ∀ c ∈ clauses L (others q script) ∪ renamedClauses L q script,
      c.Local fun f => f.1 ∈ Fixedpoint.declared script := by
    rintro c (⟨r, hr, ρ, rfl⟩ | ⟨k, r, hk, -, ρ, rfl⟩)
    · exact h.scope r (mem_others.mp hr).1 ρ
    · exact h.scope r (mem_implications.mp (List.mem_of_getElem? hk)).1 ρ
  have hhead : ∀ c ∈ renamedClauses L q script, ¬ c.head.1 ∈ Fixedpoint.declared script := by
    rintro c ⟨k, r, hk, -, ρ, rfl⟩
    exact hfresh k (List.getElem?_eq_some_iff.mp hk).1
  have hold : (queryName q k, []) ∉ least (clauses L (others q script)) := by
    rw [mem_least h.positive_others]
    rintro ⟨c, ⟨r, hr, ρ, rfl⟩, heq, -⟩
    have hrelation : r.relation = queryName q k := congrArg Prod.fst heq
    exact hfresh k hk (hrelation ▸ h.declared r (mem_others.mp hr).1)
  rw [clauses_renamed, least_extension h.positive_others h.positive_renamed hlocal hhead,
    Set.mem_union, or_iff_right hold]
  refine ⟨?_, ?_⟩
  · rintro ⟨c, ⟨j, r, hj, hfree, ρ, rfl⟩, heq, hbody⟩
    obtain rfl : j = k := queryName_injective q (congrArg Prod.fst heq)
    exact ⟨r, hj, hfree, ρ, hbody⟩
  · rintro ⟨r, hr, hfree, ρ, hbody⟩
    refine ⟨_, ⟨k, r, hr, hfree, ρ, rfl⟩, ?_, hbody⟩
    rw [clause, (mem_implications.mp (List.mem_of_getElem? hr)).2.2.2]
    rfl

end Semantics

/-- The query holds if and only if one of the new ones does, and these are new.  It does so just
if none of the names is declared and either an implication whose new name no `let` around it binds
fires, or none fires and there is no fact for the query. -/
theorem partition_preserves (L : Logic) {smt : List Char} {fp : Fixedpoint} {q : String}
    (hinit : init smt = some fp) (hquery : fp.query = .str q) (h : Horn L fp.json) :
    ∃ p, fp.partition = some p ∧
      (((Derivable L fp.json q ↔ ∃ name ∈ p.queries, Derivable L p.script name) ∧
          p.queries.Nodup ∧ ∀ name ∈ p.queries, name ∉ declared fp.json) ↔
        (∀ k < (implications q fp.json).length, queryName q k ∉ declared fp.json) ∧
          ((∃ k r, (implications q fp.json)[k]? = some r ∧ Free (queryName q k) r ∧
              Fires L q fp.json r) ∨
            (∀ r ∈ rules fp.json, r.relation = q → r.args = [] → r.body ≠ none) ∧
              ∀ r ∈ implications q fp.json, ¬ Fires L q fp.json r)) := by
  obtain ⟨p, hp, hrules, hqueries⟩ := partition_rules (init_items hinit) hquery h.readable
  refine ⟨p, hp, ?_⟩
  have hnodup : p.queries.Nodup := by
    rw [hqueries]
    exact List.nodup_range.map (queryName_injective q)
  have hnew : (∀ name ∈ p.queries, name ∉ declared fp.json) ↔
      ∀ k < (implications q fp.json).length, queryName q k ∉ declared fp.json := by
    simp [hqueries]
  rw [hnew, and_iff_right hnodup, and_comm]
  refine and_congr_right fun hfresh => ?_
  have hderived : (∃ name ∈ p.queries, Derivable L p.script name) ↔
      ∃ k r, (implications q fp.json)[k]? = some r ∧ Free (queryName q k) r ∧ Fires L q fp.json r := by
    rw [hqueries]
    refine ⟨?_, ?_⟩
    · rintro ⟨name, hname, hder⟩
      obtain ⟨k, hk, rfl⟩ := List.mem_map.mp hname
      rw [Derivable, hrules, h.new_derivable_iff hfresh (List.mem_range.mp hk)] at hder
      exact ⟨k, hder⟩
    · rintro ⟨k, r, hr, hfires⟩
      have hk := (List.getElem?_eq_some_iff.mp hr).1
      refine ⟨_, List.mem_map_of_mem (List.mem_range.mpr hk), ?_⟩
      rw [Derivable, hrules, h.new_derivable_iff hfresh hk]
      exact ⟨r, hr, hfires⟩
  rw [hderived, h.derivable_iff]
  set new := ∃ k r, (implications q fp.json)[k]? = some r ∧ Free (queryName q k) r ∧
    Fires L q fp.json r
  have hfires : new → ∃ r ∈ implications q fp.json, Fires L q fp.json r := by
    rintro ⟨k, r, hr, -, hf⟩
    exact ⟨r, List.mem_of_getElem? hr, hf⟩
  refine ⟨fun hiff => ?_, ?_⟩
  · by_cases hn : new
    · exact .inl hn
    · have hnone := fun hold => hn (hiff.mp hold)
      refine .inr ⟨fun r hr hrelation hargs hbody => hnone (.inl ⟨r, hr, hrelation, hargs, hbody⟩),
        fun r hr hf => hnone (.inr ⟨r, hr, hf⟩)⟩
  · rintro (hn | ⟨hfact, hnone⟩)
    · exact iff_of_true (.inr (hfires hn)) hn
    · refine iff_of_false ?_ fun hn => ?_
      · rintro (⟨r, hr, hrelation, hargs, hbody⟩ | ⟨r, hr, hf⟩)
        · exact hfact r hr hrelation hargs hbody
        · exact hnone r hr hf
      · obtain ⟨r, hr, hf⟩ := hfires hn
        exact hnone r hr hf

/-- A relation without arguments, or some of them after `and`. -/
def conjuncts : Json → List String
  | .str r => [r]
  | .arr l => (l.drop 1).filterMap fun
    | .str r => some r
    | .arr _ => none

/-- Relations have no arguments, and bodies are conjunctions. -/
def propositional : Logic where
  Value := Unit
  Assignment := Unit
  assignment := ()
  value _ _ _ := ()
  holds I _ _ b := ∀ r ∈ conjuncts b, (r, []) ∈ I

theorem propositional_horn {script : List Json}
    (hread : ∀ i ∈ script, item i 0 = some (.str "rule") → (readRule i).isSome)
    (hrules : ∀ r ∈ rules script, r.relation ∈ declared script ∧
      ∀ b ∈ r.body, ∀ x ∈ conjuncts b, x ∈ declared script) :
    Horn propositional script where
  readable := hread
  declared r hr := (hrules r hr).1
  positive r hr ρ I J hIJ hbody b hb x hx := hIJ (hbody b hb x hx)
  scope r hr ρ I J hsame := by
    refine forall₂_congr fun b hb => forall₂_congr fun x hx => ?_
    exact hsame (x, []) ((hrules r hr).2 b hb x hx)

section Scripts

def chained : Fixedpoint where
  json := [.arr [.str "declare-rel", .str "P", .arr []], .arr [.str "declare-rel", .str "Q", .arr []],
    .arr [.str "rule", .str "P"], .arr [.str "rule", .arr [.str "=>", .str "P", .str "Q"]]]
  query := .str "Q"
  smt := "(declare-rel P ()) (declare-rel Q ()) (rule P) (rule (=> P Q)) ".toList

theorem partition_preserves_chained :
    init "(declare-rel P ()) (declare-rel Q ()) (rule P) (rule (=> P Q)) (query Q)".toList =
        some chained ∧
      ∃ p, chained.partition = some p ∧
        (Derivable propositional chained.json "Q" ↔
          ∃ name ∈ p.queries, Derivable propositional p.script name) ∧
        p.queries.Nodup ∧ ∀ name ∈ p.queries, name ∉ declared chained.json := by
  have hinit : init "(declare-rel P ()) (declare-rel Q ()) (rule P) (rule (=> P Q)) (query Q)".toList =
      some chained := by decide +kernel
  have hhorn : Horn propositional chained.json :=
    propositional_horn (by decide +kernel) (by decide +kernel)
  obtain ⟨p, hp, hiff⟩ := partition_preserves propositional hinit rfl hhorn
  refine ⟨hinit, p, hp, hiff.mpr ⟨by decide +kernel, .inl
    ⟨0, ⟨[], some (.str "P"), "Q", []⟩, by decide +kernel, by decide +kernel, (), ?_⟩⟩⟩
  have hfact : (⟨[], none, "P", []⟩ : Rule) ∈ others "Q" chained.json := by decide +kernel
  intro b hb x hx I hI
  cases hb
  cases List.mem_singleton.mp hx
  exact hI _ ⟨_, hfact, (), rfl⟩ fun b hb => by cases hb

def fact : Fixedpoint where
  json := [.arr [.str "declare-rel", .str "Q", .arr []], .arr [.str "rule", .str "Q"]]
  query := .str "Q"
  smt := "(declare-rel Q ()) (rule Q) ".toList

/-- A fact for the query is not renamed. -/
theorem partition_loses :
    init "(declare-rel Q ()) (rule Q) (query Q)".toList = some fact ∧
      Horn propositional fact.json ∧
      ∃ p, fact.partition = some p ∧ Derivable propositional fact.json "Q" ∧
        ¬ ∃ name ∈ p.queries, Derivable propositional p.script name := by
  refine ⟨by decide +kernel, propositional_horn (by decide +kernel) (by decide +kernel), ?_⟩
  have hfact : (⟨[], none, "Q", []⟩ : Rule) ∈ rules fact.json := by decide +kernel
  refine ⟨⟨fact.json, fact.json, json2smt fact.json, [], []⟩, by decide +kernel, fun I hI => ?_, ?_⟩
  · exact hI _ ⟨_, hfact, (), rfl⟩ fun b hb => by cases hb
  · rintro ⟨name, hname, -⟩
    cases hname

end Scripts

end Fixedpoint

end Smts.Server
