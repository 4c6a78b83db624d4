import Mathlib.Data.Nat.Digits.Defs
import Mathlib.Tactic.IntervalCases
import Smts.Lib.Json
import Smts.Lib.Rewriting

namespace Smts.Lib

namespace Json

section Write

/-- The code point in UTF-16. -/
def units (c : Char) : List Nat :=
  let n := c.toNat
  if n < 0x10000 then [n] else [0xD800 + (n - 0x10000) / 0x400, 0xDC00 + (n - 0x10000) % 0x400]

def hex (n : Nat) : List Char :=
  [Nat.digitChar (n / 0x1000 % 16), Nat.digitChar (n / 0x100 % 16), Nat.digitChar (n / 0x10 % 16),
    Nat.digitChar (n % 16)]

/-- A character of a string as it is written, in ASCII. -/
def escape (c : Char) : List Char :=
  if c = '"' then ['\\', '"']
  else if c = '\\' then ['\\', '\\']
  else if c = '\n' then ['\\', 'n']
  else if c = '\r' then ['\\', 'r']
  else if c = '\t' then ['\\', 't']
  else if c.toNat = 8 then ['\\', 'b']
  else if c.toNat = 12 then ['\\', 'f']
  else if 0x20 ≤ c.toNat ∧ c.toNat < 0x7F then [c]
  else (units c).flatMap fun n => '\\' :: 'u' :: hex n

def dumps (s : List Char) : List Char := '"' :: s.flatMap escape ++ ['"']

end Write

section Lex

def hexVal (c : Char) : Option Nat :=
  if '0' ≤ c ∧ c ≤ '9' then some (c.toNat - 48)
  else if 'a' ≤ c ∧ c ≤ 'f' then some (c.toNat - 87)
  else if 'A' ≤ c ∧ c ≤ 'F' then some (c.toNat - 55)
  else none

def unescapeChar (c : Char) : Option Nat :=
  if c = '"' then some 34
  else if c = '\\' then some 92
  else if c = '/' then some 47
  else if c = 'b' then some 8
  else if c = 'f' then some 12
  else if c = 'n' then some 10
  else if c = 'r' then some 13
  else if c = 't' then some 9
  else none

/-- The content of a string in UTF-16. -/
def unescape : List Char → Option (List Nat)
  | [] => some []
  | '\\' :: 'u' :: c₁ :: c₂ :: c₃ :: c₄ :: s => do
    let d₁ ← hexVal c₁
    let d₂ ← hexVal c₂
    let d₃ ← hexVal c₃
    let d₄ ← hexVal c₄
    let l ← unescape s
    pure ((((d₁ * 16 + d₂) * 16 + d₃) * 16 + d₄) :: l)
  | '\\' :: c :: s => do
    let n ← unescapeChar c
    let l ← unescape s
    pure (n :: l)
  | c :: s => if c = '\\' ∨ c.toNat < 0x20 then none else (unescape s).map (c.toNat :: ·)

def charOf (n : Nat) : Option Char := if n.isValidChar then some (Char.ofNat n) else none

/-- The text of a list of UTF-16 units, unless a surrogate stands alone. -/
def chars : List Nat → Option (List Char)
  | [] => some []
  | [n] => (charOf n).map ([·])
  | n :: m :: l =>
    if (0xD800 ≤ n ∧ n < 0xDC00) ∧ 0xDC00 ≤ m ∧ m < 0xE000 then do
      let c ← charOf (0x10000 + (n - 0xD800) * 0x400 + (m - 0xDC00))
      let s ← chars l
      pure (c :: s)
    else do
      let c ← charOf n
      let s ← chars (m :: l)
      pure (c :: s)

def decode (s : List Char) : Option (List Char) := (unescape s).bind chars

/-- How far it is to the next double quote; a backslash takes the next character with it. -/
def closing : List Char → Option Nat
  | [] => none
  | '\\' :: _ :: s => (closing s).map (· + 2)
  | c :: s => if c = '"' then some 1 else (closing s).map (· + 1)

def quotation : Pattern Char
  | '"' :: s => (closing s).map (· + 1)
  | _ => none

def lexItem : Char ⊕ List Char → Option (List Mark)
  | .inl c =>
    if c = '[' then some [.opening]
    else if c = ']' then some [.closing]
    else if c = ',' then some [.comma]
    else if c ∈ [' ', '\t', '\n', '\r'] then some []
    else none
  | .inr s => (decode (s.drop 1).dropLast).map fun t => [.str (String.ofList t)]

def lexItems : List (Char ⊕ List Char) → Option (List Mark)
  | [] => some []
  | i :: l => do
    let ms ← lexItem i
    let ns ← lexItems l
    pure (ms ++ ns)

def lex (s : List Char) : Option (List Mark) := lexItems (quotation.scan s)

/-- The value of a text, if it is made of strings and lists. -/
def loads (s : List Char) : Option Json := (lex s).bind read

theorem loads_iff {s : List Char} {v : Json} : loads s = some v ↔ lex s = some v.marks := by
  rw [loads, Option.bind_eq_some_iff]
  refine ⟨fun ⟨ms, hms, h⟩ => ?_, fun h => ⟨_, h, read_iff.mpr rfl⟩⟩
  rw [hms, read_iff.mp h]

end Lex

section Laws

variable {s t : List Char} {c : Char} {n : Nat}

theorem hexVal_digitChar (h : n < 16) : hexVal (Nat.digitChar n) = some n := by
  interval_cases n <;> rfl

theorem unescape_hex (h : n < 0x10000) :
    unescape ('\\' :: 'u' :: hex n ++ s) = (unescape s).map (n :: ·) := by
  have hn : (((n / 0x1000 % 16) * 16 + n / 0x100 % 16) * 16 + n / 0x10 % 16) * 16 + n % 16 = n := by
    omega
  have hlt (k : Nat) : k % 16 < 16 := Nat.mod_lt k (by decide)
  simp only [hex, List.cons_append, List.nil_append]
  rw [unescape, hexVal_digitChar (hlt _), hexVal_digitChar (hlt _), hexVal_digitChar (hlt _),
    hexVal_digitChar (hlt _)]
  simp only [Option.bind_eq_bind, Option.bind_some, hn]
  cases unescape s <;> rfl

theorem unescape_plain (hc : c ≠ '\\') (h : 0x20 ≤ c.toNat) :
    unescape (c :: s) = (unescape s).map (c.toNat :: ·) := by
  rw [unescape, if_neg (by simp only [hc, false_or]; omega)]
  · intro _ _ _ _ _ hcons
    exact absurd hcons hc
  · intro _ _ hcons
    exact absurd hcons hc

theorem unescape_short {d : Char} {n : Nat} (hd : d ≠ 'u') (h : unescapeChar d = some n) :
    unescape ('\\' :: d :: s) = (unescape s).map (n :: ·) := by
  rw [unescape, h]
  · simp only [Option.bind_eq_bind, Option.bind_some]
    cases unescape s <;> rfl
  · intro _ _ _ _ _ hcons
    exact absurd hcons hd

theorem isValidChar_toNat (c : Char) : c.toNat < 0xD800 ∨ 0xDFFF < c.toNat ∧ c.toNat < 0x110000 :=
  c.valid

theorem units_small (h : c.toNat < 0x10000) : units c = [c.toNat] := if_pos h

theorem units_large (h : ¬ c.toNat < 0x10000) :
    units c = [0xD800 + (c.toNat - 0x10000) / 0x400, 0xDC00 + (c.toNat - 0x10000) % 0x400] :=
  if_neg h

theorem unescape_units : unescape ((units c).flatMap (fun n => '\\' :: 'u' :: hex n) ++ s) =
    (unescape s).map (units c ++ ·) := by
  by_cases h : c.toNat < 0x10000
  · rw [units_small h, List.flatMap_singleton, unescape_hex h]
    rfl
  · have hvalid := isValidChar_toNat c
    rw [units_large h, List.flatMap_cons, List.flatMap_singleton, List.append_assoc,
      unescape_hex (by omega), unescape_hex (by omega), Option.map_map]
    rfl

theorem unescape_escape (c : Char) :
    unescape (escape c ++ s) = (unescape s).map (units c ++ ·) := by
  have hshort {d : Char} {n : Nat} (hd : d ≠ 'u') (h : unescapeChar d = some n)
      (hn : units c = [n]) :
      unescape (['\\', d] ++ s) = (unescape s).map (units c ++ ·) := by
    rw [hn]
    exact unescape_short hd h
  rw [escape]
  split_ifs with h₁ h₂ h₃ h₄ h₅ h₆ h₇ h₈
  · exact hshort (by decide) rfl (h₁ ▸ rfl)
  · exact hshort (by decide) rfl (h₂ ▸ rfl)
  · exact hshort (by decide) rfl (h₃ ▸ rfl)
  · exact hshort (by decide) rfl (h₄ ▸ rfl)
  · exact hshort (by decide) rfl (h₅ ▸ rfl)
  · exact hshort (by decide) rfl ((units_small (by omega)).trans (by rw [h₆]))
  · exact hshort (by decide) rfl ((units_small (by omega)).trans (by rw [h₇]))
  · rw [units_small (by omega)]
    exact unescape_plain h₂ h₈.1
  · exact unescape_units

theorem charOf_toNat (c : Char) : charOf c.toNat = some c :=
  (if_pos c.valid).trans (congrArg some (Char.ofNat_toNat c))

theorem chars_toNat (c : Char) (l : List Nat) :
    chars (c.toNat :: l) = (chars l).map (c :: ·) := by
  have hvalid := isValidChar_toNat c
  cases l with
  | nil => simp [chars, charOf_toNat]
  | cons m l =>
    rw [chars, if_neg (by omega), charOf_toNat]
    cases chars (m :: l) <;> rfl

theorem chars_units (c : Char) (l : List Nat) : chars (units c ++ l) = (chars l).map (c :: ·) := by
  have hvalid := isValidChar_toNat c
  by_cases h : c.toNat < 0x10000
  · rw [units_small h]
    exact chars_toNat c l
  · have hc : 0x10000 + (0xD800 + (c.toNat - 0x10000) / 0x400 - 0xD800) * 0x400 +
        (0xDC00 + (c.toNat - 0x10000) % 0x400 - 0xDC00) = c.toNat := by omega
    rw [units_large h, List.cons_append, List.singleton_append, chars, if_pos (by omega), hc,
      charOf_toNat]
    cases chars l <;> rfl

theorem decode_escape (c : Char) (s : List Char) :
    decode (escape c ++ s) = (decode s).map (c :: ·) := by
  rw [decode, decode, unescape_escape]
  cases unescape s with
  | none => rfl
  | some l => exact chars_units c l

/-- A character that may stand in a string as it is. -/
def Bare (c : Char) : Prop := c ≠ '"' ∧ c ≠ '\\' ∧ 0x20 ≤ c.toNat

theorem decode_bare (hc : Bare c) (s : List Char) :
    decode (c :: s) = (decode s).map (c :: ·) := by
  rw [decode, decode, unescape_plain hc.2.1 hc.2.2]
  cases unescape s with
  | none => rfl
  | some l => exact chars_toNat c l

theorem closing_bare (hc : Bare c) (s : List Char) :
    closing (c :: s) = (closing s).map (· + 1) := by
  rw [closing, if_neg hc.1]
  intro _ _ hcons
  exact absurd hcons hc.2.1

theorem closing_hex (n : Nat) (s : List Char) :
    closing ('\\' :: 'u' :: hex n ++ s) = (closing s).map (· + 6) := by
  have hbare (k : Nat) : Bare (Nat.digitChar (k % 16)) := by
    have hk : k % 16 < 16 := Nat.mod_lt k (by decide)
    generalize k % 16 = m at hk
    interval_cases m <;> exact ⟨by decide, by decide, by decide⟩
  simp only [hex, List.cons_append, List.nil_append]
  rw [closing, closing_bare (hbare _), closing_bare (hbare _), closing_bare (hbare _),
    closing_bare (hbare _)]
  simp [Function.comp_def]

theorem closing_units (l : List Nat) (s : List Char) :
    closing (l.flatMap (fun n => '\\' :: 'u' :: hex n) ++ s) =
      (closing s).map (· + (l.flatMap fun n => '\\' :: 'u' :: hex n).length) := by
  induction l with
  | nil => simp
  | cons n l ih =>
    rw [List.flatMap_cons, List.append_assoc, closing_hex, ih]
    cases closing s with
    | none => rfl
    | some k =>
      simp only [Option.map_some, List.length_append, List.length_cons, hex, List.length_nil]
      congr 1
      omega

theorem closing_escape (c : Char) (s : List Char) :
    closing (escape c ++ s) = (closing s).map (· + (escape c).length) := by
  rw [escape]
  split_ifs with h₁ h₂ h₃ h₄ h₅ h₆ h₇ h₈
  all_goals first
    | exact closing_bare ⟨h₁, h₂, h₈.1⟩ s
    | exact closing_units _ _
    | rfl

/-- A text between double quotes that stands for a string. -/
inductive Spells : List Char → List Char → Prop
  | nil : Spells [] []
  | bare {c : Char} {s t : List Char} (hc : Bare c) (h : Spells s t) : Spells (c :: s) (c :: t)
  | escape {c : Char} {s t : List Char} (h : Spells s t) : Spells (escape c ++ s) (c :: t)

namespace Spells

theorem decode (h : Spells s t) : decode s = some t := by
  induction h with
  | nil => rfl
  | bare hc _ ih => rw [decode_bare hc, ih, Option.map_some]
  | escape _ ih => rw [decode_escape, ih, Option.map_some]

theorem closing (h : Spells s t) (u : List Char) :
    closing (s ++ '"' :: u) = some (s.length + 1) := by
  induction h with
  | nil => rfl
  | bare hc _ ih => rw [List.cons_append, closing_bare hc, ih, Option.map_some, List.length_cons]
  | escape _ ih =>
    rw [List.append_assoc, closing_escape, ih, Option.map_some, List.length_append]
    congr 1
    omega

theorem append {s' t' : List Char} (h : Spells s t) (h' : Spells s' t') :
    Spells (s ++ s') (t ++ t') := by
  induction h with
  | nil => exact h'
  | bare hc _ ih => exact .bare hc ih
  | escape _ ih =>
    rw [List.append_assoc]
    exact .escape ih

theorem escaped (t : List Char) : Spells (t.flatMap Json.escape) t := by
  induction t with
  | nil => exact .nil
  | cons c t ih => exact .escape ih

end Spells

theorem quotation_starts : quotation.Starts (· = '"') := by
  intro c s hc
  rw [quotation]
  exact fun _ hcons => hc (List.cons.inj hcons).1

@[simp] theorem lex_nil : lex [] = some [] := rfl

theorem lex_char {ms : List Mark} (hc : c ≠ '"') (h : lexItem (.inl c) = some ms) (s : List Char) :
    lex (c :: s) = (lex s).map (ms ++ ·) := by
  rw [lex, Pattern.scan_cons (quotation_starts c s hc), lexItems, h, lex]
  cases lexItems (quotation.scan s) <;> rfl

theorem lex_opening (s : List Char) : lex ('[' :: s) = (lex s).map (.opening :: ·) :=
  lex_char (c := '[') (by decide) rfl s

theorem lex_closing (s : List Char) : lex (']' :: s) = (lex s).map (.closing :: ·) :=
  lex_char (c := ']') (by decide) rfl s

theorem lex_comma (s : List Char) : lex (',' :: s) = (lex s).map (.comma :: ·) :=
  lex_char (c := ',') (by decide) rfl s

theorem lex_blanks (ht : ∀ c ∈ t, c ∈ [' ', '\t', '\n', '\r']) (s : List Char) :
    lex (t ++ s) = lex s := by
  induction t with
  | nil => rfl
  | cons c t ih =>
    rw [List.forall_mem_cons] at ht
    have hblank : lexItem (.inl c) = some [] := by
      have hc := ht.1
      simp only [List.mem_cons, List.not_mem_nil, or_false] at hc
      rcases hc with rfl | rfl | rfl | rfl <;> rfl
    have hquote : c ≠ '"' := by
      rintro rfl
      exact absurd ht.1 (by decide)
    rw [List.cons_append, lex_char hquote hblank, ih ht.2]
    simp

theorem lex_str (h : Spells s t) (u : List Char) :
    lex ('"' :: s ++ '"' :: u) = (lex u).map (.str (String.ofList t) :: ·) := by
  have hmatch : quotation ('"' :: (s ++ ['"']) ++ u) = some ((s ++ ['"']).length + 1) := by
    rw [List.cons_append, List.append_assoc, List.singleton_append, quotation, h.closing]
    simp
  have htext : '"' :: s ++ '"' :: u = '"' :: (s ++ ['"']) ++ u := by simp
  rw [htext, lex, Pattern.scan_match hmatch, lexItems, lexItem]
  simp only [List.drop_succ_cons, List.drop_zero, List.dropLast_concat, h.decode, Option.map_some,
    lex]
  cases lexItems (quotation.scan u) <;> rfl

end Laws

end Json

end Smts.Lib
