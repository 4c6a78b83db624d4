import Mathlib.Algebra.Group.Int.Defs
import Mathlib.Algebra.Ring.Nat
import Mathlib.Data.List.TakeWhile
import Smts.Lib.Bytes
import Smts.Server.Framework

namespace Smts.LemmaServer

open Smts.Lib
open Smts.Server (render)

inductive Exn
  | outOfRange
  | invalidArgument
  | dangling
  | socketException
  deriving DecidableEq

/-- `s.substr(1)`. -/
def substr1 (s : Bytes) : Except Exn Bytes :=
  if s = [] then .error .outOfRange else .ok (s.drop 1)

/-- `s.substr(1, s.size() - 2)`. -/
def inner (s : Bytes) : Except Exn Bytes :=
  if s = [] then .error .outOfRange else .ok ((s.drop 1).take (s.length - 2))

def spaces : Bytes := [' ', '\t', '\n', '\x0b', '\x0c', '\r'].map Char.toUInt8

def isSpace (b : UInt8) : Bool := b ∈ spaces

def isDigit (b : UInt8) : Bool := '0'.toUInt8 ≤ b && b ≤ '9'.toUInt8

/-- The number that decimal digits stand for. -/
def number (digits : Bytes) : Nat :=
  digits.foldl (fun n b => 10 * n + (b.toNat - '0'.toNat)) 0

/-- `std::stoi` after the sign: the value of the longest run of digits. -/
def stoiDigits (negative : Bool) (s : Bytes) : Except Exn Int :=
  let digits := s.takeWhile isDigit
  let n : Int := number digits
  let value := if negative then -n else n
  if digits = [] then .error .invalidArgument
  else if -2 ^ 31 ≤ value ∧ value < 2 ^ 31 then .ok value
  else .error .outOfRange

def stoi (s : Bytes) : Except Exn Int :=
  let s := s.dropWhile isSpace
  if s.head? = some '-'.toUInt8 then stoiDigits true s.tail
  else if s.head? = some '+'.toUInt8 then stoiDigits false s.tail
  else stoiDigits false s

/-- `node_code.erase(std::remove(…, ' '), …)`. -/
def eraseSpaces (s : Bytes) : Bytes := s.filter (· ≠ ' '.toUInt8)

/-- What `find_first_not_of(",")` and `find_first_of(",")` cut out in turn. -/
def tokens (s : Bytes) : List Bytes := (s.splitOn ','.toUInt8).filter (· ≠ [])

/-- `std::to_string`. -/
def decimal (n : Nat) : Bytes := (Nat.toDigits 10 n).map Char.toUInt8

section Render

variable {n : Nat} {b : UInt8}

theorem isDigit_toUInt8 {c : Char} (h : c.isDigit = true) :
    isDigit c.toUInt8 = true ∧ c.toUInt8.toNat = c.toNat := by
  rw [Char.isDigit, Bool.and_eq_true, decide_eq_true_eq, decide_eq_true_eq] at h
  have hlow : 48 ≤ c.val.toNat := UInt32.le_iff_toNat_le.mp h.1
  have hhigh : c.val.toNat ≤ 57 := UInt32.le_iff_toNat_le.mp h.2
  have hval : c.toUInt8.toNat = c.val.toNat := by
    rw [Char.toUInt8, UInt32.toNat_toUInt8]
    omega
  refine ⟨?_, hval⟩
  rw [isDigit, Bool.and_eq_true, decide_eq_true_eq, decide_eq_true_eq]
  exact ⟨UInt8.le_iff_toNat_le.mpr (hval ▸ hlow), UInt8.le_iff_toNat_le.mpr (hval ▸ hhigh)⟩

theorem isDigit_of_mem_decimal (h : b ∈ decimal n) : isDigit b = true := by
  obtain ⟨c, hc, rfl⟩ := List.mem_map.mp h
  exact (isDigit_toUInt8 (Nat.isDigit_of_mem_toDigits (by decide) (by decide) hc)).1

theorem ne_of_mem_decimal {d : UInt8} (h : b ∈ decimal n) (hd : isDigit d = false) : b ≠ d := by
  rintro rfl
  rw [isDigit_of_mem_decimal h] at hd
  cases hd

theorem decimal_ne_nil : decimal n ≠ [] := by simp [decimal, Nat.toDigits_ne_nil]

theorem number_decimal (n : Nat) : number (decimal n) = n := by
  have hdigits : ∀ c ∈ Nat.toDigits 10 n, c.toUInt8.toNat = c.toNat := fun c hc =>
    (isDigit_toUInt8 (Nat.isDigit_of_mem_toDigits (by decide) (by decide) hc)).2
  calc number (decimal n)
      = (Nat.toDigits 10 n).foldl (fun n c => 10 * n + (c.toUInt8.toNat - '0'.toNat)) 0 :=
        List.foldl_map
    _ = Nat.ofDigitChars 10 (Nat.toDigits 10 n) 0 := by
        rw [Nat.ofDigitChars_eq_foldl]
        exact List.foldl_ext _ _ _ fun m c hc => by rw [hdigits c hc]
    _ = n := Nat.ofDigitChars_ten_toDigits

theorem stoi_decimal (n : Nat) :
    stoi (decimal n) = if n < 2 ^ 31 then .ok (n : Int) else .error .outOfRange := by
  have hval : stoiDigits false (decimal n) =
      if n < 2 ^ 31 then .ok (n : Int) else .error .outOfRange := by
    have htake : (decimal n).takeWhile isDigit = decimal n :=
      List.takeWhile_eq_self_iff.mpr fun _ => isDigit_of_mem_decimal
    simp only [stoiDigits, htake, number_decimal, if_neg decimal_ne_nil]
    by_cases h : n < 2 ^ 31
    · rw [if_pos h, if_pos (by simp; omega)]
      rfl
    · rw [if_neg h, if_neg (by simp; omega)]
  cases hds : decimal n with
  | nil => exact absurd hds decimal_ne_nil
  | cons d ds =>
    have hmem : d ∈ decimal n := by simp [hds]
    have hdigit := isDigit_of_mem_decimal hmem
    have hspace : isSpace d = false := by
      have hspaces : ∀ c ∈ spaces, isDigit c = false := by decide +kernel
      exact decide_eq_false fun h => by
        rw [hspaces d h] at hdigit
        cases hdigit
    rw [← hval, hds, stoi, List.dropWhile_cons_of_neg (by simp [hspace]), List.head?_cons,
      if_neg fun h => ne_of_mem_decimal hmem rfl (Option.some.inj h),
      if_neg fun h => ne_of_mem_decimal hmem rfl (Option.some.inj h)]

theorem utf8_repr (n : Nat) : utf8 n.repr = decimal n := by
  rw [Nat.repr_eq_ofList_toDigits, utf8_of_ascii, String.toList_ofList, decimal]
  intro c hc
  rw [String.toList_ofList] at hc
  have hdigit := Nat.isDigit_of_mem_toDigits (by decide) (by decide) hc
  have := UInt8.toNat_lt c.toUInt8
  rw [Char.isDigit, Bool.and_eq_true, decide_eq_true_eq, decide_eq_true_eq] at hdigit
  exact Nat.lt_of_le_of_lt (UInt32.le_iff_toNat_le.mp hdigit.2) (by decide)

/-- The comma and the blank between two numbers. -/
def separator : Bytes := [','.toUInt8, ' '.toUInt8]

theorem utf8_intercalate (ss : List String) :
    utf8 (", ".intercalate ss) = separator.intercalate (ss.map utf8) := by
  induction ss with
  | nil => rfl
  | cons s ss ih =>
    cases ss with
    | nil => simp
    | cons t ts =>
      rw [String.intercalate_cons_of_ne_nil (List.cons_ne_nil t ts), utf8_append, utf8_append, ih,
        List.map_cons, List.map_cons, List.map_cons,
        List.intercalate_cons_of_ne_nil (List.cons_ne_nil _ _)]
      rfl

theorem utf8_render (p : List Nat) :
    utf8 (render p) =
      '['.toUInt8 :: separator.intercalate (p.map decimal) ++ [']'.toUInt8] := by
  have hdecimal : (p.map toString).map utf8 = p.map decimal := by
    simp [Function.comp_def, utf8_repr]
  rw [render, utf8_append, utf8_append, utf8_intercalate, hdecimal]
  rfl

theorem inner_render (p : List Nat) :
    inner (utf8 (render p)) = .ok (separator.intercalate (p.map decimal)) := by
  rw [utf8_render, inner, if_neg (by simp)]
  simp

theorem eraseSpaces_intercalate (ls : List Bytes) (h : ∀ l ∈ ls, ' '.toUInt8 ∉ l) :
    eraseSpaces (separator.intercalate ls) = [','.toUInt8].intercalate ls := by
  induction ls with
  | nil => rfl
  | cons l ls ih =>
    have hl : eraseSpaces l = l :=
      List.filter_eq_self.mpr fun c hc => by
        simp only [decide_eq_true_eq]
        rintro rfl
        exact h l (by simp) hc
    cases ls with
    | nil => simpa using hl
    | cons k ks =>
      have ih := ih fun l hl => h l (List.mem_cons_of_mem _ hl)
      rw [List.intercalate_cons_of_ne_nil (List.cons_ne_nil k ks),
        List.intercalate_cons_of_ne_nil (List.cons_ne_nil k ks), ← ih, eraseSpaces,
        List.filter_append, List.filter_append]
      exact congrArg (· ++ _ ++ _) hl

/-- Reading the text of a path gives its numbers back, one token for each. -/
theorem tokens_render (p : List Nat) :
    tokens (eraseSpaces (separator.intercalate (p.map decimal))) = p.map decimal := by
  rw [eraseSpaces_intercalate _ (by simpa using fun n _ h => ne_of_mem_decimal h rfl rfl), tokens]
  cases p with
  | nil => rfl
  | cons n ns =>
    rw [List.splitOn_intercalate _ (by simpa using ⟨fun h => ne_of_mem_decimal h rfl rfl,
        fun n _ h => ne_of_mem_decimal h rfl rfl⟩) (by simp)]
    exact List.filter_eq_self.mpr (by simp [decimal_ne_nil])

end Render

end Smts.LemmaServer
