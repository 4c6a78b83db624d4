import Mathlib.Algebra.Ring.Nat
import Mathlib.Data.List.Basic

namespace Smts.Lib

abbrev Bytes := List UInt8

def utf8 (s : String) : Bytes := s.toByteArray.data.toList

def ofUtf8? (b : Bytes) : Option String := String.fromUTF8? ⟨b.toArray⟩

@[simp] theorem length_utf8 (s : String) : (utf8 s).length = s.utf8ByteSize := by
  simp [utf8]

@[simp] theorem ofUtf8?_utf8 (s : String) : ofUtf8? (utf8 s) = some s := by
  simp only [ofUtf8?, utf8, Array.toArray_toList, String.fromUTF8?]
  exact dif_pos s.isValidUTF8

theorem utf8_of_ofUtf8? {b : Bytes} {s : String} (h : ofUtf8? b = some s) : utf8 s = b := by
  unfold ofUtf8? String.fromUTF8? at h
  split at h
  · cases h
    rfl
  · exact nomatch h

theorem utf8_injective : Function.Injective utf8 := by
  intro s t h
  have hs := ofUtf8?_utf8 s
  rwa [h, ofUtf8?_utf8, Option.some.injEq, eq_comm] at hs

theorem utf8_ofList (l : List Char) : utf8 (String.ofList l) = l.flatMap String.utf8EncodeChar := by
  simp [utf8, List.utf8Encode]

theorem utf8_append (s t : String) : utf8 (s ++ t) = utf8 s ++ utf8 t := by
  simp [utf8]

/-- ASCII characters are one byte each. -/
theorem utf8_of_ascii {s : String} (h : ∀ c ∈ s.toList, c.toNat < 128) :
    utf8 s = s.toList.map Char.toUInt8 := by
  have hone : ∀ c ∈ s.toList, String.utf8EncodeChar c = [c.toUInt8] := fun c hc =>
    if_pos (Nat.le_of_lt_succ (h c hc))
  rw [← String.ofList_toList (s := s), utf8_ofList, String.toList_ofList]
  generalize s.toList = l at hone
  induction l with
  | nil => rfl
  | cons c l ih =>
    rw [List.forall_mem_cons] at hone
    rw [List.flatMap_cons, hone.1, ih hone.2]
    rfl

/-- A number has as many bytes as decimal digits. -/
theorem utf8ByteSize_repr {k n : Nat} (hk : 10 ^ k ≤ n) (h : n < 10 ^ (k + 1)) :
    n.repr.utf8ByteSize = k + 1 := by
  have digit : ∀ d < 10, d.repr.utf8ByteSize = 1 := by decide
  induction k generalizing n with
  | zero => exact digit n h
  | succ k ih =>
    rw [Nat.pow_succ] at hk h
    have hten : 10 ≤ n := by
      have := Nat.pos_of_neZero (10 ^ k)
      omega
    rw [Nat.repr_eq_repr_append_repr hten, String.utf8ByteSize_append,
      ih (by omega) (by omega), digit _ (Nat.mod_lt n (by decide))]

/-- The four bytes of a word, the most significant one first. -/
def be32 (n : Nat) : Bytes :=
  [UInt8.ofNat (n / 2 ^ 24), UInt8.ofNat (n / 2 ^ 16), UInt8.ofNat (n / 2 ^ 8), UInt8.ofNat n]

def ofBe32? : Bytes → Option Nat
  | [a, b, c, d] => some (a.toNat * 2 ^ 24 + b.toNat * 2 ^ 16 + c.toNat * 2 ^ 8 + d.toNat)
  | _ => none

@[simp] theorem length_be32 (n : Nat) : (be32 n).length = 4 := rfl

theorem ofBe32?_be32 {n : Nat} (h : n < 2 ^ 32) : ofBe32? (be32 n) = some n := by
  simp only [be32, ofBe32?, UInt8.toNat_ofNat', Option.some.injEq]
  omega

theorem ofBe32?_isSome {b : Bytes} : (ofBe32? b).isSome ↔ b.length = 4 := by
  constructor
  · intro h
    unfold ofBe32? at h
    split at h
    · rfl
    · exact nomatch h
  · intro h
    match b, h with
    | [_, _, _, _], _ => rfl

end Smts.Lib
