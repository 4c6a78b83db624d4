import Smts.Net.Codec

namespace Smts.Net.Cpp

open Smts.Lib

/-- Where the header loop comes to a field, and whether it is a value. -/
inductive FieldAt (message : Bytes) : Bool → Nat → Prop
  | first : FieldAt message false 0
  | value {i : Nat} (hi : i < message.length) (key : FieldAt message false i)
      (more : message[i] ≠ 0) (inside : i + 1 + message[i].toNat < message.length) :
      FieldAt message true (i + 1 + message[i].toNat)
  | key {i : Nat} (hi : i < message.length) (value : FieldAt message true i)
      (inside : i + 1 + message[i].toNat < message.length) :
      FieldAt message false (i + 1 + message[i].toNat)

/-- The end of a field does not fit into 32 bits. -/
def Overruns (message : Bytes) : Prop :=
  ∃ isValue i, ∃ hi : i < message.length, FieldAt message isValue i ∧
    2 ^ 32 ≤ i + 1 + message[i].toNat

/-- The parser ends with a message or with its own exception: it neither goes on for
ever nor reads past the end. -/
def Safe {α : Type} (r : Except Exn α) : Prop := (∃ a, r = .ok a) ∨ r = .error .socketException

variable {message : Bytes} {i k : Nat} {header : Table Bytes Bytes}

/-- The rest of the header loop: a round, or what is left of it once the key is read. -/
def rest (message : Bytes) (k : Nat) (header : Table Bytes Bytes) (i : Nat) :
    Option Bytes → Except Exn (Table Bytes Bytes × Nat)
  | none => parseHeader message k header i
  | some key => do
    let (value, i) ← field message i
    parseHeader message k (Table.put key value header) i

section Field

theorem field_refused (hi : i < message.length) (he : message.length ≤ i + 1 + message[i].toNat)
    (hw : i + 1 + message[i].toNat < 2 ^ 32) : field message i = .error .socketException := by
  have h1 : (i + 1) % 2 ^ 32 = i + 1 := Nat.mod_eq_of_lt (by omega)
  have h2 : (i + 1 + message[i].toNat) % 2 ^ 32 = i + 1 + message[i].toNat := Nat.mod_eq_of_lt hw
  simp only [field, byteAt_of_lt hi, bind, Except.bind, h1, h2]
  rw [if_pos he]

/-- The check is passed by an end that wraps around. -/
theorem field_overrun (hi : i < message.length) (hn : message.length < 2 ^ 32)
    (hw : 2 ^ 32 ≤ i + 1 + message[i].toNat) :
    field message i = .error .outOfBounds := by
  have hl := message[i].toNat_lt
  have h1 : (i + 1) % 2 ^ 32 = i + 1 := Nat.mod_eq_of_lt (by omega)
  have h2 : (i + 1 + message[i].toNat) % 2 ^ 32 = i + 1 + message[i].toNat - 2 ^ 32 := by
    rw [Nat.mod_eq_sub_mod hw, Nat.mod_eq_of_lt (by omega)]
  simp only [field, byteAt_of_lt hi, bind, Except.bind, h1, h2]
  rw [if_neg (by omega), slice, if_neg (by omega)]

/-- A field lies inside of the message, or the check refuses it, or its end wraps around. -/
theorem field_cases (hi : i < message.length) (hn : message.length < 2 ^ 32) :
    (i + 1 + message[i].toNat < message.length ∧
      field message i = .ok ((message.drop (i + 1)).take message[i].toNat,
        i + 1 + message[i].toNat)) ∨
    field message i = .error .socketException ∨
    2 ^ 32 ≤ i + 1 + message[i].toNat ∧ field message i = .error .outOfBounds := by
  by_cases hj : i + 1 + message[i].toNat < message.length
  · exact .inl ⟨hj, field_ok hi hj hn⟩
  · by_cases hw : 2 ^ 32 ≤ i + 1 + message[i].toNat
    · exact .inr (.inr ⟨hw, field_overrun hi hn hw⟩)
    · exact .inr (.inl (field_refused hi (by omega) (by omega)))

end Field

/-- The loop does come to each of these fields, with rounds enough to go on. -/
theorem FieldAt.reached {isValue : Bool} (h : FieldAt message isValue i)
    (hn : message.length < 2 ^ 32) :
    ∃ k header key, key.isSome = isValue ∧ message.length < k + i ∧
      parseHeader message (message.length + 1) [] 0 = rest message k header i key := by
  induction h with
  | first => exact ⟨_, [], none, rfl, Nat.lt_succ_self _, rfl⟩
  | @value i hi _ more inside ih =>
    obtain ⟨k, header, key, hkey, hk, hrun⟩ := ih
    obtain rfl : key = none := by simpa using hkey
    cases k with
    | zero => omega
    | succ k =>
      refine ⟨k, header, some ((message.drop (i + 1)).take message[i].toNat), rfl, by omega, ?_⟩
      rw [hrun, rest, parseHeader_succ hi more, field_ok hi inside hn]
      rfl
  | @key i hi _ inside ih =>
    obtain ⟨k, header, key, hkey, hk, hrun⟩ := ih
    obtain ⟨key, rfl⟩ := Option.isSome_iff_exists.mp hkey
    refine ⟨k, Table.put key ((message.drop (i + 1)).take message[i].toNat) header, none, rfl,
      by omega, ?_⟩
    rw [hrun, rest, rest, field_ok hi inside hn]
    rfl

theorem Safe.bind {α β : Type} {r : Except Exn α} {f : α → Except Exn β} (h : Safe r)
    (hf : ∀ a, r = .ok a → Safe (f a)) : Safe (r >>= f) := by
  rcases h with ⟨a, rfl⟩ | rfl
  · exact hf a rfl
  · exact .inr rfl

theorem field_safe (hi : i < message.length) (hn : message.length < 2 ^ 32)
    (hw : ¬ 2 ^ 32 ≤ i + 1 + message[i].toNat) : Safe (field message i) := by
  rcases field_cases hi hn with ⟨_, h⟩ | h | ⟨h, _⟩
  · exact .inl ⟨_, h⟩
  · exact .inr h
  · exact absurd h hw

theorem field_inside (hi : i < message.length) (hn : message.length < 2 ^ 32) {a : Bytes × Nat}
    (h : field message i = .ok a) : a.2 = i + 1 + message[i].toNat ∧ a.2 < message.length := by
  rcases field_cases hi hn with ⟨hj, h'⟩ | h' | ⟨_, h'⟩ <;> rw [h'] at h
  · cases h
    exact ⟨rfl, hj⟩
  · cases h
  · cases h

theorem parseHeader_safe (hn : message.length < 2 ^ 32) (hover : ¬ Overruns message)
    (hi : i < message.length) (h : FieldAt message false i) (hk : message.length < k + i) :
    Safe (parseHeader message k header i) := by
  induction k generalizing i header with
  | zero => omega
  | succ k ih =>
    by_cases hz : message[i] = 0
    · refine .inl ⟨(header, i), ?_⟩
      rw [parseHeader, byteAt_of_lt hi]
      exact if_pos hz
    · rw [parseHeader_succ hi hz]
      refine (field_safe hi hn fun hw => hover ⟨_, i, hi, h, hw⟩).bind fun r hkey => ?_
      obtain ⟨key, j⟩ := r
      obtain ⟨rfl, hj⟩ := field_inside hi hn hkey
      have hvalue := FieldAt.value hi h hz hj
      refine (field_safe hj hn fun hw => hover ⟨_, _, hj, hvalue, hw⟩).bind fun r hv => ?_
      obtain ⟨value, l⟩ := r
      obtain ⟨rfl, hl⟩ := field_inside hj hn hv
      exact ih hl (.key hj hvalue hl) (by omega)

/-- The parser is safe on all frames but the empty one and those in which the end of a
field wraps around. -/
theorem parse_safe (message : Bytes) (hn : message.length < 2 ^ 32) :
    Safe (parse message) ↔ message ≠ [] ∧ ¬ Overruns message := by
  constructor
  · intro h
    refine ⟨fun hnil => ?_, fun ⟨isValue, i, hi, hat, hw⟩ => ?_⟩
    · subst hnil
      rcases h with ⟨a, h⟩ | h <;> cases h
    · obtain ⟨k, header, key, _, hk, hrun⟩ := hat.reached hn
      have hbad : parse message = .error .outOfBounds := by
        have hfield := field_overrun hi hn hw
        rw [parse, hrun]
        cases key with
        | some key =>
          rw [rest, hfield]
          rfl
        | none =>
          have hz : message[i] ≠ 0 := by
            intro hz
            rw [hz] at hw
            have : (0 : UInt8).toNat = 0 := rfl
            omega
          cases k with
          | zero => omega
          | succ k =>
            rw [rest, parseHeader_succ hi hz, hfield]
            rfl
      rw [hbad] at h
      rcases h with ⟨a, h⟩ | h <;> cases h
  · rintro ⟨hne, hover⟩
    have hpos := List.length_pos_iff.mpr hne
    exact (parseHeader_safe hn hover hpos .first (Nat.lt_succ_self _)).bind fun _ _ => .inl ⟨_, rfl⟩

theorem not_overruns (h : message.length ≤ 2 ^ 32 - 256) : ¬ Overruns message := by
  rintro ⟨_, i, hi, _, hw⟩
  have := message[i].toNat_lt
  omega

theorem parse_safe_hostile : Safe (parse [5, 97]) ∧ Safe (parse [1, 97, 255, 0]) :=
  ⟨(parse_safe [5, 97] (by decide)).mpr ⟨by decide, not_overruns (by decide)⟩,
    (parse_safe [1, 97, 255, 0] (by decide)).mpr ⟨by decide, not_overruns (by decide)⟩⟩

/-- The loop looks at the first byte of an empty message. -/
theorem parse_empty : parse [] = .error .outOfBounds ∧ ¬ Safe (parse []) := by
  refine ⟨rfl, ?_⟩
  rintro (⟨a, h⟩ | h) <;> cases h

end Smts.Net.Cpp
