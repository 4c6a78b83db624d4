import Smts.Net.Socket

namespace Smts.Net

open Smts.Lib
open Smts.Lib.Prog (raise ofExcept)

section Reading

variable {cut : Nat → Nat} {eof : Exn} {pos : Nat}

theorem recv_run (n : Nat) (rest : Bytes) : recv cut n ⟨rest, pos⟩ =
    (.ok (rest.take (min n (max 1 (cut pos)))),
      ⟨rest.drop (min n (max 1 (cut pos))), pos + min (min n (max 1 (cut pos))) rest.length⟩) := by
  simp only [recv, List.length_take]
  congr 2
  rw [List.drop_eq_drop_iff]
  omega

/-- However the bytes arrive, the loop collects as many as it was told to. -/
theorem readAll_run {length k : Nat} {content needed rest : Bytes}
    (hl : content.length + needed.length = length) (hk : needed.length ≤ k) :
    readAll cut eof length k content ⟨needed ++ rest, pos⟩ =
      (.ok (content ++ needed), ⟨rest, pos + needed.length⟩) := by
  induction k generalizing content needed pos with
  | zero =>
    obtain rfl := List.length_eq_zero_iff.mp (Nat.le_zero.mp hk)
    have hlen : ¬ content.length < length := by simp at hl; omega
    rw [readAll, if_neg hlen]
    simp
  | succ k ih =>
    rw [readAll]
    by_cases hnil : needed = []
    · subst hnil
      have hlen : ¬ content.length < length := by simp at hl; omega
      rw [if_neg hlen]
      simp
    · have hpos := List.length_pos_iff.mpr hnil
      rw [if_pos (by omega), Prog.bind_ok (recv_run _ _)]
      obtain ⟨t, ht⟩ : ∃ t, min (length - content.length) (max 1 (cut pos)) = t := ⟨_, rfl⟩
      have ht1 : 1 ≤ t := by omega
      have htn : t ≤ needed.length := by omega
      have htake : (needed ++ rest).take t = needed.take t := List.take_append_of_le_length htn
      have hdrop : (needed ++ rest).drop t = needed.drop t ++ rest :=
        List.drop_append_of_le_length htn
      have hne : needed.take t ≠ [] := by
        rw [← List.length_pos_iff, List.length_take]
        omega
      rw [ht, htake, hdrop, if_neg hne, ih (by simp; omega) (by simp; omega)]
      simp only [List.append_assoc, List.take_append_drop, Prod.mk.injEq, Stream.mk.injEq,
        true_and, List.length_drop, List.length_append]
      omega

theorem ofExcept_run {α : Type} (r : Except Exn α) (s : Stream) : (ofExcept r : M α) s = (r, s) :=
  rfl

/-- The prefix arrives in one piece if the stream is not cut inside of it. -/
theorem recv_length (word rest : Bytes) (hw : word.length = 4) (h : 4 ≤ cut pos) :
    recv cut 4 ⟨word ++ rest, pos⟩ = (.ok word, ⟨rest, pos + 4⟩) := by
  have hmin : min 4 (max 1 (cut pos)) = 4 := by omega
  rw [recv_run, hmin, ← hw, List.take_left, List.drop_left, hw]
  simp [hw]

theorem Python.read_frame {content rest : Bytes} (hn : content.length < 2 ^ 32)
    (h : 4 ≤ cut pos) : Python.read cut ⟨be32 content.length ++ content ++ rest, pos⟩ =
      (Python.parse content, ⟨rest, pos + (4 + content.length)⟩) := by
  rw [Python.read, List.append_assoc, Prog.bind_ok (recv_length _ _ rfl h), ofBe32?_be32 hn]
  simp only
  rw [Prog.bind_ok (readAll_run (by simp) (Nat.le_refl _)), ofExcept_run, List.nil_append,
    Nat.add_assoc]

theorem Cpp.read_frame {content rest : Bytes} (hn : content.length < 2 ^ 32) :
    Cpp.read cut ⟨be32 content.length ++ content ++ rest, pos⟩ =
      (Cpp.parse content, ⟨rest, pos + (4 + content.length)⟩) := by
  have hword : Cpp.readn cut 4 ⟨be32 content.length ++ (content ++ rest), pos⟩ =
      (.ok (be32 content.length), ⟨content ++ rest, pos + 4⟩) := readAll_run rfl (Nat.le_refl _)
  rw [Cpp.read, List.append_assoc, Prog.bind_ok hword, ofBe32?_be32 hn]
  simp only
  rw [Cpp.readn, Prog.bind_ok (readAll_run (by simp) (Nat.le_refl _)), ofExcept_run,
    List.nil_append, Nat.add_assoc]

end Reading

section Agreement

theorem Table.put_encoded (k v : String) (h : Table String String) :
    encoded (Table.put k v h) = Table.put (utf8 k) (utf8 v) (encoded h) := by
  induction h with
  | nil => rfl
  | cons e h ih =>
    simp only [encoded, Table.put, List.map_cons] at ih ⊢
    by_cases he : e.1 = k
    · rw [if_pos he, if_pos (congrArg utf8 he), List.map_cons]
    · rw [if_neg he, if_neg fun h => he (utf8_injective h), List.map_cons, ih]

theorem Python.decode_ok {b : Bytes} {s : String} (h : Python.decode b = .ok s) : utf8 s = b := by
  unfold Python.decode at h
  split at h
  · next heq =>
    cases h
    exact utf8_of_ofUtf8? heq
  · exact nomatch h

theorem Python.decode_error {b : Bytes} {e : Exn} (h : Python.decode b = .error e) :
    e = .unicodeError := by
  unfold Python.decode at h
  split at h
  · exact nomatch h
  · cases h
    rfl

/-- One round of the header loop of Python. -/
theorem Python.parseHeader_succ {k : Nat} {header : Table String String} {l : UInt8}
    {content : Bytes} (hl : l ≠ 0) : Python.parseHeader (k + 1) header (l :: content) =
      (do
        let (value, rest) ← Python.field (content.drop l.toNat)
        let value ← Python.decode value
        let key ← Python.decode (content.take l.toNat)
        Python.parseHeader k (Table.put key value header) rest) := by
  rw [Python.parseHeader, if_neg (by simpa using hl)]
  rfl

theorem Python.parseHeader_nil {k : Nat} {header : Table String String} {m : Message String} :
    Python.parseHeader k header [] ≠ .ok m := by
  cases k <;> exact fun h => nomatch h

variable {message : Bytes} {i : Nat}

theorem drop_of_lt (hi : i < message.length) :
    message.drop i = message[i] :: message.drop (i + 1) := List.drop_eq_getElem_cons hi

theorem Cpp.byteAt_of_lt (hi : i < message.length) : Cpp.byteAt message i = .ok message[i] := by
  rw [Cpp.byteAt, List.getElem?_eq_getElem hi]

theorem Cpp.field_ok (hi : i < message.length) (hj : i + 1 + message[i].toNat < message.length)
    (hn : message.length < 2 ^ 32) : Cpp.field message i =
      .ok ((message.drop (i + 1)).take message[i].toNat, i + 1 + message[i].toNat) := by
  have h1 : (i + 1) % 2 ^ 32 = i + 1 := Nat.mod_eq_of_lt (by omega)
  have h2 : (i + 1 + message[i].toNat) % 2 ^ 32 = i + 1 + message[i].toNat :=
    Nat.mod_eq_of_lt (by omega)
  simp only [Cpp.field, Cpp.byteAt_of_lt hi, bind, Except.bind, h1, h2]
  rw [if_neg (by omega), Cpp.slice, if_pos (.inr (by omega))]
  rfl

/-- A field that reaches the end of the message is refused. -/
theorem Cpp.field_error (hi : i < message.length)
    (hj : message.length ≤ i + 1 + message[i].toNat) (hn : message.length ≤ 2 ^ 32 - 257) :
    Cpp.field message i = .error .socketException := by
  have hl := message[i].toNat_lt
  have h1 : (i + 1) % 2 ^ 32 = i + 1 := Nat.mod_eq_of_lt (by omega)
  have h2 : (i + 1 + message[i].toNat) % 2 ^ 32 = i + 1 + message[i].toNat :=
    Nat.mod_eq_of_lt (by omega)
  simp only [Cpp.field, Cpp.byteAt_of_lt hi, bind, Except.bind, h1, h2]
  rw [if_pos hj]

theorem Cpp.parseHeader_succ {k : Nat} {header : Table Bytes Bytes} (hi : i < message.length)
    (hz : message[i] ≠ 0) : Cpp.parseHeader message (k + 1) header i =
      (do
        let (key, i) ← Cpp.field message i
        let (value, i) ← Cpp.field message i
        Cpp.parseHeader message k (Table.put key value header) i) := by
  rw [Cpp.parseHeader, Cpp.byteAt_of_lt hi]
  exact if_neg hz

/-- The second field of a round, with the rest of the loop. -/
theorem Python.parseHeader_ok {k : Nat} {header : Table String String} {m : Message String}
    (hn : message.length < 2 ^ 32) (hi : i < message.length)
    (h : Python.parseHeader k header (message.drop i) = .ok m) :
    ∃ j, Cpp.parseHeader message k (encoded header) i = .ok (encoded m.header, j) ∧
      j < message.length ∧ m.payload = message.drop (j + 1) := by
  induction k generalizing header i with
  | zero => exact nomatch h
  | succ k ih =>
    rw [drop_of_lt hi] at h
    by_cases hz : message[i] = 0
    · rw [hz] at h
      cases h
      refine ⟨i, ?_, hi, rfl⟩
      rw [Cpp.parseHeader, Cpp.byteAt_of_lt hi]
      exact if_pos hz
    · rw [Python.parseHeader_succ hz, List.drop_drop] at h
      obtain ⟨j, hj⟩ : ∃ j, i + 1 + message[i].toNat = j := ⟨_, rfl⟩
      rw [hj] at h
      by_cases hjn : j < message.length
      · rw [drop_of_lt hjn] at h
        simp only [Python.field, bind, Except.bind, List.drop_drop] at h
        obtain ⟨l, hl⟩ : ∃ l, j + 1 + message[j].toNat = l := ⟨_, rfl⟩
        rw [hl] at h
        split at h
        · exact nomatch h
        · next value hvalue =>
          split at h
          · exact nomatch h
          · next key hkey =>
            have hln : l < message.length := by
              refine Nat.lt_of_not_le fun hle => ?_
              rw [List.drop_eq_nil_of_le hle] at h
              exact Python.parseHeader_nil h
            obtain ⟨z, hp, hz', hpay⟩ := ih hln h
            refine ⟨z, ?_, hz', hpay⟩
            rw [Cpp.parseHeader_succ hi hz, Cpp.field_ok hi (hj ▸ hjn) hn]
            simp only [bind, Except.bind, hj]
            rw [Cpp.field_ok hjn (hl ▸ hln) hn, ← Python.decode_ok hvalue, ← Python.decode_ok hkey]
            simp only [hl]
            rw [← Table.put_encoded]
            exact hp
      · rw [List.drop_eq_nil_of_le (Nat.le_of_not_lt hjn)] at h
        exact nomatch h

theorem Python.parseHeader_error {k : Nat} {header : Table String String} {e : Exn}
    (hn : message.length ≤ 2 ^ 32 - 257) (hi : i < message.length) (hk : message.length < k + i)
    (h : Python.parseHeader k header (message.drop i) = .error e) :
    e = .unicodeError ∨ Cpp.parseHeader message k (encoded header) i = .error .socketException := by
  induction k generalizing header i with
  | zero => omega
  | succ k ih =>
    rw [drop_of_lt hi] at h
    by_cases hz : message[i] = 0
    · rw [hz] at h
      exact nomatch h
    · rw [Python.parseHeader_succ hz, List.drop_drop] at h
      rw [Cpp.parseHeader_succ hi hz]
      obtain ⟨j, hj⟩ : ∃ j, i + 1 + message[i].toNat = j := ⟨_, rfl⟩
      rw [hj] at h
      by_cases hjn : j < message.length
      · rw [drop_of_lt hjn] at h
        rw [Cpp.field_ok hi (hj ▸ hjn) (by omega)]
        simp only [Python.field, bind, Except.bind, List.drop_drop, hj] at h ⊢
        obtain ⟨l, hl⟩ : ∃ l, j + 1 + message[j].toNat = l := ⟨_, rfl⟩
        rw [hl] at h
        by_cases hln : l < message.length
        · split at h
          · next e' he' =>
            cases h
            exact .inl (Python.decode_error he')
          · next value hvalue =>
            split at h
            · next e' he' =>
              cases h
              exact .inl (Python.decode_error he')
            · next key hkey =>
              rw [Cpp.field_ok hjn (hl ▸ hln) (by omega), ← Python.decode_ok hvalue,
                ← Python.decode_ok hkey]
              simp only [hl]
              rw [← Table.put_encoded]
              exact ih hln (by omega) h
        · rw [Cpp.field_error hjn (by omega) hn]
          exact .inr rfl
      · rw [Cpp.field_error hi (by omega) hn]
        exact .inr rfl

/-- Both refuse, or both accept the same message.  Python may also fail to decode. -/
def Agree : Except Exn (Message String) → Except Exn (Message Bytes) → Prop
  | .ok m, r => r = .ok m.encoded
  | .error .unicodeError, _ => True
  | .error _, r => r = .error .socketException

theorem Agree.refused {r : Except Exn (Message String)} {r' : Except Exn (Message Bytes)}
    (h : Agree r r') (hr : r = .error .structError) : r' = .error .socketException := by
  subst hr
  exact h

theorem Cpp.parse_of_ok {m : Message String} (hn : message.length < 2 ^ 32)
    (h : Python.parse message = .ok m) : Cpp.parse message = .ok m.encoded := by
  have hpos : 0 < message.length := by
    refine List.length_pos_iff.mpr fun hnil => ?_
    subst hnil
    exact nomatch h
  obtain ⟨j, hp, hj, hpay⟩ := Python.parseHeader_ok hn hpos h
  have hmod : (j + 1) % 2 ^ 32 = j + 1 := Nat.mod_eq_of_lt (by omega)
  have hloop : Cpp.parseHeader message (message.length + 1) [] 0 =
      .ok (encoded m.header, j) := hp
  simp only [Cpp.parse, hloop, bind, Except.bind, hmod, Message.encoded, hpay, pure, Except.pure]
  split
  · rw [List.take_of_length_le (by simp)]
  · rw [List.drop_eq_nil_of_le (by omega)]

theorem parse_agree (h : 1 ≤ message.length) (hn : message.length ≤ 2 ^ 32 - 257) :
    Agree (Python.parse message) (Cpp.parse message) := by
  cases hp : Python.parse message with
  | ok m => exact Cpp.parse_of_ok (by omega) hp
  | error e =>
    rcases Python.parseHeader_error hn h (by omega) hp with rfl | hc
    · trivial
    · have hcpp : Cpp.parse message = .error .socketException := by
        have hloop : Cpp.parseHeader message (message.length + 1) [] 0 =
            .error .socketException := hc
        simp only [Cpp.parse, hloop, bind, Except.bind]
      cases e <;> first | exact hcpp | trivial

/-- A frame with a body of any bytes: both implementations agree on it, and both go
on with what follows it. -/
theorem readers_agree (message rest : Bytes) (pos : Nat) (cut : Nat → Nat) (whole : 4 ≤ cut pos)
    (nonempty : 1 ≤ message.length) (fits : message.length ≤ 2 ^ 32 - 257) :
    let s : Stream := ⟨be32 message.length ++ message ++ rest, pos⟩
    Agree (Python.read cut s).1 (Cpp.read cut s).1 ∧
      (Python.read cut s).2 = ⟨rest, pos + (4 + message.length)⟩ ∧
      (Cpp.read cut s).2 = ⟨rest, pos + (4 + message.length)⟩ := by
  simp only
  rw [Python.read_frame (by omega) whole, Cpp.read_frame (by omega)]
  exact ⟨parse_agree nonempty fits, rfl, rfl⟩

/-- A key that is cut off by the end of the body, and another frame behind it. -/
theorem readers_agree_truncated :
    let s : Stream := ⟨be32 2 ++ [5, 97] ++ be32 1 ++ [0], 0⟩
    (Python.read (fun _ => 4) s).1 = .error .structError ∧
      (Cpp.read (fun _ => 4) s).1 = .error .socketException ∧
      (Python.read (fun _ => 4) (Python.read (fun _ => 4) s).2).1 = .ok {} := by
  have h := readers_agree [5, 97] (be32 1 ++ [0]) 0 (fun _ => 4) (by decide) (by decide) (by decide)
  have he : (Python.read (fun _ => 4)
      ⟨be32 [5, 97].length ++ [5, 97] ++ (be32 1 ++ [0]), 0⟩).1 = .error .structError := by decide
  exact ⟨he, h.1.refused he, by decide⟩

end Agreement

end Smts.Net
