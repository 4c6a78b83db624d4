import Smts.Net.Codec

namespace Smts.Net

open Smts.Lib

/-- The bytes of one length-prefixed item. -/
def item (b : Bytes) : Bytes := UInt8.ofNat b.length :: b

def packed (h : Table Bytes Bytes) : Bytes := h.flatMap fun e => item e.1 ++ item e.2

/-- What a frame carries for a message. -/
def Message.body (m : Message String) : Bytes := packed (Net.encoded m.header) ++ 0 :: m.payload

def Message.size (m : Message String) : Nat :=
  (m.header.map fun e => 2 + e.1.utf8ByteSize + e.2.utf8ByteSize).sum + 1 + m.payload.length

def Fits (e : String × String) : Prop :=
  1 ≤ e.1.utf8ByteSize ∧ e.1.utf8ByteSize ≤ 255 ∧ e.2.utf8ByteSize ≤ 255

instance : DecidablePred Fits := fun _ => inferInstanceAs (Decidable (_ ∧ _ ∧ _))

@[simp] theorem packed_nil : packed [] = [] := rfl

@[simp] theorem packed_cons (e : Bytes × Bytes) (h : Table Bytes Bytes) :
    packed (e :: h) = item e.1 ++ (item e.2 ++ packed h) := by
  simp [packed]

@[simp] theorem encoded_cons (e : String × String) (h : Table String String) :
    encoded (e :: h) = (utf8 e.1, utf8 e.2) :: encoded h := rfl

theorem Message.length_body (m : Message String) : m.body.length = m.size := by
  have hpacked (h : Table String String) : (packed (Net.encoded h)).length =
      (h.map fun e => 2 + e.1.utf8ByteSize + e.2.utf8ByteSize).sum := by
    induction h with
    | nil => rfl
    | cons e h ih =>
      simp only [encoded_cons, packed_cons, item, List.length_append, List.length_cons, ih,
        length_utf8, List.map_cons, List.sum_cons]
      omega
  simp only [Message.body, Message.size, List.length_append, List.length_cons, hpacked]
  omega

section Packing

theorem Python.packField_ok {b : Bytes} (h : b.length ≤ 255) : packField b = .ok (item b) :=
  if_pos (by omega)

theorem Python.packField_error {b : Bytes} (h : ¬ b.length ≤ 255) :
    packField b = .error .structError := if_neg (by omega)

theorem Cpp.packField_ok {b : Bytes} (h : b.length ≤ 255) : packField b = .ok (item b) :=
  if_neg (by omega)

variable {h : Table String String}

theorem Fits.key_ne {e : String × String} (fits : Fits e) : utf8 e.1 ≠ [] := by
  rw [← List.length_pos_iff, length_utf8]
  exact fits.1

theorem Python.packHeader_ok (fits : ∀ e ∈ h, Fits e) :
    packHeader (encoded h) = .ok (packed (encoded h)) := by
  induction h with
  | nil => rfl
  | cons e h ih =>
    have he := fits e List.mem_cons_self
    rw [encoded_cons, packHeader, if_neg he.key_ne, packField_ok (by simpa using he.2.1),
      packField_ok (by simpa using he.2.2), ih fun e' he' => fits e' (List.mem_cons_of_mem e he'),
      packed_cons, ← List.append_assoc]
    rfl

/-- A header with an entry that does not fit is refused. -/
theorem Python.packHeader_error (misfit : ¬ ∀ e ∈ h, Fits e) :
    ∃ x, packHeader (encoded h) = .error x := by
  induction h with
  | nil => exact absurd (fun _ he => nomatch he) misfit
  | cons e h ih =>
    rw [encoded_cons, packHeader]
    split
    · exact ⟨_, rfl⟩
    · next hkey =>
      by_cases h1 : (utf8 e.1).length ≤ 255
      · by_cases h2 : (utf8 e.2).length ≤ 255
        · have he : Fits e := by
            have hpos := List.length_pos_iff.mpr hkey
            rw [length_utf8] at h1 h2 hpos
            exact ⟨hpos, h1, h2⟩
          obtain ⟨x, hx⟩ := ih fun hall => misfit fun e' he' =>
            (List.mem_cons.mp he').elim (fun heq => heq ▸ he) (hall e')
          rw [packField_ok h1, packField_ok h2, hx]
          exact ⟨x, rfl⟩
        · rw [packField_ok h1, packField_error h2]
          exact ⟨_, rfl⟩
      · rw [packField_error h1]
        exact ⟨_, rfl⟩

theorem Cpp.packHeader_ok (fits : ∀ e ∈ h, Fits e) :
    packHeader (encoded h) = .ok (packed (encoded h)) := by
  induction h with
  | nil => rfl
  | cons e h ih =>
    have he := fits e List.mem_cons_self
    rw [encoded_cons, packHeader, packField_ok (by simpa using he.2.1),
      packField_ok (by simpa using he.2.2), ih fun e' he' => fits e' (List.mem_cons_of_mem e he'),
      packed_cons, ← List.append_assoc]
    rfl

variable {m : Message String}

/-- What `Socket.write` accepts. -/
structure Encodable (m : Message String) : Prop where
  fits : ∀ e ∈ m.header, Fits e
  bounded : m.size < 2 ^ 32

instance : Decidable (Encodable m) :=
  decidable_of_iff ((∀ e ∈ m.header, Fits e) ∧ m.size < 2 ^ 32)
    ⟨fun h => ⟨h.1, h.2⟩, fun h => ⟨h.fits, h.bounded⟩⟩

theorem Python.dump_ok (h : Encodable m) : dump m = .ok m.body := by
  have hsize : ¬ 2 ^ 32 ≤ m.body.length := by
    rw [m.length_body]
    exact Nat.not_le_of_lt h.bounded
  rw [dump, packHeader_ok h.fits]
  exact if_neg hsize

theorem Python.dump_error (h : ¬ Encodable m) : ∃ x, dump m = .error x := by
  by_cases fits : ∀ e ∈ m.header, Fits e
  · have hsize : 2 ^ 32 ≤ m.body.length := by
      rw [m.length_body]
      exact Nat.le_of_not_lt fun hlt => h ⟨fits, hlt⟩
    refine ⟨.valueError, ?_⟩
    rw [dump, packHeader_ok fits]
    exact if_pos hsize
  · obtain ⟨x, hx⟩ := packHeader_error fits
    refine ⟨x, ?_⟩
    rw [dump, hx]
    rfl

theorem Python.write_ok {accept : Nat → Nat} (h : Encodable m) (s : Sink) : write accept m s =
    (.ok (), ⟨s.out ++ (be32 m.size).take (max 1 (accept s.calls)) ++
      m.body.take (max 1 (accept (s.calls + 1))), s.calls + 2⟩) := by
  rw [write, dump_ok h, m.length_body.symm]
  rfl

/-- A refused message leaves the connection as it was. -/
theorem Python.write_error (accept : Nat → Nat) (h : ¬ Encodable m) (s : Sink) :
    ∃ x, write accept m s = (.error x, s) := by
  obtain ⟨x, hx⟩ := dump_error h
  refine ⟨x, ?_⟩
  rw [write, hx]
  rfl

theorem Cpp.frame_ok (fits : ∀ e ∈ m.header, Fits e) (bounded : m.size < 2 ^ 32 - 4) :
    frame m.encoded = .ok (be32 m.body.length ++ m.body) := by
  have hkey : ¬ ∃ e ∈ m.encoded.header, e.1 = [] := by
    rintro ⟨_, he, hnil⟩
    obtain ⟨e, hmem, rfl⟩ := List.mem_map.mp he
    exact (fits e hmem).key_ne hnil
  have hsize : ¬ 2 ^ 32 - 1 < (be32 (2 ^ 32 - 1) ++ packed (Net.encoded m.header) ++
      0 :: m.payload).length := by
    rw [List.append_assoc, List.length_append, ← Message.body, m.length_body, length_be32]
    omega
  rw [frame, if_neg hkey, show m.encoded.header = Net.encoded m.header from rfl,
    packHeader_ok fits]
  refine (if_neg hsize).trans ?_
  rw [List.append_assoc, ← length_be32 (2 ^ 32 - 1), List.drop_left, List.length_append,
    Nat.add_sub_cancel_left]
  rfl

end Packing

section Parsing

variable {h header : Table String String} {payload : Bytes}

theorem Python.field_item {b rest : Bytes} (h : b.length ≤ 255) :
    field (item b ++ rest) = .ok (b, rest) := by
  have hl : (UInt8.ofNat b.length).toNat = b.length := by
    rw [UInt8.toNat_ofNat']
    omega
  rw [item, List.cons_append, field, hl, List.take_left, List.drop_left]

theorem Python.decode_utf8 (s : String) : decode (utf8 s) = .ok s := by
  rw [decode, ofUtf8?_utf8]

/-- The loop over a packed header puts one entry after the other. -/
theorem Python.parseHeader_packed {k : Nat} (fits : ∀ e ∈ h, Fits e)
    (nodup : ((header ++ h).map Prod.fst).Nodup) (hk : h.length < k) :
    parseHeader k header (packed (encoded h) ++ 0 :: payload) = .ok ⟨header ++ h, payload⟩ := by
  induction h generalizing header k with
  | nil =>
    obtain ⟨k, rfl⟩ : ∃ k', k = k' + 1 := ⟨k - 1, (Nat.succ_pred_eq_of_pos hk).symm⟩
    rw [List.append_nil]
    rfl
  | cons e h ih =>
    obtain ⟨k, rfl⟩ : ∃ k', k = k' + 1 := ⟨k - 1, by omega⟩
    have he := fits e List.mem_cons_self
    have hhead : ¬ (item (utf8 e.1) ++ (item (utf8 e.2) ++ (packed (encoded h) ++
        0 :: payload))).head? = some 0 := by
      intro hz
      have h0 : UInt8.ofNat (utf8 e.1).length = 0 := Option.some.inj hz
      have hl := congrArg UInt8.toNat h0
      rw [UInt8.toNat_ofNat', length_utf8] at hl
      have := he.1
      have := he.2.1
      change e.1.utf8ByteSize % 2 ^ 8 = 0 at hl
      omega
    have hnew : e.1 ∉ header.map Prod.fst := by
      rw [List.map_append, List.map_cons] at nodup
      intro hmem
      exact (List.nodup_append.mp nodup).2.2 _ hmem _ List.mem_cons_self rfl
    rw [encoded_cons, packed_cons, List.append_assoc, List.append_assoc, parseHeader,
      if_neg hhead, field_item (by simpa using he.2.1)]
    simp only [bind, Except.bind]
    rw [field_item (by simpa using he.2.2)]
    simp only [decode_utf8]
    rw [Table.put_of_notMem hnew, ih (fun e' he' => fits e' (List.mem_cons_of_mem e he'))
      (by rwa [List.append_assoc]) (Nat.lt_of_succ_lt_succ hk), List.append_assoc]
    rfl

theorem Python.parse_body {m : Message String} (fits : ∀ e ∈ m.header, Fits e)
    (nodup : (m.header.map Prod.fst).Nodup) : parse m.body = .ok m := by
  have hlen (h : Table String String) : h.length ≤ (packed (encoded h)).length := by
    induction h with
    | nil => exact Nat.zero_le _
    | cons e h ih =>
      simp only [encoded_cons, packed_cons, item, List.length_append, List.length_cons]
      omega
  have hk : m.header.length < m.body.length + 1 := by
    have := hlen m.header
    rw [Message.body, List.length_append]
    omega
  exact parseHeader_packed fits nodup hk

end Parsing

section Exchange

/-- The two implementations of the protocol. -/
inductive Side
  | python | cpp
  deriving DecidableEq

/-- A message as one side holds it. -/
inductive Held
  | text (m : Message String)
  | bytes (m : Message Bytes)
  deriving DecidableEq

def Side.held : Side → Message String → Held
  | .python, m => .text m
  | .cpp, m => .bytes m.encoded

/-- Every call hands over what it was asked for: nobody asks for more than a word. -/
def whole : Nat → Nat := fun _ => 2 ^ 32

theorem four_le_whole (pos : Nat) : 4 ≤ whole pos := by
  rw [whole]
  omega

def Side.put : Side → Message String → Except Exn Bytes
  | .python, m =>
    match Python.write whole m {} with
    | (.ok _, s) => .ok s.out
    | (.error e, _) => .error e
  | .cpp, m => Cpp.frame m.encoded

def Side.take : Side → M Held
  | .python => do return .text (← Python.read whole)
  | .cpp => do return .bytes (← Cpp.read whole)

/-- A message, who writes it and who reads it. -/
structure Exchange where
  message : Message String
  writer : Side
  reader : Side

def written : List Exchange → Except Exn Bytes
  | [] => .ok []
  | x :: xs => do
    let frame ← x.writer.put x.message
    return frame ++ (← written xs)

def received : List Exchange → M (List Held)
  | [] => pure []
  | x :: xs => do
    let m ← x.reader.take
    return m :: (← received xs)

structure Message.WellFormed (m : Message String) : Prop where
  nodup : (m.header.map Prod.fst).Nodup
  fits : ∀ e ∈ m.header, Fits e
  bounded : m.size < 2 ^ 32 - 4

instance (m : Message String) : Decidable m.WellFormed :=
  decidable_of_iff ((m.header.map Prod.fst).Nodup ∧ (∀ e ∈ m.header, Fits e) ∧ m.size < 2 ^ 32 - 4)
    ⟨fun h => ⟨h.1, h.2.1, h.2.2⟩, fun h => ⟨h.nodup, h.fits, h.bounded⟩⟩

variable {m : Message String}

theorem Message.WellFormed.encodable (h : m.WellFormed) : Encodable m :=
  ⟨h.fits, Nat.lt_of_lt_of_le h.bounded (Nat.sub_le _ _)⟩

theorem Message.WellFormed.put (h : m.WellFormed) (w : Side) :
    w.put m = .ok (be32 m.body.length ++ m.body) := by
  cases w with
  | python =>
    have hbody : m.body.length ≤ max 1 (whole 1) := by
      have := h.encodable.bounded
      rw [m.length_body, whole]
      omega
    have hword : (be32 m.size).length ≤ max 1 (whole 0) := by
      rw [length_be32, whole]
      omega
    rw [Side.put, Python.write_ok h.encodable]
    simp only [List.take_of_length_le hword, Nat.zero_add, List.take_of_length_le hbody,
      List.nil_append, m.length_body]
  | cpp => exact Cpp.frame_ok h.fits h.bounded

theorem Message.WellFormed.take (h : m.WellFormed) (r : Side) (rest : Bytes) (pos : Nat) :
    r.take ⟨be32 m.body.length ++ m.body ++ rest, pos⟩ =
      (.ok (r.held m), ⟨rest, pos + (4 + m.body.length)⟩) := by
  have hbody : m.body.length < 2 ^ 32 := by
    rw [m.length_body]
    exact h.encodable.bounded
  have hparse := Python.parse_body h.fits h.nodup
  cases r with
  | python =>
    have hread : Python.read whole ⟨be32 m.body.length ++ m.body ++ rest, pos⟩ =
        (Python.parse m.body, ⟨rest, pos + (4 + m.body.length)⟩) :=
      Python.read_frame hbody (four_le_whole pos)
    rw [hparse] at hread
    rw [Side.take, Prog.bind_ok hread, Side.held, Prog.pure_run]
  | cpp =>
    have hread : Cpp.read whole ⟨be32 m.body.length ++ m.body ++ rest, pos⟩ =
        (Cpp.parse m.body, ⟨rest, pos + (4 + m.body.length)⟩) := Cpp.read_frame hbody
    rw [Cpp.parse_of_ok hbody hparse] at hread
    rw [Side.take, Prog.bind_ok hread, Side.held, Prog.pure_run]

/-- Whoever writes and whoever reads, a sequence of messages arrives as it was sent. -/
theorem wire_roundtrip (xs : List Exchange) (h : ∀ x ∈ xs, x.message.WellFormed) :
    ∃ stream, written xs = .ok stream ∧ ∀ pos, received xs ⟨stream, pos⟩ =
      (.ok (xs.map fun x => x.reader.held x.message), ⟨[], pos + stream.length⟩) := by
  induction xs with
  | nil => exact ⟨[], rfl, fun _ => rfl⟩
  | cons x xs ih =>
    have hx := h x List.mem_cons_self
    obtain ⟨stream, hw, hr⟩ := ih fun y hy => h y (List.mem_cons_of_mem x hy)
    refine ⟨be32 x.message.body.length ++ x.message.body ++ stream, ?_, fun pos => ?_⟩
    · rw [written, hx.put, hw]
      rfl
    · rw [received, Prog.bind_ok (hx.take x.reader stream pos), Prog.bind_ok (hr _)]
      simp only [Prog.pure_run, List.map_cons, List.length_append, length_be32, Nat.add_assoc]

theorem wire_roundtrip_mixed :
    let m : Message String := ⟨[("command", "solve"), ("node", "")], [0, 7, 0]⟩
    ∃ stream, written [⟨m, .python, .cpp⟩, ⟨{}, .cpp, .python⟩, ⟨m, .cpp, .python⟩] = .ok stream ∧
      ∀ pos, received [⟨m, .python, .cpp⟩, ⟨{}, .cpp, .python⟩, ⟨m, .cpp, .python⟩] ⟨stream, pos⟩ =
        (.ok [.bytes m.encoded, .text {}, .text m], ⟨[], pos + stream.length⟩) :=
  wire_roundtrip [⟨_, .python, .cpp⟩, ⟨{}, .cpp, .python⟩, ⟨_, .cpp, .python⟩] (by decide)

end Exchange

end Smts.Net
