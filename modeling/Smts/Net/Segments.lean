import Smts.Net.RoundTrip

namespace Smts.Net

open Smts.Lib

section Reads

/-- A frame that the server understands. -/
structure Frame where
  content : Bytes
  message : Message String
  bounded : content.length < 2 ^ 32
  parsed : Python.parse content = .ok message

def Frame.bytes (f : Frame) : Bytes := be32 f.content.length ++ f.content

def stream (fs : List Frame) : Bytes := fs.flatMap Frame.bytes

/-- The offsets at which the frames of a stream start. -/
def starts : Nat → List Frame → List Nat
  | _, [] => []
  | pos, f :: fs => pos :: starts (pos + f.bytes.length) fs

def readEach (cut : Nat → Nat) : Nat → M (List (Message String))
  | 0 => pure []
  | k + 1 => do
    let m ← Python.read cut
    return m :: (← readEach cut k)

variable {cut : Nat → Nat} {pos : Nat}

@[simp] theorem Frame.length_bytes (f : Frame) : f.bytes.length = 4 + f.content.length := by
  simp [Frame.bytes]

theorem stream_cons (f : Frame) (fs : List Frame) : stream (f :: fs) = f.bytes ++ stream fs :=
  List.flatMap_cons

theorem Frame.read_ok (f : Frame) (rest : Bytes) (h : 4 ≤ cut pos) :
    Python.read cut ⟨f.bytes ++ rest, pos⟩ =
      (.ok f.message, ⟨rest, pos + f.bytes.length⟩) := by
  rw [f.length_bytes, ← f.parsed]
  exact Python.read_frame f.bounded h

/-- A length that arrives in pieces is taken for the end of the connection. -/
theorem Frame.read_short (f : Frame) (rest : Bytes) (h : ¬ 4 ≤ cut pos) :
    (Python.read cut ⟨f.bytes ++ rest, pos⟩).1 = .error .connectionAborted := by
  obtain ⟨t, ht⟩ : ∃ t, min 4 (max 1 (cut pos)) = t := ⟨_, rfl⟩
  have ht4 : t < 4 := by omega
  have hnone : ofBe32? ((f.bytes ++ rest).take t) = none := by
    rw [← Option.not_isSome_iff_eq_none, ofBe32?_isSome, List.length_take]
    omega
  rw [Python.read, Prog.bind_ok (recv_run _ _), ht, hnone]
  rfl

theorem readEach_whole (fs : List Frame) (h : ∀ p ∈ starts pos fs, 4 ≤ cut p) :
    readEach cut fs.length ⟨stream fs, pos⟩ =
      (.ok (fs.map Frame.message), ⟨[], pos + (stream fs).length⟩) := by
  induction fs generalizing pos with
  | nil => rfl
  | cons f fs ih =>
    have hf := f.read_ok (stream fs) (h pos List.mem_cons_self)
    have hfs := ih fun p hp => h p (List.mem_cons_of_mem _ hp)
    rw [List.length_cons, stream_cons, readEach, Prog.bind_ok hf, Prog.bind_ok hfs,
      Prog.pure_run, List.map_cons, List.length_append, Nat.add_assoc]

theorem readEach_short (fs : List Frame) (h : ¬ ∀ p ∈ starts pos fs, 4 ≤ cut p) :
    (readEach cut fs.length ⟨stream fs, pos⟩).1 = .error .connectionAborted := by
  induction fs generalizing pos with
  | nil => exact absurd (fun _ hp => nomatch hp) h
  | cons f fs ih =>
    rw [List.length_cons, stream_cons, readEach]
    by_cases hpos : 4 ≤ cut pos
    · have hfs := ih fun hall => h fun p hp => (List.mem_cons.mp hp).elim (fun he => he ▸ hpos)
        (hall p)
      rw [Prog.bind_ok (f.read_ok (stream fs) hpos), Prog.bind_error (Prod.ext hfs rfl)]
    · rw [Prog.bind_error (Prod.ext (f.read_short (stream fs) hpos) rfl)]

/-- The server reads what was sent if and only if no length is cut. -/
theorem reads_segmented (fs : List Frame) (cut : Nat → Nat) :
    readEach cut fs.length ⟨stream fs, 0⟩ = readEach whole fs.length ⟨stream fs, 0⟩ ↔
      ∀ p ∈ starts 0 fs, 4 ≤ cut p := by
  rw [readEach_whole fs fun p _ => four_le_whole p]
  constructor
  · intro heq
    by_contra h
    have hshort := readEach_short fs h
    rw [heq] at hshort
    exact nomatch hshort
  · exact readEach_whole fs

/-- The length arrives in two pieces. -/
theorem reads_segmented_prefix :
    let fs : List Frame := [⟨[0, 7], ⟨[], [7]⟩, by decide, by decide⟩]
    (readEach (fun _ => 2) 1 ⟨stream fs, 0⟩).1 = .error .connectionAborted ∧
      (readEach whole 1 ⟨stream fs, 0⟩).1 = .ok [⟨[], [7]⟩] := by
  intro fs
  exact ⟨by decide, congrArg Prod.fst (readEach_whole fs fun p _ => four_le_whole p)⟩

end Reads

section Writes

/-- Writes one message after the other.  The result lists those for which the call
returned. -/
def writeEach (accept : Nat → Nat) : List (Message String) → Prog Sink Exn (List (Message String))
  | [] => pure []
  | m :: ms => do
    let returned ← Prog.attempt (do Python.write accept m; return [m]) fun _ => pure []
    return returned ++ (← writeEach accept ms)

def frames (ms : List (Message String)) : Bytes := ms.flatMap fun m => be32 m.size ++ m.body

/-- The connection carries the complete frames of the messages that were sent. -/
def Framed (accept : Nat → Nat) (ms : List (Message String)) : Prop :=
  ∃ sent s, writeEach accept ms {} = (.ok sent, s) ∧ s.out = frames sent

/-- What the kernel takes of a list of frames, from the given call on. -/
def taken (accept : Nat → Nat) : Nat → List (Message String) → Bytes
  | _, [] => []
  | c, m :: ms => (be32 m.size).take (max 1 (accept c)) ++
      m.body.take (max 1 (accept (c + 1))) ++ taken accept (c + 2) ms

variable {accept : Nat → Nat}

theorem writeEach_run (ms : List (Message String)) (s : Sink) :
    writeEach accept ms s = (.ok (ms.filter fun m => Encodable m),
      ⟨s.out ++ taken accept s.calls (ms.filter fun m => Encodable m),
        s.calls + 2 * (ms.filter fun m => Encodable m).length⟩) := by
  induction ms generalizing s with
  | nil => simp [writeEach, taken]
  | cons m ms ih =>
    rw [writeEach]
    by_cases hm : Encodable m
    · have hwrite : Prog.attempt (do Python.write accept m; return [m]) (fun _ => pure []) s =
          (.ok [m], ⟨s.out ++ (be32 m.size).take (max 1 (accept s.calls)) ++
            m.body.take (max 1 (accept (s.calls + 1))), s.calls + 2⟩) := by
        simp only [Prog.attempt, Prog.bind_ok (Python.write_ok hm s), Prog.pure_run]
      rw [Prog.bind_ok hwrite, Prog.bind_ok (ih _), List.filter_cons_of_pos (by simpa using hm)]
      simp only [Prog.pure_run, taken, List.append_assoc, List.length_cons, List.singleton_append,
        Prod.mk.injEq, Sink.mk.injEq, true_and]
      omega
    · obtain ⟨x, hx⟩ := Python.write_error accept hm s
      have hwrite : Prog.attempt (do Python.write accept m; return [m]) (fun _ => pure []) s =
          (.ok [], s) := by
        simp only [Prog.attempt, Prog.bind_error hx, Prog.pure_run]
      rw [Prog.bind_ok hwrite, Prog.bind_ok (ih _), List.filter_cons_of_neg (by simpa using hm)]
      rfl

theorem length_taken_le (accept : Nat → Nat) (c : Nat) (ms : List (Message String)) :
    (taken accept c ms).length ≤ (frames ms).length := by
  induction ms generalizing c with
  | nil => exact Nat.le_refl _
  | cons m ms ih =>
    have := ih (c + 2)
    simp only [frames] at this
    simp only [taken, frames, List.flatMap_cons, List.length_append, List.length_take]
    omega

/-- Nothing is lost if and only if every call takes all of its data. -/
theorem taken_eq_frames (accept : Nat → Nat) (c : Nat) (ms : List (Message String)) :
    taken accept c ms = frames ms ↔ ∀ j m, ms[j]? = some m →
      4 ≤ max 1 (accept (c + 2 * j)) ∧ m.size ≤ max 1 (accept (c + 2 * j + 1)) := by
  induction ms generalizing c with
  | nil => simp [taken, frames]
  | cons m ms ih =>
    have hframes : frames (m :: ms) = be32 m.size ++ m.body ++ frames ms := List.flatMap_cons
    have hle := length_taken_le accept (c + 2) ms
    have hsize := m.length_body
    constructor
    · intro h
      have hlen := congrArg List.length h
      rw [hframes] at h hlen
      simp only [taken, List.length_append, List.length_take, length_be32, hsize] at hlen
      have hrest : taken accept (c + 2) ms = frames ms := by
        refine (List.append_inj h ?_).2
        simp only [List.length_append, List.length_take, length_be32, hsize]
        omega
      intro j m' hj
      cases j with
      | zero =>
        obtain rfl := Option.some.inj hj
        rw [Nat.mul_zero, Nat.add_zero]
        constructor
        · omega
        · omega
      | succ j =>
        have := (ih (c + 2)).mp hrest j m' hj
        rwa [show c + 2 * (j + 1) = c + 2 + 2 * j by omega]
    · intro h
      have hm := h 0 m rfl
      have hword : (be32 m.size).length ≤ max 1 (accept c) := hm.1
      have hbody : m.body.length ≤ max 1 (accept (c + 1)) := hsize ▸ hm.2
      have hrest := (ih (c + 2)).mpr fun j m' hj => by
        have := h (j + 1) m' hj
        rwa [show c + 2 * (j + 1) = c + 2 + 2 * j by omega] at this
      rw [taken, List.take_of_length_le hword, List.take_of_length_le hbody, hrest, hframes]

/-- The stream stays framed if and only if the kernel takes the length and the body of
every accepted message at once; a refused message never leaves a byte. -/
theorem writes_framed (accept : Nat → Nat) (ms : List (Message String)) :
    (Framed accept ms ∧
      ∀ m ∈ ms, ∀ s x t, Python.write accept m s = (.error x, t) → t.out = s.out) ↔
      ∀ j m, (ms.filter fun m => Encodable m)[j]? = some m →
        4 ≤ max 1 (accept (2 * j)) ∧ m.size ≤ max 1 (accept (2 * j + 1)) := by
  have hrefused : ∀ m ∈ ms, ∀ s x t, Python.write accept m s = (.error x, t) → t.out = s.out := by
    intro m _ s x t hw
    by_cases hm : Encodable m
    · rw [Python.write_ok hm] at hw
      exact nomatch hw
    · obtain ⟨x', hx⟩ := Python.write_error accept hm s
      rw [hx] at hw
      cases hw
      rfl
  have htaken := taken_eq_frames accept 0 (ms.filter fun m => Encodable m)
  simp only [Nat.zero_add] at htaken
  rw [and_iff_left hrefused, ← htaken, Framed, writeEach_run]
  constructor
  · rintro ⟨sent, s, heq, hout⟩
    cases heq
    exact hout
  · exact fun h => ⟨_, _, rfl, h⟩

/-- The kernel takes four of the five bytes of the body. -/
theorem writes_torn :
    let m : Message String := ⟨[], [7, 8, 9, 10]⟩
    writeEach (fun _ => 4) [m] {} = (.ok [m], ⟨[0, 0, 0, 5, 0, 7, 8, 9], 2⟩) ∧
      ¬ Framed (fun _ => 4) [m] := by
  refine ⟨Prod.ext (by decide) (by decide), ?_⟩
  rintro ⟨sent, s, heq, hout⟩
  have hsent : sent = [⟨[], [7, 8, 9, 10]⟩] ∧ s.out = [0, 0, 0, 5, 0, 7, 8, 9] := by
    have hrun : writeEach (fun _ => 4) [⟨[], [7, 8, 9, 10]⟩] {} =
        (.ok [⟨[], [7, 8, 9, 10]⟩], ⟨[0, 0, 0, 5, 0, 7, 8, 9], 2⟩) :=
      Prod.ext (by decide) (by decide)
    rw [hrun] at heq
    cases heq
    exact ⟨rfl, rfl⟩
  rw [hsent.1, hsent.2] at hout
  exact absurd hout (by decide)

end Writes

end Smts.Net
