import Smts.Lib.Bytes
import Smts.Lib.Prog
import Smts.Lib.Table

namespace Smts.Net

open Smts.Lib
open Smts.Lib.Prog (raise ofExcept)

/-- What the two implementations raise.  `outOfBounds` is a read past the end of
the message buffer, and `noFuel` marks a loop that was still running. -/
inductive Exn
  | connectionAborted | structError | unicodeError | valueError
  | socketClosed | socketException | outOfBounds | noFuel
  deriving DecidableEq

/-- Header and payload.  Python keeps the header as text, C++ as bytes; a map is
given by its entries in the order in which they are visited. -/
structure Message (κ : Type) where
  header : Table κ κ := []
  payload : Bytes := []
  deriving DecidableEq

def encoded (h : Table String String) : Table Bytes Bytes :=
  h.map fun e => (utf8 e.1, utf8 e.2)

def Message.encoded (m : Message String) : Message Bytes where
  header := Net.encoded m.header
  payload := m.payload

/-- What is left to read on a connection, and how much has been read. -/
structure Stream where
  rest : Bytes
  pos : Nat := 0
  deriving DecidableEq

abbrev M := Prog Stream Exn

section Reading

variable (cut : Nat → Nat)

/-- One call of `recv` or `read`.  It hands over some of what is left, at least one
byte unless nothing is left; `cut` bounds how much at each offset of the stream. -/
def recv (n : Nat) : M Bytes := fun s =>
  let got := s.rest.take (min n (max 1 (cut s.pos)))
  (.ok got, { rest := s.rest.drop got.length, pos := s.pos + got.length })

/-- Calls until `length` bytes have arrived. -/
def readAll (eof : Exn) (length : Nat) : Nat → Bytes → M Bytes
  | 0, content => if content.length < length then raise .noFuel else pure content
  | k + 1, content =>
    if content.length < length then do
      let buffer ← recv cut (length - content.length)
      if buffer = [] then raise eof
      else readAll eof length k (content ++ buffer)
    else pure content

end Reading

/-- The bytes put on a connection, and how often `send` has been called. -/
structure Sink where
  out : Bytes := []
  calls : Nat := 0
  deriving DecidableEq

/-- The kernel takes some of the data, at least one byte; `accept` bounds how much at
each call. -/
def send (accept : Nat → Nat) (data : Bytes) : Prog Sink Exn Unit := fun s =>
  (.ok (), { out := s.out ++ data.take (max 1 (accept s.calls)), calls := s.calls + 1 })

namespace Python

/-- `struct.unpack('!B', content[i:i + 1])` and the slice after it. -/
def field : Bytes → Except Exn (Bytes × Bytes)
  | [] => .error .structError
  | l :: rest => .ok (rest.take l.toNat, rest.drop l.toNat)

def decode (b : Bytes) : Except Exn String :=
  match ofUtf8? b with
  | some s => .ok s
  | none => .error .unicodeError

/-- The loop over the header, on what is left of the content. -/
def parseHeader : Nat → Table String String → Bytes → Except Exn (Message String)
  | 0, _, _ => .error .noFuel
  | k + 1, header, content =>
    if content.head? = some 0 then .ok ⟨header, content.tail⟩
    else do
      let (key, content) ← field content
      let (value, content) ← field content
      let value ← decode value
      let key ← decode key
      parseHeader k (Table.put key value header) content

def parse (content : Bytes) : Except Exn (Message String) :=
  parseHeader (content.length + 1) [] content

/-- `Socket.read`. -/
def read (cut : Nat → Nat) : M (Message String) := do
  match ofBe32? (← recv cut 4) with
  | none => raise .connectionAborted
  | some length => do
    let content ← readAll cut .connectionAborted length length []
    ofExcept (parse content)

/-- `struct.pack('!B', len(item)) + item`. -/
def packField (item : Bytes) : Except Exn Bytes :=
  if item.length < 256 then .ok (UInt8.ofNat item.length :: item) else .error .structError

def packHeader : Table Bytes Bytes → Except Exn Bytes
  | [] => .ok []
  | (key, value) :: header =>
    if key = [] then .error .valueError
    else do
      let key ← packField key
      let value ← packField value
      return key ++ value ++ (← packHeader header)

/-- What `Socket.write` sends after the length. -/
def dump (m : Message String) : Except Exn Bytes := do
  let header ← packHeader (encoded m.header)
  let dump := header ++ 0 :: m.payload
  if 2 ^ 32 ≤ dump.length then .error .valueError else .ok dump

/-- `Socket.write`.  The results of the two calls of `send` are not looked at. -/
def write (accept : Nat → Nat) (m : Message String) : Prog Sink Exn Unit := do
  let dump ← ofExcept (dump m)
  send accept (be32 dump.length)
  send accept dump

end Python

namespace Cpp

section Parsing

variable (message : Bytes)

/-- `message.get()[i]`. -/
def byteAt (i : Nat) : Except Exn UInt8 :=
  match message[i]? with
  | some b => .ok b
  | none => .error .outOfBounds

/-- `std::string(&message.get()[i], l)`. -/
def slice (i l : Nat) : Except Exn Bytes :=
  if l = 0 ∨ i + l ≤ message.length then .ok ((message.drop i).take l) else .error .outOfBounds

/-- One round of the inner loop.  Indices are 32-bit. -/
def field (i : Nat) : Except Exn (Bytes × Nat) := do
  let l ← byteAt message i
  let i := (i + 1) % 2 ^ 32
  if message.length ≤ (i + l.toNat) % 2 ^ 32 then .error .socketException
  else do
    let item ← slice message i l.toNat
    return (item, (i + l.toNat) % 2 ^ 32)

def parseHeader : Nat → Table Bytes Bytes → Nat → Except Exn (Table Bytes Bytes × Nat)
  | 0, _, _ => .error .noFuel
  | k + 1, header, i => do
    let b ← byteAt message i
    if b = 0 then .ok (header, i)
    else do
      let (key, i) ← field message i
      let (value, i) ← field message i
      parseHeader k (Table.put key value header) i

def parse : Except Exn (Message Bytes) := do
  let (header, i) ← parseHeader message (message.length + 1) [] 0
  let i := (i + 1) % 2 ^ 32
  return ⟨header, if i < message.length then (message.drop i).take (message.length - i) else []⟩

end Parsing

/-- `Socket::readn`. -/
def readn (cut : Nat → Nat) (length : Nat) : M Bytes := readAll cut .socketClosed length length []

/-- `Socket::read`. -/
def read (cut : Nat → Nat) : M (Message Bytes) := do
  match ofBe32? (← readn cut 4) with
  | none => pure {}
  | some length => do
    let message ← readn cut length
    ofExcept (parse message)

def packField (item : Bytes) : Except Exn Bytes :=
  if 255 < item.length then .error .socketException
  else .ok (UInt8.ofNat item.length :: item)

def packHeader : Table Bytes Bytes → Except Exn Bytes
  | [] => .ok []
  | (key, value) :: header => do
    let key ← packField key
    let value ← packField value
    return key ++ value ++ (← packHeader header)

/-- What `Socket::write` puts on the stream. -/
def frame (m : Message Bytes) : Except Exn Bytes :=
  if ∃ e ∈ m.header, e.1 = [] then .error .socketException
  else do
    let header ← packHeader m.header
    let message := be32 (2 ^ 32 - 1) ++ header ++ 0 :: m.payload
    if 2 ^ 32 - 1 < message.length then .error .socketException
    else .ok (be32 (message.length - 4) ++ message.drop 4)

end Cpp

end Smts.Net
