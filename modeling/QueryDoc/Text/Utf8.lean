/-! Decoding UTF-8, and where and how it fails. A faulty stretch is as long as the longest part of a
well-formed encoding that it starts with, and at least one byte. -/

namespace QueryDoc.Text.Utf8

/-- Why bytes are not UTF-8. Without a `length` the bytes end inside a character. -/
structure Fault where
  index : Nat
  length : Option Nat
deriving DecidableEq, Repr

/-- The bytes that may come second after the first byte of a multi-byte character. -/
def second (first : Nat) : Nat × Nat :=
  if first = 0xE0 then (0xA0, 0xBF)
  else if first = 0xED then (0x80, 0x9F)
  else if first = 0xF0 then (0x90, 0xBF)
  else if first = 0xF4 then (0x80, 0x8F)
  else (0x80, 0xBF)

/-- How many bytes a character that starts with this byte takes. -/
def width? (first : Nat) : Option Nat :=
  if first < 0x80 then some 1
  else if 0xC2 ≤ first ∧ first ≤ 0xDF then some 2
  else if 0xE0 ≤ first ∧ first ≤ 0xEF then some 3
  else if 0xF0 ≤ first ∧ first ≤ 0xF4 then some 4
  else none

/-- What the first byte of a character of this width adds to its code point. -/
def leadBits (width first : Nat) : Nat :=
  if width = 1 then first
  else if width = 2 then first % 0x20
  else if width = 3 then first % 0x10
  else first % 0x08

structure State where
  /-- How many bytes stand before the character being read. -/
  index : Nat := 0
  taken : Nat := 0
  due : Nat := 0
  range : Nat × Nat := (0x80, 0xBF)
  code : Nat := 0

/-- Reads one byte, and gives the character it completes if it completes one. -/
def State.step (s : State) (byte : Nat) : Except Fault (State × Option Char) :=
  if s.due = 0 then
    match width? byte with
    | none => .error ⟨s.index, some 1⟩
    | some 1 => .ok ({ index := s.index + 1 }, some (Char.ofNat byte))
    | some width =>
      .ok ({ index := s.index, taken := 1, due := width - 1, range := second byte,
             code := leadBits width byte }, none)
  else if s.range.1 ≤ byte ∧ byte ≤ s.range.2 then
    let code := s.code * 0x40 + byte % 0x40
    if s.due = 1 then
      .ok ({ index := s.index + s.taken + 1 }, some (Char.ofNat code))
    else
      .ok ({ index := s.index, taken := s.taken + 1, due := s.due - 1, code := code }, none)
  else
    .error ⟨s.index, some s.taken⟩

def decodeFrom (s : State) : List UInt8 → Except Fault (List Char)
  | [] => if s.due = 0 then .ok [] else .error ⟨s.index, none⟩
  | byte :: bytes =>
    match s.step byte.toNat with
    | .error fault => .error fault
    | .ok (s, none) => decodeFrom s bytes
    | .ok (s, some c) => (decodeFrom s bytes).map (c :: ·)

def decode (bytes : List UInt8) : Except Fault (List Char) :=
  decodeFrom {} bytes

/-- The characters of a text, and the faulty stretches between them, where `held` are the bytes of the
character being read. A byte that cuts a character short may begin another one. -/
def piecesFrom (s : State) (held : List UInt8) : List UInt8 → List (Except (List UInt8) Char)
  | [] => if held.isEmpty then [] else [.error held]
  | byte :: bytes =>
    match s.step byte.toNat with
    | .ok (s, none) => piecesFrom s (held ++ [byte]) bytes
    | .ok (s, some c) => .ok c :: piecesFrom s [] bytes
    | .error _ =>
      (if held.isEmpty then [] else [.error held]) ++
        match State.step {} byte.toNat with
        | .ok (s, none) => piecesFrom s [byte] bytes
        | .ok (s, some c) => .ok c :: piecesFrom s [] bytes
        | .error _ => .error [byte] :: piecesFrom {} [] bytes

def pieces (bytes : List UInt8) : List (Except (List UInt8) Char) :=
  piecesFrom {} [] bytes

/-- The characters, with a replacement character in the place of every faulty stretch. -/
def lossy (bytes : List UInt8) : List Char :=
  (pieces bytes).map fun piece => piece.toOption.getD '\uFFFD'

def encode (text : List Char) : List UInt8 :=
  text.flatMap String.utf8EncodeChar

def Fault.message (fault : Fault) : String :=
  match fault.length with
  | some n => s!"invalid utf-8 sequence of {n} bytes from index {fault.index}"
  | none => s!"incomplete utf-8 byte sequence from index {fault.index}"

end QueryDoc.Text.Utf8
