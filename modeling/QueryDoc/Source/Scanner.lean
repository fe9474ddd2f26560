import QueryDoc.Source.Alphabet
import QueryDoc.Source.Position

/-! A scanner stands at a place in a source text. It is moved only by passing over characters, so
that its position is always the one that the text passed over determines. -/

namespace QueryDoc

structure Scanner where
  rest : List Char
  position : Position := {}
  /-- Whether the character passed over last was a carriage return. -/
  afterReturn : Bool := false
  file : Option String := none
deriving DecidableEq, Repr, Inhabited

/-- How many characters of a text are ignored before its first significant one. White space and
commas are, and so is a comment, which runs from a number sign up to the end of its line. -/
def ignoredLength (inComment : Bool) : List Char → Nat
  | [] => 0
  | c :: cs =>
    if inComment then ignoredLength (!isLineEnd c) cs + 1
    else if isSpace c || c == ',' then ignoredLength false cs + 1
    else if c == '#' then ignoredLength true cs + 1
    else 0

/-- How many bytes of a text stand before the first occurrence of a byte in its encoding. -/
def bytesBefore? (byte : UInt8) : List Char → Option Nat
  | [] => none
  | c :: cs =>
    match (String.utf8EncodeChar c).findIdx? (· == byte) with
    | some i => some i
    | none => (bytesBefore? byte cs).map (c.utf8Size + ·)

/-- How many characters it takes to pass over `n` bytes. -/
def charsCovering : Nat → List Char → Nat
  | 0, _ => 0
  | _ + 1, [] => 0
  | n + 1, c :: cs => charsCovering (n + 1 - c.utf8Size) cs + 1

def leadingName? (cs : List Char) : Option (List Char) :=
  match cs with
  | [] => none
  | c :: _ => if isNameStart c then some (cs.takeWhile isNameContinue) else none

namespace Scanner

def start (source : List Char) (file : Option String := none) : Scanner :=
  { rest := source, file }

/-- Passes over one character, or stays at the end of the text. -/
def advance (s : Scanner) : Scanner :=
  match s.rest with
  | [] => s
  | c :: cs =>
    { s with
      rest := cs
      position := s.position.after s.afterReturn c
      afterReturn := c == '\r' }

def advanceBy (s : Scanner) : Nat → Scanner
  | 0 => s
  | n + 1 => s.advance.advanceBy n

def peek? (s : Scanner) : Option Char :=
  s.rest.head?

def atEnd (s : Scanner) : Bool :=
  s.rest.isEmpty

def spanFrom (s : Scanner) (start : Position) : Span :=
  { start, stop := s.position, file := s.file }

/-- The span of the next character, or an empty span at the end of the text. -/
def nextSpan (s : Scanner) : Span :=
  match s.rest with
  | [] => s.spanFrom s.position
  | c :: _ => { start := s.position, stop := s.position.past c, file := s.file }

def run (s : Scanner) (p : Char → Bool) : List Char :=
  s.rest.takeWhile p

def skipRun (s : Scanner) (p : Char → Bool) : Scanner :=
  s.advanceBy (s.run p).length

def skipIgnored (s : Scanner) : Scanner :=
  s.advanceBy (ignoredLength false s.rest)

/-- Passes over a comment up to the end of its line. -/
def skipComment (s : Scanner) : Scanner :=
  s.skipRun (!isLineEnd ·)

/-- The text before the next occurrence of an ASCII byte and the scanner at that occurrence. The
byte is looked for in the encoded text: in UTF-8 it occurs only as the character it encodes. -/
def until? (s : Scanner) (byte : UInt8) : Option (List Char × Scanner) :=
  (bytesBefore? byte s.rest).map fun bytes =>
    let n := charsCovering bytes s.rest
    (s.rest.take n, s.advanceBy n)

def startsWith (s : Scanner) (text : List Char) : Bool :=
  text.isPrefixOf s.rest

def name? (s : Scanner) : Option (List Char) :=
  leadingName? s.rest

@[simp] theorem rest_start (source : List Char) (file : Option String) :
    (start source file).rest = source := rfl

@[simp] theorem rest_advance (s : Scanner) : s.advance.rest = s.rest.tail := by
  unfold advance
  split <;> simp_all

@[simp] theorem file_advance (s : Scanner) : s.advance.file = s.file := by
  unfold advance
  split <;> rfl

@[simp] theorem rest_advanceBy (s : Scanner) (n : Nat) :
    (s.advanceBy n).rest = s.rest.drop n := by
  induction n generalizing s with
  | zero => rfl
  | succ n ih => simp [advanceBy, ih]

@[simp] theorem file_advanceBy (s : Scanner) (n : Nat) : (s.advanceBy n).file = s.file := by
  induction n generalizing s with
  | zero => rfl
  | succ n ih => simp [advanceBy, ih]

theorem advanceBy_add (s : Scanner) (m n : Nat) :
    s.advanceBy (m + n) = (s.advanceBy m).advanceBy n := by
  induction m generalizing s with
  | zero => simp [advanceBy]
  | succ m ih => simp [Nat.succ_add, advanceBy, ih]

theorem run_append_rest_skipRun (s : Scanner) (p : Char → Bool) :
    s.run p ++ (s.skipRun p).rest = s.rest := by
  rw [skipRun, rest_advanceBy]
  exact List.prefix_iff_eq_append.mp (List.takeWhile_prefix p)

@[simp] theorem rest_skipRun (s : Scanner) (p : Char → Bool) :
    (s.skipRun p).rest = s.rest.dropWhile p := by
  have h := run_append_rest_skipRun s p
  rw [run] at h
  exact List.append_cancel_left (h.trans List.takeWhile_append_dropWhile.symm)

end Scanner

end QueryDoc
