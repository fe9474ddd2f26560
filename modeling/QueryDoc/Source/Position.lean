/-! Places in a source text and the stretches between them. -/

namespace QueryDoc

/-- A place in a source text. All counts start from zero: `line` and the columns count what stands
before the place, `column` in characters of its line and `column16` in UTF-16 units of its line,
and `offset` counts the bytes of the text before it. -/
structure Position where
  line : Nat := 0
  column : Nat := 0
  column16 : Nat := 0
  offset : Nat := 0
deriving DecidableEq, Repr, Inhabited

def utf16Size (c : Char) : Nat :=
  if c.toNat < 0x10000 then 1 else 2

namespace Position

/-- The place after a character that ends no line. -/
def past (p : Position) (c : Char) : Position :=
  { line := p.line, column := p.column + 1, column16 := p.column16 + utf16Size c,
    offset := p.offset + c.utf8Size }

def newline (p : Position) : Position :=
  { line := p.line + 1, offset := p.offset + 1 }

/-- The place after a character. A line feed right after a carriage return belongs to the line
break that the carriage return has made. -/
def after (p : Position) (afterReturn : Bool) (c : Char) : Position :=
  if c = '\n' then
    if afterReturn then { p with offset := p.offset + 1 } else p.newline
  else if c = '\r' then p.newline
  else p.past c

end Position

/-- The stretch of text from `start` up to but not including `stop`. -/
structure Span where
  start : Position
  stop : Position
  file : Option String := none
deriving DecidableEq, Repr, Inhabited

def byteLength : List Char → Nat
  | [] => 0
  | c :: cs => c.utf8Size + byteLength cs

@[simp] theorem byteLength_append (cs ds : List Char) :
    byteLength (cs ++ ds) = byteLength cs + byteLength ds := by
  induction cs with
  | nil => simp [byteLength]
  | cons c cs ih => simp [byteLength, ih, Nat.add_assoc]

theorem byteLength_cons_eq_succ (c : Char) (cs : List Char) :
    ∃ n, byteLength (c :: cs) = n + 1 ∧ c.utf8Size ≤ n + 1 ∧
      n + 1 - c.utf8Size = byteLength cs := by
  have hpos := c.utf8Size_pos
  exact ⟨c.utf8Size + byteLength cs - 1, by rw [byteLength]; omega, by omega, by omega⟩

/-- What is left after the first `n` bytes, if they are whole characters of the text. -/
def dropBytes? : Nat → List Char → Option (List Char)
  | 0, cs => some cs
  | _ + 1, [] => none
  | n + 1, c :: cs => if c.utf8Size ≤ n + 1 then dropBytes? (n + 1 - c.utf8Size) cs else none

/-- The first `n` bytes, if they are whole characters of the text. -/
def takeBytes? : Nat → List Char → Option (List Char)
  | 0, _ => some []
  | _ + 1, [] => none
  | n + 1, c :: cs =>
    if c.utf8Size ≤ n + 1 then (takeBytes? (n + 1 - c.utf8Size) cs).map (c :: ·) else none

namespace Span

/-- The spanned part of a text, if the span lies in it and starts and stops between characters. -/
def slice? (span : Span) (source : List Char) : Option (List Char) :=
  if span.start.offset ≤ span.stop.offset then
    (dropBytes? span.start.offset source).bind
      (takeBytes? (span.stop.offset - span.start.offset))
  else none

def fileName (span : Span) : String :=
  span.file.getD "<input>"

end Span

end QueryDoc
