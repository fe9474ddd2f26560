/-! How a text is laid out: white space in the sense of the Unicode property White_Space, and lines. -/

namespace QueryDoc.Text

/-- The property White_Space. The byte order mark and the zero width space are not in it. -/
def isBlank (c : Char) : Bool :=
  (9 ≤ c.toNat && c.toNat ≤ 13) || c.toNat == 0x20 || c.toNat == 0x85 || c.toNat == 0xA0 ||
  c.toNat == 0x1680 || (0x2000 ≤ c.toNat && c.toNat ≤ 0x200A) || c.toNat == 0x2028 ||
  c.toNat == 0x2029 || c.toNat == 0x202F || c.toNat == 0x205F || c.toNat == 0x3000

def trimStart (cs : List Char) : List Char :=
  cs.dropWhile isBlank

def trimEnd (cs : List Char) : List Char :=
  (cs.reverse.dropWhile isBlank).reverse

def trim (cs : List Char) : List Char :=
  trimEnd (trimStart cs)

/-! ### Lines for display

A line ends at a line feed, and one carriage return right before that line feed belongs to the line
break. A carriage return anywhere else is part of the line. -/

/-- The lines of a text without their line breaks. A line break at the very end opens no further
line. -/
def lines : List Char → List (List Char)
  | [] => []
  | '\n' :: cs => [] :: lines cs
  | '\r' :: '\n' :: cs => [] :: lines cs
  | c :: cs =>
    match lines cs with
    | [] => [[c]]
    | line :: more => (c :: line) :: more

end QueryDoc.Text
