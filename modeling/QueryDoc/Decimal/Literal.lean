import QueryDoc.Decimal.Binary64

/-! Numbers as they are written: an optional sign, digits, and for a decimal an optional point and
exponent. -/

namespace QueryDoc.Decimal

def digitValue (c : Char) : Nat :=
  c.toNat - '0'.toNat

def natOfDigits (cs : List Char) : Nat :=
  cs.foldl (fun n c => 10 * n + digitValue c) 0

def splitSign : List Char → Bool × List Char
  | '-' :: cs => (true, cs)
  | '+' :: cs => (false, cs)
  | cs => (false, cs)

def isDigits (cs : List Char) : Bool :=
  !cs.isEmpty && cs.all Char.isDigit

def signed (negative : Bool) (n : Nat) : Int :=
  if negative then -n else n

def int? (cs : List Char) : Option Int :=
  let (negative, digits) := splitSign cs
  if isDigits digits then some (signed negative (natOfDigits digits)) else none

/-- The integer of 64 bits that a text writes, if it is in range. -/
def int64? (cs : List Char) : Option Int64 :=
  (int? cs).bind fun n =>
    if Int64.minValue.toInt ≤ n ∧ n ≤ Int64.maxValue.toInt then some (Int64.ofInt n) else none

/-- A decimal as it is written: a sign, digits on both sides of the point, and an exponent. -/
structure Literal where
  negative : Bool
  whole : List Char
  fraction : List Char
  exponent : Int
deriving DecidableEq, Repr

/-- The exponent part of a decimal, which may be absent. -/
def exponent? : List Char → Option Int
  | [] => some 0
  | c :: cs => if c = 'e' ∨ c = 'E' then int? cs else none

/-- The digits after the point and what follows them. Without a point there are none. -/
def splitFraction : List Char → List Char × List Char
  | '.' :: cs => (cs.takeWhile Char.isDigit, cs.dropWhile Char.isDigit)
  | cs => ([], cs)

/-- Splits a decimal into its parts. There is a digit before the point or after it. -/
def Literal.parse? (cs : List Char) : Option Literal :=
  let (negative, unsigned) := splitSign cs
  let whole := unsigned.takeWhile Char.isDigit
  let (fraction, tail) := splitFraction (unsigned.dropWhile Char.isDigit)
  if whole.isEmpty && fraction.isEmpty then none
  else (exponent? tail).map fun exponent => { negative, whole, fraction, exponent }

def Literal.toBinary64 (x : Literal) : Binary64 :=
  .ofDecimal x.negative (natOfDigits (x.whole ++ x.fraction)) (x.exponent - x.fraction.length)

def float? (cs : List Char) : Option Binary64 :=
  (Literal.parse? cs).map Literal.toBinary64

end QueryDoc.Decimal
