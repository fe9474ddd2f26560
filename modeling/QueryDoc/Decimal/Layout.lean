import QueryDoc.Decimal.Shortest

/-! The text of a floating point number. A format decides where positional notation begins and
ends; the digits are the fewest that read back. -/

namespace QueryDoc.Decimal

structure Format where
  tie : Tie
  /-- The least exponent of the leading digit that is written positionally. -/
  plainFrom : Int
  /-- The least exponent from which scientific notation is used again. -/
  plainBelow : Int
  plusSign : Bool
deriving DecidableEq, Repr

/-- Removes the trailing zeros of a list of digits, and counts them. -/
def stripZeros (digits : List Char) : List Char × Nat :=
  let kept := (digits.reverse.dropWhile (· == '0')).reverse
  (kept, digits.length - kept.length)

/-- Positional notation of digits whose first one has the given exponent. There is a digit on both
sides of the point. -/
def positional (digits : List Char) (leading : Int) : List Char :=
  if leading < 0 then
    '0' :: '.' :: List.replicate (-leading - 1).toNat '0' ++ digits
  else
    let whole := leading.toNat + 1
    let fraction := digits.drop whole
    digits.take whole ++ List.replicate (whole - digits.length) '0' ++ '.' ::
      (if fraction.isEmpty then ['0'] else fraction)

def exponentText (plusSign : Bool) (exponent : Int) : List Char :=
  let sign := if exponent < 0 then ['-'] else if plusSign then ['+'] else []
  sign ++ Nat.toDigits 10 exponent.natAbs

/-- Scientific notation of digits whose first one has the given exponent. A point is written only
before further digits. -/
def scientific (plusSign : Bool) (digits : List Char) (leading : Int) : List Char :=
  let fraction := digits.drop 1
  digits.take 1 ++ (if fraction.isEmpty then [] else '.' :: fraction) ++
    'e' :: exponentText plusSign leading

def magnitudeText (format : Format) (magnitude : Nat) : List Char :=
  if magnitude = 0 then ['0', '.', '0']
  else
    let found := shortest format.tie magnitude
    let (digits, zeros) := stripZeros (Nat.toDigits 10 found.digits)
    let leading := found.exponent + zeros + digits.length - 1
    if format.plainFrom ≤ leading ∧ leading < format.plainBelow then positional digits leading
    else scientific format.plusSign digits leading

def finiteText (format : Format) (x : Binary64) : List Char :=
  (if x.negative then ['-'] else []) ++ magnitudeText format x.magnitude

end QueryDoc.Decimal
