import QueryDoc.Decimal.Binary64

/-! The fewest decimal digits that read back to a floating point number, and among them those that
are nearest to it. -/

namespace QueryDoc.Decimal

/-- Which of two equally near decimals is taken. -/
inductive Tie where
  | up
  | toEven
deriving DecidableEq, Repr

/-- The decimal `digits * 10 ^ exponent`. -/
structure Scaled where
  digits : Nat
  exponent : Int
deriving DecidableEq, Repr

/-- The exponent of the leading decimal digit of a positive finite magnitude. -/
def leadingExponent (magnitude : Nat) : Int :=
  let shifted := Binary64.numerator magnitude * Nat.pow 10 400 / Nat.pow 2 1074
  (Nat.toDigits 10 shifted).length - 401

/-- The value of a finite magnitude in units of `10 ^ exponent`, as a ratio. -/
def inUnits (magnitude : Nat) (exponent : Int) : Nat × Nat :=
  (Binary64.numerator magnitude * Nat.pow 10 (-exponent).toNat,
    Nat.pow 2 1074 * Nat.pow 10 exponent.toNat)

/-- Whether a multiple of a power of ten is read as a magnitude. -/
def readsBack (magnitude : Nat) (exponent : Int) (digits : Nat) : Bool :=
  Binary64.nearestDecimal digits exponent == magnitude

/-- Of the two neighbours of a magnitude among the multiples of a power of ten, the one that reads
back to it, or the nearer one if both do. -/
def onGrid? (tie : Tie) (magnitude : Nat) (exponent : Int) : Option Scaled :=
  let value := inUnits magnitude exponent
  let below := value.1 / value.2
  let twice := 2 * (value.1 % value.2)
  let upper := value.2 < twice || (value.2 == twice && (tie == .up || below % 2 == 1))
  if readsBack magnitude exponent below then
    if upper && readsBack magnitude exponent (below + 1) then some ⟨below + 1, exponent⟩
    else some ⟨below, exponent⟩
  else if readsBack magnitude exponent (below + 1) then some ⟨below + 1, exponent⟩
  else none

def exactDigits (magnitude : Nat) : Scaled :=
  let shift := Binary64.shiftOf magnitude
  let significand := Binary64.significandOf magnitude
  if 1074 ≤ shift then ⟨significand * Nat.pow 2 (shift - 1074), 0⟩
  else ⟨significand * Nat.pow 5 (1074 - shift), shift - 1074⟩

/-- The first hit on the grids of `count`, `count + 1`, … digits. -/
def search (tie : Tie) (magnitude : Nat) (leading : Int) (count : Nat) : Nat → Scaled
  | 0 => exactDigits magnitude
  | tries + 1 =>
    (onGrid? tie magnitude (leading - count + 1)).getD
      (search tie magnitude leading (count + 1) tries)

/-- The shortest decimal that reads back to a positive finite magnitude. Seventeen digits always
suffice. -/
def shortest (tie : Tie) (magnitude : Nat) : Scaled :=
  search tie magnitude (leadingExponent magnitude) 1 17

end QueryDoc.Decimal
