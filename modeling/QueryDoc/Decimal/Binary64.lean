/-! Binary floating point numbers of 64 bits, kept as a sign and a magnitude. The magnitudes of the
finite numbers are counted in order from zero, so a number is found by rounding a ratio to the
nearest of them in exact arithmetic on natural numbers. -/

namespace QueryDoc

structure Binary64 where
  negative : Bool
  /-- The exponent and fraction bits read as one number. -/
  magnitude : Nat
  magnitude_lt : magnitude < 0x8000000000000000
deriving DecidableEq, Repr

/-- A quotient rounded to a natural number, where a half goes to the even neighbour. -/
def roundHalfEven (num den : Nat) : Nat :=
  let q := num / den
  let twice := 2 * (num % den)
  if twice < den then q
  else if den < twice then q + 1
  else if q % 2 = 0 then q
  else q + 1

namespace Binary64

/-- The magnitude of infinity. What lies above it is not a number. -/
def infinite : Nat := 0x7FF0000000000000

/-- How many numbers of one sign share an exponent. -/
def binade : Nat := 0x10000000000000

def ofBits (bits : UInt64) : Binary64 where
  negative := 0x8000000000000000 ≤ bits.toNat
  magnitude := bits.toNat % 0x8000000000000000
  magnitude_lt := Nat.mod_lt _ (by decide)

def toBits (x : Binary64) : UInt64 :=
  UInt64.ofNat (x.magnitude + if x.negative then 0x8000000000000000 else 0)

def isFinite (x : Binary64) : Bool :=
  x.magnitude < infinite

def isNaN (x : Binary64) : Bool :=
  infinite < x.magnitude

/-- How far the significand of a magnitude is shifted. -/
def shiftOf (magnitude : Nat) : Nat :=
  magnitude / binade - 1

/-- The integer `m` for which a finite magnitude stands for `m * 2 ^ shift / 2 ^ 1074`. -/
def significandOf (magnitude : Nat) : Nat :=
  magnitude - shiftOf magnitude * binade

/-- The numerator of a finite magnitude over the denominator `2 ^ 1074`. -/
def numerator (magnitude : Nat) : Nat :=
  significandOf magnitude * Nat.pow 2 (shiftOf magnitude)

/-- The magnitude nearest to a ratio. Of two equally near the one with an even significand is
taken, and what lies half a unit or more above the largest finite number becomes infinite. -/
def nearest (num den : Nat) : Nat :=
  let scaled := num * Nat.pow 2 1074
  let shift := (scaled / den).log2 - 52
  min (shift * binade + roundHalfEven scaled (den * Nat.pow 2 shift)) infinite

/-- The magnitude nearest to `digits * 10 ^ exponent`. The two guards only save work: beyond them
the result is infinite or zero anyway. -/
def nearestDecimal (digits : Nat) (exponent : Int) : Nat :=
  if digits = 0 then 0
  else if 400 ≤ exponent then infinite
  else if digits.log2 + 1077 ≤ 3 * (-exponent).toNat then 0
  else nearest (digits * Nat.pow 10 exponent.toNat) (Nat.pow 10 (-exponent).toNat)

theorem nearestDecimal_lt (digits : Nat) (exponent : Int) :
    nearestDecimal digits exponent < 0x8000000000000000 := by
  have hi : infinite < 0x8000000000000000 := by decide
  unfold nearestDecimal nearest
  split
  · decide
  · split
    · exact hi
    · split
      · decide
      · exact Nat.lt_of_le_of_lt (Nat.min_le_right _ _) hi

def ofDecimal (negative : Bool) (digits : Nat) (exponent : Int) : Binary64 where
  negative
  magnitude := nearestDecimal digits exponent
  magnitude_lt := nearestDecimal_lt digits exponent

theorem toBits_ofBits (bits : UInt64) : (ofBits bits).toBits = bits := by
  have h := bits.toNat_lt
  apply UInt64.toNat_inj.mp
  simp only [toBits, ofBits, decide_eq_true_eq, UInt64.toNat_ofNat']
  split <;> omega

/-- Equality of numbers: zero has one value with two signs, and what is not a number equals
nothing. -/
def numEq (x y : Binary64) : Bool :=
  !x.isNaN && !y.isNaN && x.magnitude == y.magnitude &&
  (x.negative == y.negative || x.magnitude == 0)

end Binary64

end QueryDoc
