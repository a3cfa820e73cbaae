/-!
# Binary floating point numbers

A number of the binary64 format is its 64 bits. Every finite one is a
whole multiple of the smallest positive one, `2 ^ -1074`, so its
magnitude is a natural number of such units, and rounding, comparing and
printing are exact integer arithmetic.
-/

namespace ScriptSplice

/-- A power of two. -/
def twoTo (n : Nat) : Nat := Nat.pow 2 n

/-- The quotient rounded to the nearest whole number, a half to the even
neighbour. -/
def roundHalfEven (num den : Nat) : Nat :=
  let q := num / den
  let twice := 2 * (num % den)
  if twice < den then q else if den < twice then q + 1 else q + q % 2

/-- A binary64 number: sign, eleven bits of exponent, 52 bits of fraction. -/
structure Binary64 where
  bits : UInt64
deriving DecidableEq, Inhabited

namespace Binary64

variable (x : Binary64)

/-- The sign bit, which zeros have too. -/
def negative : Bool := twoTo 63 ≤ x.bits.toNat

/-- The exponent field. All ones mark what is not a finite number. -/
def exponentField : Nat := x.bits.toNat / twoTo 52 % twoTo 11

/-- The fraction field. -/
def fraction : Nat := x.bits.toNat % twoTo 52

/-- Not a number. -/
def isNaN : Bool := x.exponentField == 2047 && x.fraction != 0

/-- One of the two infinities. -/
def isInfinite : Bool := x.exponentField == 2047 && x.fraction == 0

/-- Neither of these. -/
def isFinite : Bool := x.exponentField != 2047

/-- The binary exponent of the last place, counted from that of the
smallest positive number. -/
def scale : Nat := x.exponentField - 1

/-- The digits of a finite number, the leading one included unless the
number is subnormal. -/
def significand : Nat :=
  if x.exponentField = 0 then x.fraction else twoTo 52 + x.fraction

/-- The magnitude of a finite number in units of `2 ^ -1074`. -/
def units : Nat := x.significand * twoTo x.scale

/-- How many units make one. -/
def unitsPerOne : Nat := twoTo 1074

/-- **Equality as numbers.** The two zeros are equal, and what is not a
number equals nothing. -/
def sameNumber (x y : Binary64) : Bool :=
  !x.isNaN && !y.isNaN && (x == y || (x.isFinite && x.units == 0 && y.isFinite && y.units == 0))

/-- The fields of infinity, which are also the least that are too large
for a finite number. -/
def infinityFields : Nat := 2047 * twoTo 52

/-- The number with a sign and given exponent and fraction fields. -/
def ofFields (negative : Bool) (fields : Nat) : Binary64 :=
  ⟨UInt64.ofNat (fields + if negative then twoTo 63 else 0)⟩

/-- The binary exponent of the last place that the nearest number to a
magnitude keeps: 53 digits, unless the magnitude is subnormal. -/
def lastPlace (num den : Nat) : Nat := (num / den).log2 - 52

/-- **Rounding.** The number nearest to `num / den` units, a half to the
even neighbour, and infinity beyond the largest. A significand that
rounds up to the next power of two carries into the exponent field, which
is what adding the fields does. -/
def ofUnits (negative : Bool) (num den : Nat) : Binary64 :=
  let place := lastPlace num den
  let fields := place * twoTo 52 + roundHalfEven num (den * twoTo place)
  ofFields negative (min fields infinityFields)

/-- The number nearest to a quotient. -/
def ofRatio (negative : Bool) (num den : Nat) : Binary64 :=
  ofUnits negative (num * unitsPerOne) den

/-- The number nearest to an integer. -/
def ofInt (i : Int) : Binary64 := ofRatio (i < 0) i.natAbs 1

end Binary64

end ScriptSplice
