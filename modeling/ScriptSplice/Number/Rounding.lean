import ScriptSplice.Number.Digits
/-!
# The number nearest to a decimal

A decimal is rounded to the nearest binary number. Two kinds are refused
as out of range: those whose rounding overflows, and those too small for
the full precision of the format that would lose digits.
-/

namespace ScriptSplice

namespace Binary64

/-- **Tininess.** A magnitude in units is tiny when rounding it to full
precision, were there exponents enough, gives less than the smallest
number of full precision, which is `2 ^ 52` units. -/
def isTiny (num den : Nat) : Bool := 4 * num < (4 * twoTo 52 - 1) * den

/-- The number nearest to a quotient, if it is in range. -/
def ofRatio? (negative : Bool) (num den : Nat) : Option Binary64 :=
  let x := ofRatio negative num den
  let exact := x.units * den == num * unitsPerOne
  if x.isInfinite || (isTiny (num * unitsPerOne) den && !exact) then none else some x

end Binary64

namespace Decimal

/-- No decimal whose leading digit has an exponent beyond this one, or
below its negative, is in range. -/
def exponentBound : Int := 400

/-- The number nearest to a decimal with a sign, if it is in range. Zero
is, whatever its exponent. -/
def toBinary64? (negative : Bool) (d : Decimal) : Option Binary64 :=
  let leading := d.exponent + (digitCount d.digits : Int) - 1
  if d.digits = 0 then some (Binary64.ofFields negative 0)
  else if leading < -exponentBound ∨ exponentBound < leading then none
  else
    Binary64.ofRatio? negative (d.digits * tenTo d.exponent.toNat) (tenTo (-d.exponent).toNat)

end Decimal

end ScriptSplice
