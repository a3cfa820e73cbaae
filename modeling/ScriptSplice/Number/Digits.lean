import ScriptSplice.Number.Binary64
import ScriptSplice.Text.Basic
/-!
# Decimal digits of binary numbers

Which decimal digits stand for a binary number: a fixed count of them,
rounded (`Binary64.significant`), or the fewest that read back as the
same number (`Binary64.shortest`). Both work on the decimal grid of the
wanted number of digits, in exact arithmetic.

How the digits are set out is the business of a `FloatStyle`: from which
exponent on a number is written with an exponent of ten, and what stands
for the values that have no digits.
-/

namespace ScriptSplice

/-- A decimal `digits * 10 ^ exponent`. -/
structure Decimal where
  digits : Nat
  exponent : Int
deriving DecidableEq, Inhabited

/-- A power of ten. -/
def tenTo (n : Nat) : Nat := Nat.pow 10 n

/-- The number of digits of a natural number; zero has one. -/
def digitCount (n : Nat) : Nat := (Nat.toDigits 10 n).length

/-- The exponent of the leading decimal digit of a positive quotient. -/
def leadingExponent (num den : Nat) : Int :=
  if den ≤ num then digitCount (num / den) - 1
  else
    let width := digitCount (den / num)
    if den ≤ num * tenTo (width - 1) then 1 - (width : Int) else -(width : Int)

/-- A quotient in units of `10 ^ k`, as numerator and denominator. -/
def inTens (num den : Nat) (k : Int) : Nat × Nat :=
  (num * tenTo (-k).toNat, den * tenTo k.toNat)

namespace Decimal

/-- Compares `num / den` with a decimal. -/
def notBelow (d : Decimal) (num den : Nat) : Bool :=
  num * tenTo (-d.exponent).toNat ≤ d.digits * tenTo d.exponent.toNat * den

/-- Compares a decimal with `num / den`. -/
def notAbove (d : Decimal) (num den : Nat) : Bool :=
  d.digits * tenTo d.exponent.toNat * den ≤ num * tenTo (-d.exponent).toNat

end Decimal

namespace Binary64

variable (x : Binary64)

/-- Four times the lower end of the reals that round to `x`, in units:
half a step of the last place, and half of that just above a power of
two, where the step below is the smaller one. -/
def lowerEnd : Nat :=
  4 * x.units - if x.fraction = 0 ∧ 1 < x.exponentField then twoTo x.scale else 2 * twoTo x.scale

/-- Four times the upper end of the reals that round to `x`, in units. -/
def upperEnd : Nat := 4 * x.units + 2 * twoTo x.scale

/-- **Reading back.** A decimal lies between the ends, or on one of them
when the significand is even, since a half goes to the even neighbour. -/
def readsBack (d : Decimal) : Bool :=
  d.notBelow x.lowerEnd (4 * unitsPerOne) && d.notAbove x.upperEnd (4 * unitsPerOne) &&
    (x.significand % 2 == 0 ||
      !(d.notAbove x.lowerEnd (4 * unitsPerOne) || d.notBelow x.upperEnd (4 * unitsPerOne)))

/-- The exponent of the last of `count` digits. -/
def lastExponent (count : Nat) : Int :=
  leadingExponent x.units unitsPerOne - ((count : Int) - 1)

/-- The best decimal of at most `count` digits that reads back as `x`,
when there is one: of the two neighbours of `x` on the decimal grid the
nearer, and the even one of two equally near. -/
def shortestOf (count : Nat) : Option Decimal :=
  let k := x.lastExponent count
  let (num, den) := inTens x.units unitsPerOne k
  let below : Decimal := ⟨num / den, k⟩
  let above : Decimal := ⟨num / den + 1, k⟩
  match x.readsBack below, x.readsBack above with
  | true, true => some ⟨roundHalfEven num den, k⟩
  | true, false => some below
  | false, true => some above
  | false, false => none

/-- The decimal with the fewest digits that reads back as `x`. Seventeen
always do. -/
def shortest : Decimal :=
  ((List.range 17).findSome? fun i => x.shortestOf (i + 1)).getD ⟨0, 0⟩

/-- The decimal of `count` digits nearest to `x`. -/
def significant (count : Nat) : Decimal :=
  let k := x.lastExponent count
  let (num, den) := inTens x.units unitsPerOne k
  ⟨roundHalfEven num den, k⟩

end Binary64

/-! ## Setting out the digits -/

namespace Decimal

/-- The digits without the zeros at the end, and the exponent of the
leading one. -/
def layout (d : Decimal) : Text × Int :=
  let digits := Text.ofNat d.digits
  let kept := (digits.reverse.dropWhile (· == 0x30)).reverse
  (if kept.isEmpty then ascii "0" else kept, d.exponent + (digits.length : Int) - 1)

/-- One digit, the others after a point, and the exponent of ten with a
sign and at least two digits. -/
def scientific (digits : Text) (exponent : Int) : Text :=
  let fraction := digits.drop 1
  let power := Text.ofNat exponent.natAbs
  digits.take 1 ++ (if fraction.isEmpty then [] else ascii "." ++ fraction) ++
    (if exponent < 0 then ascii "e-" else ascii "e+") ++
    (if power.length < 2 then ascii "0" ++ power else power)

/-- The digits around a point, at least one on either side. -/
def positional (digits : Text) (exponent : Int) : Text :=
  if exponent < 0 then ascii "0." ++ List.replicate (-exponent - 1).toNat 0x30 ++ digits
  else
    let width := exponent.toNat + 1
    let whole := digits.take width
    let fraction := digits.drop width
    whole ++ List.replicate (width - whole.length) 0x30 ++
      (if fraction.isEmpty then ascii ".0" else ascii "." ++ fraction)

end Decimal

/-- How a format writes floating point numbers. -/
structure FloatStyle where
  /-- How many digits are kept; as many as reading back takes, if none is said. -/
  digits : Option Nat
  /-- The first exponent of ten that is written out. Those below `-4` are
  written out too. -/
  scientificFrom : Int
  nan : Text
  /-- What is not a number, with the sign of a negative one. -/
  negativeNaN : Text
  infinity : Text
  negativeInfinity : Text

/-- A number as a format writes it. -/
def FloatStyle.render (style : FloatStyle) (x : Binary64) : Text :=
  if x.isNaN then if x.negative then style.negativeNaN else style.nan
  else if x.isInfinite then if x.negative then style.negativeInfinity else style.infinity
  else
    let decimal := if x.units = 0 then ⟨0, 0⟩ else
      match style.digits with
      | none => x.shortest
      | some count => x.significant count
    let (digits, exponent) := decimal.layout
    (if x.negative then ascii "-" else []) ++
      if exponent < -4 ∨ style.scientificFrom ≤ exponent then Decimal.scientific digits exponent
      else Decimal.positional digits exponent

end ScriptSplice
