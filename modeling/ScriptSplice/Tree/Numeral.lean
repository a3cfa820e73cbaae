import ScriptSplice.Number.Rounding
import ScriptSplice.Tree.Leaf
/-!
# Numerals

The leaf that the bytes of a numeral stand for. A token with a point or
an exponent letter is a floating point number, any other an integer of
64 bits. An exponent letter that no digit follows counts for nothing.
-/

namespace ScriptSplice

namespace Numeral

/-- The sign of a token, and what follows it. -/
def splitSign : Text → Bool × Text
  | 0x2d :: t => (true, t)
  | 0x2b :: t => (false, t)
  | t => (false, t)

/-- The letters that announce an exponent of ten. -/
def isExponentLetter (b : UInt8) : Bool := b == 0x65 || b == 0x45

/-- The exponent at the start of a text, zero if there is none. -/
def exponent : Text → Int
  | b :: t => if isExponentLetter b then ((Text.leadingInt t).map (·.1)).getD 0 else 0
  | [] => 0

/-- The decimal an unsigned token begins with. At least one digit must
stand before or after the point. -/
def decimal? (t : Text) : Option Decimal :=
  let whole := t.takeWhile Byte.isDigit
  let (fraction, rest) := match t.dropWhile Byte.isDigit with
    | 0x2e :: r => (r.takeWhile Byte.isDigit, r.dropWhile Byte.isDigit)
    | r => ([], r)
  let digits := whole ++ fraction
  if digits.isEmpty then none
  else some ⟨Text.digitsValue digits, exponent rest - fraction.length⟩

/-- A token with a point or an exponent letter. -/
def isFloat (token : Text) : Bool := token.any fun b => b == 0x2e || isExponentLetter b

/-- The integers of 64 bits. -/
def inRange (i : Int) : Bool := -9223372036854775808 ≤ i && i ≤ 9223372036854775807

/-- The leaf a token stands for, unless it has no digits or is out of
range. -/
def leaf? (token : Text) : Option Leaf :=
  let (negative, unsigned) := splitSign token
  if isFloat token then
    (decimal? unsigned).bind fun d => (d.toBinary64? negative).map Leaf.float
  else if unsigned.isEmpty then none
  else
    let n : Int := Text.digitsValue unsigned
    let i := if negative then -n else n
    if inRange i then some (.int (Int64.ofInt i)) else none

end Numeral

end ScriptSplice
