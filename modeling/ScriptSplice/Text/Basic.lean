/-!
# Text as bytes

Everything the compiler reads and writes is a string of bytes, with no
encoding attached: a column counts bytes, and a byte above `0x7f` is a
letter of no alphabet. This file has the type, the few operations that
are not already those of lists, and the byte classes.
-/

namespace ScriptSplice

/-- A text is a string of bytes. -/
abbrev Text := List UInt8

/-- The text of an ASCII literal, one byte for each character. -/
def ascii (s : String) : Text := s.toList.map fun c => UInt8.ofNat c.toNat

/-! ## Byte classes

Letters and digits are those of ASCII; every other byte is neither. -/

namespace Byte

/-- A decimal digit. -/
def isDigit (b : UInt8) : Bool := 0x30 ≤ b && b ≤ 0x39

/-- A capital letter. -/
def isUpper (b : UInt8) : Bool := 0x41 ≤ b && b ≤ 0x5a

/-- A letter. -/
def isAlpha (b : UInt8) : Bool := isUpper b || (0x61 ≤ b && b ≤ 0x7a)

/-- A letter or a digit. -/
def isAlphanumeric (b : UInt8) : Bool := isAlpha b || isDigit b

/-- A byte that cannot stand for itself inside a literal: below the
blank, or the delete byte. -/
def isControl (b : UInt8) : Bool := b < 0x20 || b == 0x7f

/-- The bytes a numeral may be preceded by. -/
def isSpace (b : UInt8) : Bool := b == 0x20 || (0x09 ≤ b && b ≤ 0x0d)

/-- A capital becomes its small letter; other bytes stay. -/
def toLower (b : UInt8) : UInt8 := if isUpper b then b + 0x20 else b

/-- What ends a line. -/
def newline : UInt8 := 0x0a

/-- The single quote. -/
def quote : UInt8 := 0x27

/-- The double quote. -/
def doubleQuote : UInt8 := 0x22

/-- What escapes a byte of a string. -/
def backslash : UInt8 := 0x5c

/-- What stands between the words of a name. -/
def underscore : UInt8 := 0x5f

/-- What begins a mark. -/
def hash : UInt8 := 0x23

/-- The digit of value `n`, in bases up to sixteen. -/
def hexDigit (n : Nat) : UInt8 := UInt8.ofNat (if n < 10 then 0x30 + n else 0x57 + n)

/-- The two hexadecimal digits of a byte, the high one first. -/
def hex (b : UInt8) : Text := [hexDigit (b.toNat / 16), hexDigit (b.toNat % 16)]

end Byte

namespace Text

/-- The pieces between the bytes of a class, empty ones included: one
piece more than there are such bytes. -/
def splitWhere (p : UInt8 → Bool) : Text → List Text
  | [] => [[]]
  | b :: t => if p b then [] :: splitWhere p t else (splitWhere p t).modifyHead (b :: ·)

/-- The lines of a text, without their line breaks. -/
def lines (t : Text) : List Text := t.splitWhere (· == Byte.newline)

/-- The part before the first zero byte, which is all that a reader of
zero-terminated strings sees. -/
def untilNul (t : Text) : Text := t.takeWhile (· != 0)

/-- Items separated by a comma and a blank, as in an argument list. -/
def commaSeparated (items : List Text) : Text := List.intercalate (ascii ", ") items

/-- A natural number in decimal. -/
def ofNat (n : Nat) : Text := (Nat.toDigits 10 n).map fun c => UInt8.ofNat c.toNat

/-- An integer in decimal, a minus sign before a negative one. -/
def ofInt : Int → Text
  | .ofNat n => ofNat n
  | .negSucc n => 0x2d :: ofNat (n + 1)

/-- The value of a string of digits, read in base ten. -/
def digitsValue (t : Text) : Nat := t.foldl (fun n b => 10 * n + (b.toNat - 0x30)) 0

/-- The integer a text begins with: blanks, a sign and digits, and what
follows the digits. Without digits there is no number. -/
def leadingInt (t : Text) : Option (Int × Text) :=
  let t := t.dropWhile Byte.isSpace
  let (negative, t) := match t with
    | 0x2d :: rest => (true, rest)
    | 0x2b :: rest => (false, rest)
    | _ => (false, t)
  let digits := t.takeWhile Byte.isDigit
  if digits.isEmpty then none
  else
    let n : Int := digitsValue digits
    some (if negative then -n else n, t.dropWhile Byte.isDigit)

/-- The signed number that the lowest 32 bits of an integer are. -/
def word (i : Int) : Int := (Int32.ofInt i).toInt

/-- The integer a text begins with, zero if there is none, as a number of
32 bits. It is read with 64 bits, where one that is too large becomes the
largest there is, and one that is too small the smallest. -/
def leadingWord (t : Text) : Int :=
  let i := ((leadingInt t).map (·.1)).getD 0
  word (max Int64.minValue.toInt (min i Int64.maxValue.toInt))

end Text

end ScriptSplice
