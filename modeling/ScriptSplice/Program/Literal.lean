import ScriptSplice.Number.Digits
import ScriptSplice.Tree.Leaf
/-!
# Literals of the target language

The compiler writes Python, and a leaf becomes the literal that Python
itself would print for it. A string literal fits on one line whatever
bytes it holds.
-/

namespace ScriptSplice

namespace Text

/-- The quote a string literal takes: the single one, unless the text has
single quotes and no double one. -/
def quoteFor (t : Text) : UInt8 :=
  if t.contains Byte.quote && !t.contains Byte.doubleQuote then Byte.doubleQuote else Byte.quote

/-- One byte between quotes. -/
def literalByte (quote b : UInt8) : Text :=
  if b == quote || b == Byte.backslash then [Byte.backslash, b]
  else if b == 0x0a then ascii "\\n"
  else if b == 0x0d then ascii "\\r"
  else if b == 0x09 then ascii "\\t"
  else if Byte.isControl b then ascii "\\x" ++ Byte.hex b
  else [b]

/-- A text as a string literal. -/
def literal (t : Text) : Text :=
  [quoteFor t] ++ t.flatMap (literalByte (quoteFor t)) ++ [quoteFor t]

end Text

namespace Leaf

/-- As many digits as reading back takes, and an exponent of ten from
`1e+16` on. There are no literals for infinity and what is not a number. -/
def literalStyle : FloatStyle where
  digits := none
  scientificFrom := 16
  nan := ascii "float('nan')"
  negativeNaN := ascii "float('nan')"
  infinity := ascii "float('inf')"
  negativeInfinity := ascii "float('-inf')"

/-- A leaf as a literal. -/
def literal : Leaf → Text
  | nil => ascii "None"
  | bool true => ascii "True"
  | bool false => ascii "False"
  | int i => Text.ofInt i.toInt
  | float x => literalStyle.render x
  | str t => t.literal

end Leaf

end ScriptSplice
