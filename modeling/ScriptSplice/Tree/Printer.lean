import ScriptSplice.Number.Digits
import ScriptSplice.Tree.Node
/-!
# Writing trees

The printed form of a tree is the text the reader accepts, with one blank
between tokens. Floating point numbers keep six digits.
-/

namespace ScriptSplice

namespace Leaf

/-- Six digits, and an exponent of ten from the millions on. -/
def floatStyle : FloatStyle where
  digits := some 6
  scientificFrom := 6
  nan := ascii "nan"
  negativeNaN := ascii "-nan"
  infinity := ascii "inf"
  negativeInfinity := ascii "-inf"

/-- One byte of a string as it is written between the quotes. -/
def escapeByte (b : UInt8) : Text :=
  if b == Byte.doubleQuote || b == Byte.backslash then [Byte.backslash, b]
  else if b == 0x0a then ascii "\\n"
  else if b == 0x0d then ascii "\\r"
  else if b == 0x09 then ascii "\\t"
  else [b]

/-- A leaf in the textual format. -/
def print : Leaf → Text
  | nil => ascii "nil"
  | bool true => ascii "true"
  | bool false => ascii "false"
  | int i => Text.ofInt i.toInt
  | float x => floatStyle.render x
  | str t => [Byte.doubleQuote] ++ t.flatMap escapeByte ++ [Byte.doubleQuote]

end Leaf

/-- What stands for an absent node. -/
def printAbsent : Option Text → Text
  | some t => t
  | none => ascii "nil"

/-- A value whose nodes are printed already. -/
def Value.print : Value Text → Text
  | .leaf l => l.print
  | .child c => printAbsent c
  | .children cs => ascii "[" ++ List.intercalate (ascii " ") (cs.map printAbsent) ++ ascii "]"

/-- A field whose nodes are printed already, the blank before it included. -/
def Field.print (f : Field Text) : Text := ascii " :" ++ f.name ++ ascii " " ++ f.value.print

namespace Node

/-- **The printed form of a tree.** -/
def print : Node → Text :=
  fold fun n fields => ascii "(" ++ n.kind.name ++ fields.flatMap Field.print ++ ascii ")"

theorem print_eq (n : Node) :
    n.print = ascii "(" ++ n.kind.name ++
      (Fields.map print n.fields).flatMap Field.print ++ ascii ")" := by
  rw [print, fold_eq]

/-- The printed form of a tree that may be absent. -/
def printOption (n : Option Node) : Text := printAbsent (n.map print)

end Node

end ScriptSplice
