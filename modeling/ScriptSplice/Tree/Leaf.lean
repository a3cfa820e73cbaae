import ScriptSplice.Number.Binary64
import ScriptSplice.Text.Basic
/-!
# Leaf values

The values a field can hold besides nodes, and when two of them count as
the same: numbers are compared as numbers of the binary format whatever
way they were written, everything else by type and value.
-/

namespace ScriptSplice

/-- A value without parts. -/
inductive Leaf where
  | nil
  | bool (b : Bool)
  | int (i : Int64)
  | float (x : Binary64)
  | str (t : Text)
deriving DecidableEq, Inhabited

namespace Leaf

/-- A numeric leaf as a number of the binary format; an integer is
rounded to the nearest one. -/
def number? : Leaf → Option Binary64
  | int i => some (Binary64.ofInt i.toInt)
  | float x => some x
  | _ => none

/-- **Sameness of leaves**: equal numbers, or equal values of one type. -/
def same (a b : Leaf) : Bool :=
  match a.number?, b.number? with
  | some x, some y => x.sameNumber y
  | _, _ => a == b

/-- The text of a string leaf; other leaves have none. -/
def text : Leaf → Text
  | str t => t
  | _ => []

end Leaf

end ScriptSplice
