import ScriptSplice.Program.Helper
import ScriptSplice.Program.Literal
/-!
# Expressions of the generated program

Expressions do not depend on the options of a compilation; the stem of
the generated names comes in when they are written out. An operand is
written as it stands, with no brackets of its own: those an expression
needs are part of it.
-/

namespace ScriptSplice

/-- Expressions of the generated program. -/
inductive Expr where
  /-- Text that is taken as it is. -/
  | verbatim (t : Text)
  /-- Expressions written one after the other. -/
  | adjoin (parts : List Expr)
  /-- A referenced node. -/
  | ref (i : Nat)
  /-- A run of referenced nodes, the second end excluded. -/
  | slice (start stop : Nat)
  /-- A fresh variable. -/
  | var (n : Nat)
  /-- What stands for an argument that was not given. -/
  | missing
  /-- The commands collected so far. -/
  | commands
  /-- A call of a helper. -/
  | apply (h : Helper) (args : List Expr)
  /-- An argument that is given by name. -/
  | keyword (name : Text) (value : Expr)
  /-- An expression in parentheses, behind the mark of its line. -/
  | bracketed (line : Option Int) (e : Expr)
  | literal (l : Leaf)
  | binary (left : Expr) (operator : Text) (right : Expr)
  | unary (operator : Text) (operand : Expr)
  /-- A format string filled in. -/
  | format (template : Text) (values : List Expr)
  | tuple (items : List Expr)
  | list (items : List Expr)
  /-- A dictionary of entries. -/
  | dict (items : List Expr)
  | entry (key value : Expr)
  | lookup (base : Expr) (args : List Expr)
  | call (base : Expr) (args : List Expr)
deriving Inhabited

/-- The mark of a line, on a line of its own; nothing for no line. -/
def lineMark : Option Int → Text
  | some line => ascii "\n#" ++ Text.ofInt line ++ ascii "\n"
  | none => []

namespace Expr

variable (stem : Text)

mutual

/-- An expression as text. -/
def render : Expr → Text
  | verbatim t => t
  | adjoin parts => (renderAll parts).flatten
  | ref i => refsName stem ++ ascii "[" ++ Text.ofNat i ++ ascii "]"
  | slice start stop =>
    refsName stem ++ ascii "[" ++ Text.ofNat start ++ ascii ":" ++ Text.ofNat stop ++ ascii "]"
  | var n => variableName stem n
  | missing => Helper.localName stem .missing
  | commands => commandsName stem
  | apply h args =>
    h.localName stem ++ ascii "(" ++ Text.commaSeparated (renderAll args) ++ ascii ")"
  | keyword name value => name ++ ascii "=" ++ render value
  | bracketed line e => ascii "(" ++ lineMark line ++ render e ++ ascii ")"
  | literal l => l.literal
  | binary left operator right =>
    render left ++ ascii " " ++ operator ++ ascii " " ++ render right
  | unary operator operand => operator ++ ascii " " ++ render operand
  | format template values =>
    template.literal ++ ascii ".format(" ++ Text.commaSeparated (renderAll values) ++ ascii ")"
  | tuple items => ascii "(" ++ (renderAll items).flatMap (· ++ ascii ",") ++ ascii ")"
  | list items => ascii "[" ++ Text.commaSeparated (renderAll items) ++ ascii "]"
  | dict items => ascii "\x7b" ++ Text.commaSeparated (renderAll items) ++ ascii "\x7d"
  | entry key value => render key ++ ascii ": " ++ render value
  | lookup base args =>
    render base ++ ascii "[" ++ Text.commaSeparated (renderAll args) ++ ascii "]"
  | call base args =>
    render base ++ ascii "(" ++ Text.commaSeparated (renderAll args) ++ ascii ")"

/-- Expressions as texts. -/
def renderAll : List Expr → List Text
  | [] => []
  | e :: es => render e :: renderAll es

end

theorem renderAll_eq (es : List Expr) : renderAll stem es = es.map (render stem) := by
  induction es with
  | nil => rfl
  | cons e es ih => simp [renderAll, ih]

end Expr

end ScriptSplice
