import ScriptSplice.Options
import ScriptSplice.Program.LineTable
import ScriptSplice.Program.Stmt
/-!
# The text of a program

A program is the helpers it uses, in the order of their first use, and
its lines. Its text begins with the bindings of the helpers. Only here do
the options come in: the stem of the names, the width of the indentation,
and whether the line table is written.
-/

namespace ScriptSplice

/-- A generated program. -/
structure Program where
  helpers : List Helper
  lines : List Line

namespace Program

variable (options : Options)

/-- The line that binds a helper to its local name. -/
def bindingLine (h : Helper) : Text :=
  h.localName options.stem ++ ascii " = " ++ runtimeName options.stem ++ ascii ".helpers[" ++
    Text.literal h.key ++ ascii "]"

/-- Everything written, marks included, line by line. -/
def written (p : Program) : List Text :=
  (p.helpers.map (bindingLine options) ++
    p.lines.map (Line.render options.stem options.indent)).flatMap Text.lines

/-- The name of the line table. -/
def tableName : Text := options.stem ++ ascii "_lineno"

/-- **The text of a program**: the lines that stay, behind the line table
if it is wanted and there is anything to tell. -/
def source (p : Program) : Text :=
  let a := Assembly.ofLines (p.written options)
  let table := if a.marked && options.lineTable then [a.tableLine (tableName options)] else []
  List.intercalate (ascii "\n") (table ++ a.kept.reverse)

end Program

end ScriptSplice
