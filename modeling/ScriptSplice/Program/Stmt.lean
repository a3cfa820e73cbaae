import ScriptSplice.Program.Expr
/-!
# Statements of the generated program

A line of the program under construction is a statement at a depth of
indentation. Like expressions, lines do not depend on the options until
they are written out.
-/

namespace ScriptSplice

/-- Statements of the generated program. Those that `Stmt.isHeader` picks
out open a block. -/
inductive Stmt where
  /-- Text that is taken as it is. -/
  | verbatim (t : Text)
  /-- An expression evaluated for its effect. -/
  | eval (e : Expr)
  /-- The mark of a line. -/
  | mark (line : Int)
  /-- A name bound to a value. -/
  | bind (name : Text) (value : Expr)
  /-- The variable that holds the outcome of the program. -/
  | output (n : Nat) (value : Expr)
  /-- One command more. -/
  | append (e : Expr)
  /-- A run of commands more. -/
  | extend (e : Expr)
  /-- The commands of a referenced body more. -/
  | extendBody (body : Expr)
  | pass
  /-- A keyword, alone or with an operand. -/
  | control (keyword : Text) (operand : Option Expr)
  /-- A block under a condition. -/
  | branch (keyword : Text) (condition : Expr)
  | otherwise
  | loop (target iterable : Expr)
  /-- A function; each parameter with whether it may be left out. -/
  | define (name : Text) (parameters : List (Text × Bool))
  /-- The block that makes up for an argument that was not given. -/
  | default (name : Text)
  /-- A block that collects its commands in a variable. -/
  | scope (n : Nat)
  /-- A module of the target language, under its own name or another. -/
  | importNative (path : Text)
  | importNativeAs (path name : Text)
  | fromNative (path : Text) (names : List Text)
  /-- A name bound to a module of scripts. -/
  | bindModule (name target : Text)
  /-- Names bound to those of a module of scripts. -/
  | bindNames (names : List Text) (target : Text)

namespace Stmt

/-- Whether a statement opens a block. -/
def isHeader : Stmt → Bool
  | branch .. | otherwise | loop .. | define .. | default _ | scope _ => true
  | _ => false

/-- A parameter as it is declared. -/
def parameter (stem : Text) : Text × Bool → Text
  | (name, true) => name ++ ascii "=" ++ Expr.render stem .missing
  | (name, false) => name

/-- A statement as text. -/
def render (stem : Text) : Stmt → Text
  | verbatim t => t
  | eval e => e.render stem
  | mark line => lineMark (some line)
  | bind name value => name ++ ascii " = " ++ value.render stem
  | output n value => variableName stem n ++ ascii " = " ++ value.render stem
  | append e => commandsName stem ++ ascii ".append(" ++ e.render stem ++ ascii ")"
  | extend e => commandsName stem ++ ascii ".extend(" ++ e.render stem ++ ascii ")"
  | extendBody body =>
    commandsName stem ++ ascii ".extend(" ++ body.render stem ++ ascii ".commands)"
  | pass => ascii "pass"
  | control keyword none => keyword
  | control keyword (some operand) => keyword ++ ascii " " ++ operand.render stem
  | branch keyword condition => keyword ++ ascii " " ++ condition.render stem ++ ascii ":"
  | otherwise => ascii "else:"
  | loop target iterable =>
    ascii "for " ++ target.render stem ++ ascii " in " ++ iterable.render stem ++ ascii ":"
  | define name parameters =>
    ascii "def " ++ name ++ ascii "(" ++
      Text.commaSeparated (parameters.map (parameter stem)) ++ ascii "):"
  | default name => ascii "if " ++ name ++ ascii " is " ++ Expr.render stem .missing ++ ascii ":"
  | scope n =>
    ascii "with " ++ runtimeName stem ++ ascii ".scope() as " ++ variableName stem n ++ ascii ":"
  | importNative path => ascii "import " ++ path
  | importNativeAs path name => ascii "import " ++ path ++ ascii " as " ++ name
  | fromNative path names =>
    ascii "from " ++ path ++ ascii " import " ++ Text.commaSeparated names
  | bindModule name target =>
    name ++ ascii " = " ++ Expr.render stem (.apply .importModule [.literal (.str target)]) ++
      ascii ".namespace"
  | bindNames names target =>
    Text.commaSeparated names ++ ascii ", = " ++
      Expr.render stem (.apply .fromModuleImport
        (.literal (.str target) :: names.map fun name => .literal (.str name)))

end Stmt

/-- A statement at a depth of indentation. -/
structure Line where
  depth : Nat
  stmt : Stmt

namespace Line

/-- The blanks before a line. -/
def indentation (width depth : Nat) : Text := List.replicate (depth * width) 0x20

/-- A line as text. It may span several lines of the text. -/
def render (stem : Text) (width : Nat) (line : Line) : Text :=
  indentation width line.depth ++ line.stmt.render stem

/-- The line one level deeper. -/
def indent (line : Line) : Line := { line with depth := line.depth + 1 }

end Line

end ScriptSplice
