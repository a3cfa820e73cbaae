import ScriptSplice.Text.Name
/-!
# Options and the environment

What a compilation can be asked to do differently, and the variables that
ask for it. A variable whose value makes no sense leaves its option at the
default.
-/

namespace ScriptSplice

/-- The options of a compilation. -/
structure Options where
  /-- What every generated name begins with. -/
  stem : Text
  /-- The blanks of one level of indentation. -/
  indent : Nat
  /-- Whether the program begins with a table of source lines. -/
  lineTable : Bool
  /-- Whether the choice of rules is reported. -/
  traceDispatch : Bool
  /-- Whether the collecting of children is reported. -/
  traceCompile : Bool
deriving DecidableEq

/-- The options when nothing is asked for. -/
def Options.standard : Options where
  stem := ascii "_bolt"
  indent := 4
  lineTable := true
  traceDispatch := false
  traceCompile := false

/-- The variables that are set, with their values. -/
abbrev Environment := List (Text × Text)

namespace Environment

variable (env : Environment)

/-- The value of a variable. -/
def value? (name : Text) : Option Text := (env.find? fun v => v.1 == name).map (·.2)

/-- The first byte of a variable's value. -/
def firstByte? (name : Text) : Option UInt8 := (env.value? name).bind List.head?

/-- A variable is on when its value begins with `1` or with the letter of
"true" or "yes". -/
def isOn (name : Text) : Bool :=
  (env.firstByte? name).any fun b => (ascii "1tTyY").contains b

/-- A variable is off when its value begins with `0` or with the letter of
"no" or "false". -/
def isOff (name : Text) : Bool :=
  (env.firstByte? name).any fun b => (ascii "0nNfF").contains b

/-- The widths of indentation that can be asked for. -/
def isWidth (i : Int) : Bool := 1 ≤ i && i ≤ 16

/-- The width of indentation a value asks for: nothing but an integer, and
one in range. -/
def width? (value : Text) : Option Nat :=
  match Text.leadingInt value with
  | some (i, []) => if isWidth i then some i.toNat else none
  | _ => none

/-- The options an environment asks for. Every generated name begins with
the stem, so it has to be an identifier. -/
def options : Options where
  stem := ((env.value? (ascii "BOLT_PREFIX")).filter Text.isIdentifier).getD Options.standard.stem
  indent := ((env.value? (ascii "BOLT_INDENT_WIDTH")).bind width?).getD Options.standard.indent
  lineTable := !env.isOff (ascii "BOLT_LINE_TABLE")
  traceDispatch := env.isOn (ascii "BOLT_DEBUG_DISPATCH")
  traceCompile := env.isOn (ascii "BOLT_DEBUG_CODEGEN")

/-- Whether a failed compilation is reported as JSON too. -/
def reportsJson : Bool := env.isOn (ascii "BOLT_DIAG_JSON")

end Environment

end ScriptSplice
