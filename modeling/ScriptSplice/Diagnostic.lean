import ScriptSplice.Text.Json
import ScriptSplice.Tree.Node
/-!
# Diagnostics

What a failed compilation tells its user: a code, a message, a hint and a
place. The same diagnostic is written for people and as JSON.
-/

namespace ScriptSplice

/-- The families of failures, one code each. -/
inductive ErrorCode where
  /-- A position has too few or too many fragments. -/
  | arity
  | missingRule
  | malformedImport
  | unknownArgumentType
deriving DecidableEq, Repr

/-- The code as it is written. -/
def ErrorCode.text : ErrorCode → Text
  | arity => ascii "E2001"
  | missingRule => ascii "E2002"
  | malformedImport => ascii "E2003"
  | unknownArgumentType => ascii "E2004"

/-- The code that is written so. -/
def ErrorCode.ofText? (t : Text) : Option ErrorCode :=
  [arity, missingRule, malformedImport, unknownArgumentType].find? fun c => c.text = t

/-- What a user is told, whatever texts it is made of. -/
structure Notice where
  code : Text
  /-- All of the message, which is shown up to its first zero byte. -/
  fullMessage : Text
  hint : Text
  location : Location
deriving DecidableEq

namespace Notice

variable (n : Notice)

/-- The message as it is shown: a zero byte ends it. -/
def message : Text := n.fullMessage.untilNul

/-- The notice as one JSON object. -/
def json : Text :=
  ascii "\x7b\"success\":false,\"errors\":[\x7b\"code\":" ++ Text.json n.code ++
    ascii ",\"message\":" ++ Text.json n.message ++
    ascii ",\"hint\":" ++ Text.json n.hint ++
    ascii ",\"line\":" ++ Text.ofInt n.location.line ++
    ascii ",\"col\":" ++ Text.ofInt n.location.col ++ ascii "\x7d]\x7d"

end Notice

/-- One failure, told to the user. The hint may be empty. -/
structure Diagnostic where
  code : ErrorCode
  text : Text
  hint : Text
  location : Location
deriving DecidableEq

namespace Diagnostic

variable (d : Diagnostic)

/-- The line, for a place that is known. -/
def lineNote : Text :=
  if d.location.isUnknown then []
  else ascii " (line " ++ Text.ofInt d.location.line ++ ascii ")"

/-- The diagnostic as it is told: the message has the code, the text and
the line. -/
def notice : Notice :=
  ⟨d.code.text, d.code.text ++ ascii ": " ++ d.text ++ d.lineNote, d.hint, d.location⟩

/-- The message: code, text and line. A zero byte ends it. -/
def message : Text := d.notice.message

/-- The diagnostic as one JSON object. -/
def json : Text := d.notice.json

end Diagnostic

end ScriptSplice
