import ScriptSplice.Tree.Node
/-!
# Why a text is not a tree

A refusal names its cause and the place the reader had come to: before
the byte it could not use, or after it where the cause lies in a byte that
had to come and did not.
-/

namespace ScriptSplice

namespace Reader

/-- What the reader found wrong. -/
inductive Cause where
  /-- Something other than a form where one has to stand. -/
  | expectedForm
  | expectedKind
  | unknownKind (word : Text)
  /-- Something other than a field inside the form with this head. -/
  | expectedField (head : Text)
  | emptyFieldName (head : Text)
  | unexpectedEnd
  | unexpectedByte (b : UInt8)
  | unexpectedWord (word : Text)
  | invalidNumber (token : Text)
  | unterminatedString
  | badEscape
  | expectedElement
  | unterminatedSequence
  | unterminatedForm (head : Text)
  | trailingText
deriving DecidableEq

/-- A refusal: its cause and its place. -/
structure Error where
  cause : Cause
  place : Location
deriving DecidableEq

/-- The wording of a cause. -/
def Cause.message : Cause → Text
  | expectedForm => ascii "expected ("
  | expectedKind => ascii "expected node kind"
  | unknownKind word => ascii "unknown node kind '" ++ word ++ ascii "'"
  | expectedField head => ascii "expected :field in " ++ head
  | emptyFieldName head => ascii "empty field name in " ++ head
  | unexpectedEnd => ascii "unexpected end of input"
  | unexpectedByte b => ascii "unexpected character '" ++ [b] ++ ascii "'"
  | unexpectedWord word => ascii "unexpected word '" ++ word ++ ascii "'"
  | invalidNumber token => ascii "invalid number '" ++ token ++ ascii "'"
  | unterminatedString => ascii "unterminated string"
  | badEscape => ascii "bad escape"
  | expectedElement => ascii "child sequences may only contain forms"
  | unterminatedSequence => ascii "unterminated child sequence"
  | unterminatedForm head => ascii "unterminated form " ++ head
  | trailingText => ascii "unexpected trailing characters"

/-- The message of a refusal. A zero byte ends it. -/
def Error.message (e : Error) : Text :=
  (ascii "line " ++ Text.ofInt e.place.line ++ ascii ":" ++ Text.ofInt e.place.col ++ ascii ": " ++
    e.cause.message).untilNul

end Reader

end ScriptSplice
