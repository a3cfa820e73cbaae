import ScriptSplice.Text.Basic
/-!
# JSON strings

The one JSON form the compiler writes besides fixed text. Quote,
backslash and control bytes are escaped; every other byte stands for
itself.
-/

namespace ScriptSplice

namespace Text

/-- How one byte is written inside a JSON string. -/
def jsonByte (b : UInt8) : Text :=
  if b == Byte.doubleQuote || b == Byte.backslash then [Byte.backslash, b]
  else if b == 0x08 then ascii "\\b"
  else if b == 0x0c then ascii "\\f"
  else if b == 0x0a then ascii "\\n"
  else if b == 0x0d then ascii "\\r"
  else if b == 0x09 then ascii "\\t"
  else if Byte.isControl b then ascii "\\u00" ++ Byte.hex b
  else [b]

/-- A text as a JSON string, quotes included. -/
def json (t : Text) : Text := [Byte.doubleQuote] ++ t.flatMap jsonByte ++ [Byte.doubleQuote]

end Text

end ScriptSplice
