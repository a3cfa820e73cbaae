import ScriptSplice.Tree.Numeral
import ScriptSplice.Tree.Reader.Error
/-!
# The reading machine

A tree is read one byte at a time. The state has the place of the next
byte, the forms still open (`Frame`, the innermost first), and what is
being read (`Mode`). A byte acts in two moves: `settle` closes a token
that the byte does not continue, and `consume` uses the byte. At the end
of the text no token continues, and `finish` tells what is missing.

Since reading is a fold over the bytes, reading `a ++ b` is reading `b`
from where `a` led.
-/

namespace ScriptSplice

namespace Reader

/-! ## Classes of bytes -/

/-- The bytes that separate tokens: blanks and the comma. -/
def isSeparator (b : UInt8) : Bool := Byte.isSpace b || b == 0x2c

/-- The byte that starts a comment, which the end of the line ends. -/
def semicolon : UInt8 := 0x3b

/-- A letter or one of `_ - * ? !`. -/
def isWordStart (b : UInt8) : Bool :=
  Byte.isAlpha b || b == Byte.underscore || b == 0x2d || b == 0x2a || b == 0x3f || b == 0x21

/-- What a word continues with: those, digits, the point and the slash. -/
def isWordByte (b : UInt8) : Bool := isWordStart b || Byte.isDigit b || b == 0x2e || b == 0x2f

/-! ## Numbers in the making -/

/-- How far the token of a number has come. -/
inductive NumberPart where
  | sign
  | whole
  | fraction
  | exponentLetter
  | exponentDigits
deriving DecidableEq

/-- The part of a number that a byte leads to, if it continues the token. -/
def NumberPart.next (part : NumberPart) (b : UInt8) : Option NumberPart :=
  match part with
  | sign => if Byte.isDigit b then some whole else if b == 0x2e then some fraction else none
  | whole =>
    if Byte.isDigit b then some whole
    else if b == 0x2e then some fraction
    else if Numeral.isExponentLetter b then some exponentLetter else none
  | fraction =>
    if Byte.isDigit b then some fraction
    else if Numeral.isExponentLetter b then some exponentLetter else none
  | exponentLetter =>
    if Byte.isDigit b || b == 0x2b || b == 0x2d then some exponentDigits else none
  | exponentDigits => if Byte.isDigit b then some exponentDigits else none

/-! ## States -/

/-- A form whose fields are being read; the field read last is first. -/
structure OpenForm where
  head : Text
  kind : Kind
  location : Location
  fields : List (Field Node)

/-- The form with one field more. -/
def OpenForm.add (form : OpenForm) (name : Text) (value : Value Node) : OpenForm :=
  { form with fields := ⟨name, value⟩ :: form.fields }

/-- The finished form. -/
def OpenForm.node (form : OpenForm) : Node := ⟨form.kind, form.fields.reverse, form.location⟩

/-- A field of an open form that waits for the form being read inside it:
its single child, or the next of its children. The child read last is
first. -/
inductive Frame where
  | child (form : OpenForm) (name : Text)
  | element (form : OpenForm) (name : Text) (elements : List (Option Node))

/-- What is being read. Tokens in the making are kept with their last
byte first. -/
inductive Mode where
  /-- Before the one form of the text. -/
  | start
  /-- After an opening parenthesis, before the kind. -/
  | head (location : Location)
  /-- Inside the kind. -/
  | kind (location : Location) (word : Text)
  /-- Between the fields of a form. -/
  | fields (form : OpenForm)
  /-- Inside the name of a field. -/
  | name (form : OpenForm) (name : Text)
  /-- Before the value of a field. -/
  | value (form : OpenForm) (name : Text)
  /-- Between the elements of a sequence. -/
  | sequence (form : OpenForm) (name : Text) (elements : List (Option Node))
  /-- Inside a string. -/
  | string (form : OpenForm) (name : Text) (text : Text)
  /-- After a backslash inside a string. -/
  | escape (form : OpenForm) (name : Text) (text : Text)
  /-- Inside a number. -/
  | number (form : OpenForm) (name : Text) (token : Text) (part : NumberPart)
  /-- Inside a word that is a value. -/
  | word (form : OpenForm) (name : Text) (word : Text)
  /-- After the form. -/
  | done (node : Node)
  | failed (error : Error)

/-- The modes in which separators and comments are passed over. -/
def Mode.isBetween : Mode → Bool
  | start | head _ | fields _ | value .. | sequence .. | done _ => true
  | _ => false

/-- The state of the machine. -/
structure State where
  /-- The place of the next byte. -/
  place : Location
  /-- Whether a comment is being passed over. -/
  comment : Bool
  frames : List Frame
  mode : Mode

/-- Before the first byte. -/
def State.initial : State := ⟨⟨1, 1⟩, false, [], .start⟩

/-- The place after a byte: only a newline starts a new line. -/
def advance (place : Location) (b : UInt8) : Location :=
  if b == Byte.newline then ⟨place.line + 1, 1⟩ else ⟨place.line, place.col + 1⟩

/-! ## Closing tokens -/

/-- The leaf a word stands for. -/
def wordLeaf? (word : Text) : Option Leaf :=
  if word = ascii "nil" then some .nil
  else if word = ascii "true" then some (.bool true)
  else if word = ascii "false" then some (.bool false)
  else none

/-- A word that is a value, closed at `place`. -/
def closeWord (place : Location) (form : OpenForm) (name word : Text) : Mode :=
  match wordLeaf? word with
  | some l => .fields (form.add name (.leaf l))
  | none => .failed ⟨.unexpectedWord word, place⟩

/-- A number, closed at `place`. A minus sign alone is a word, and a plus
sign alone is nothing that a value starts with. -/
def closeNumber (place : Location) (form : OpenForm) (name token : Text) : Mode :=
  if token = ascii "-" then closeWord place form name token
  else if token = ascii "+" then .failed ⟨.unexpectedByte 0x2b, ⟨place.line, place.col - 1⟩⟩
  else match Numeral.leaf? token with
    | some l => .fields (form.add name (.leaf l))
    | none => .failed ⟨.invalidNumber token, place⟩

/-- Whether the next byte, if there is one, is in a class. -/
def continues (next : Option UInt8) (p : UInt8 → Bool) : Bool := next.any p

/-- **Closing a token.** A token that the next byte does not continue is
closed at `place`; without a next byte, every token is. -/
def settle (place : Location) (next : Option UInt8) : Mode → Mode
  | .kind location word =>
    if continues next isWordByte then .kind location word
    else
      let head := word.reverse
      match Kind.ofName? head with
      | some k => .fields ⟨head, k, location, []⟩
      | none => .failed ⟨.unknownKind head, place⟩
  | .name form name =>
    if continues next isWordByte then .name form name
    else if name.isEmpty then .failed ⟨.emptyFieldName form.head, place⟩
    else .value form name.reverse
  | .number form name token part =>
    if continues next fun b => (part.next b).isSome then .number form name token part
    else if part = .sign ∧ token = [0x2d] ∧ continues next isWordByte then .word form name token
    else closeNumber place form name token.reverse
  | .word form name word =>
    if continues next isWordByte then .word form name word
    else closeWord place form name word.reverse
  | mode => mode

/-! ## Using a byte -/

/-- The byte that an escape stands for. -/
def unescape (b : UInt8) : UInt8 :=
  if b == 0x6e then 0x0a else if b == 0x72 then 0x0d else if b == 0x74 then 0x09 else b

/-- A finished node goes into the field that waits for it. -/
def attach (node : Node) : List Frame → List Frame × Mode
  | [] => ([], .done node)
  | .child form name :: frames => (frames, .fields (form.add name (.child (some node))))
  | .element form name elements :: frames =>
    (frames, .sequence form name (some node :: elements))

/-- The first byte of a value. -/
def startValue (located : Bool) (place : Location) (form : OpenForm) (name : Text)
    (frames : List Frame) (b : UInt8) : List Frame × Mode :=
  if b == 0x28 then (.child form name :: frames, .head (if located then place else .unknown))
  else if b == 0x5b then (frames, .sequence form name [])
  else if b == Byte.doubleQuote then (frames, .string form name [])
  else if Byte.isDigit b then (frames, .number form name [b] .whole)
  else if b == 0x2b || b == 0x2d then (frames, .number form name [b] .sign)
  else if isWordStart b then (frames, .word form name [b])
  else (frames, .failed ⟨.unexpectedByte b, place⟩)

/-- **Using a byte** at `place`, in a mode that has been settled. -/
def consume (located : Bool) (place : Location) (frames : List Frame) (b : UInt8) :
    Mode → List Frame × Mode
  | .start =>
    if b == 0x28 then (frames, .head (if located then place else .unknown))
    else (frames, .failed ⟨.expectedForm, advance place b⟩)
  | .head location =>
    if isWordByte b then (frames, .kind location [b])
    else (frames, .failed ⟨.expectedKind, place⟩)
  | .kind location word => (frames, .kind location (b :: word))
  | .fields form =>
    if b == 0x29 then attach form.node frames
    else if b == 0x3a then (frames, .name form [])
    else (frames, .failed ⟨.expectedField form.head, advance place b⟩)
  | .name form name => (frames, .name form (b :: name))
  | .value form name => startValue located place form name frames b
  | .sequence form name elements =>
    if b == 0x5d then (frames, .fields (form.add name (.children elements.reverse)))
    else if b == 0x28 then
      (.element form name elements :: frames, .head (if located then place else .unknown))
    else (frames, .failed ⟨.expectedElement, place⟩)
  | .string form name text =>
    if b == Byte.doubleQuote then (frames, .fields (form.add name (.leaf (.str text.reverse))))
    else if b == Byte.backslash then (frames, .escape form name text)
    else (frames, .string form name (b :: text))
  | .escape form name text => (frames, .string form name (unescape b :: text))
  | .number form name token part =>
    (frames, .number form name (b :: token) ((part.next b).getD part))
  | .word form name word => (frames, .word form name (b :: word))
  | .done _ => (frames, .failed ⟨.trailingText, place⟩)
  | .failed e => (frames, .failed e)

/-- **One byte.** Inside a comment it is passed over; otherwise tokens are
closed, separators and comments between tokens are passed over, and any
other byte is used. -/
def step (located : Bool) (s : State) (b : UInt8) : State :=
  let place := advance s.place b
  if s.comment then { s with place, comment := b != Byte.newline }
  else
    let mode := settle s.place (some b) s.mode
    if mode.isBetween && isSeparator b then { s with place, mode }
    else if mode.isBetween && b == semicolon then { s with place, mode, comment := true }
    else
      let (frames, mode) := consume located s.place s.frames b mode
      { s with place, frames, mode }

/-- What a text that ends at `place` comes to. -/
def finish (place : Location) : Mode → Except Error Node
  | .start => .error ⟨.expectedForm, place⟩
  | .head _ => .error ⟨.expectedKind, place⟩
  | .fields form => .error ⟨.unterminatedForm form.head, place⟩
  | .sequence .. => .error ⟨.unterminatedSequence, place⟩
  | .string .. => .error ⟨.unterminatedString, place⟩
  | .escape .. => .error ⟨.badEscape, place⟩
  | .done node => .ok node
  | .failed e => .error e
  -- a value is missing, or a token that `settle` would have closed
  | .value .. | .kind .. | .name .. | .number .. | .word .. => .error ⟨.unexpectedEnd, place⟩

end Reader

end ScriptSplice
