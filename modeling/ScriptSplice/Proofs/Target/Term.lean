import ScriptSplice.Text.Name
/-!
# Reading the target language

The part of the target language that programs without statements of their
own are written in: names, numbers, plain strings, attributes, items,
slices, lists and calls; and of statements the assignment, the expression,
the scope and `pass`. A scanner goes through the text of an expression byte
by byte. It keeps what it has of the innermost brackets and, for those
around them, what opened them; so the text of an expression has the same
effect wherever it stands (`Reads`), and larger texts are read by reading
their pieces.
-/

namespace ScriptSplice

/-- Expressions as the target language reads them. Brackets that only group
are gone. -/
inductive Term where
  | name (x : Text)
  | text (t : Text)
  | number (n : Nat)
  | attribute (e : Term) (f : Text)
  | item (e i : Term)
  | slice (e i j : Term)
  | list (es : List Term)
  | call (f : Term) (args : List Term)
  /-- An argument that is given by name. -/
  | keyword (f : Text) (e : Term)
deriving Inhabited

/-- What names and numbers are made of. The bytes above those of ASCII are
taken for letters. -/
def Byte.isWord (b : UInt8) : Bool :=
  Byte.isAlphanumeric b || b == Byte.underscore || 0x80 ≤ b

/-- A name does not begin with a digit. -/
def Text.isName : Text → Bool
  | [] => false
  | b :: t => !Byte.isDigit b && Byte.isWord b && t.all Byte.isWord

/-- A word is a name or a number. -/
def Term.ofWord (w : Text) : Option Term :=
  if w.isName then some (.name w)
  else if w.all Byte.isDigit then some (.number w.digitsValue)
  else none

theorem Term.ofWord_of_isName {x : Text} (hx : x.isName = true) :
    Term.ofWord x = some (.name x) := by
  rw [ofWord, if_pos hx]

/-- Where the scanner is in an expression. -/
inductive Cursor where
  /-- Nothing has been read of it. -/
  | empty
  /-- In a word. -/
  | word (w : Text)
  /-- In the name of an attribute. -/
  | member (e : Term) (f : Text)
  /-- In a string. -/
  | quoted (t : Text)
  /-- Behind what may be the end of it. -/
  | ended (e : Term)

namespace Cursor

/-- The expression, if this can be its end. -/
def term? : Cursor → Option Term
  | word w => Term.ofWord w
  | member e f => if f.isName then some (.attribute e f) else none
  | ended e => some e
  | empty | quoted _ => none

/-- One byte more of a word. -/
def extend (b : UInt8) : Cursor → Option Cursor
  | empty => some (word [b])
  | word w => some (word (w ++ [b]))
  | member e f => some (member e (f ++ [b]))
  | quoted _ | ended _ => none

/-- Between words. -/
def rest : Cursor → Option Cursor
  | empty => some empty
  | c => c.term?.map ended

end Cursor

/-- What brackets are for. -/
inductive Opening where
  | group
  | list
  | call (f : Term)
  | item (e : Term)
  /-- The brackets of a slice, behind its colon. -/
  | slice (e i : Term)

/-- What becomes of brackets and what is in them. -/
def Opening.close : Opening → UInt8 → List Term → Option Term
  | group, 0x29, [e] => some e
  | call f, 0x29, args => some (.call f args)
  | list, 0x5d, es => some (.list es)
  | item e, 0x5d, [i] => some (.item e i)
  | slice e i, 0x5d, [j] => some (.slice e i j)
  | _, _, _ => none

/-- What has been read of an expression. -/
structure Scanner where
  cursor : Cursor
  /-- The name that the argument being read is given by. -/
  key : Option Text
  /-- The items before it, in the innermost brackets. -/
  done : List Term
  /-- The brackets around, innermost first, with the items before them. -/
  outer : List (Opening × Option Text × List Term)

namespace Scanner

/-- Before the first byte. -/
def start : Scanner := ⟨.empty, none, [], []⟩

variable (r : Scanner)

/-- The item being read. -/
def item? : Option Term :=
  r.cursor.term?.map fun e =>
    match r.key with
    | some f => .keyword f e
    | none => e

/-- All items of the innermost brackets, of which there may be none. -/
def items? : Option (List Term) :=
  match r with
  | ⟨.empty, none, [], _⟩ => some []
  | r => r.item?.map (r.done ++ [·])

/-- Goes into brackets. -/
def enter (o : Opening) : Scanner := ⟨.empty, none, [], (o, r.key, r.done) :: r.outer⟩

/-- Comes out of brackets. -/
def leave (b : UInt8) : Option Scanner :=
  match r.outer with
  | [] => none
  | (o, key, done) :: outer => do
    let e ← o.close b (← r.items?)
    return ⟨.ended e, key, done, outer⟩

/-- A bracket groups, or belongs to what is before it. -/
def bracket (alone : Opening) (behind : Term → Opening) : Option Scanner :=
  match r.cursor with
  | .empty => some (r.enter alone)
  | c => c.term?.map fun e => r.enter (behind e)

/-- A byte that is not part of a word or a string. -/
def mark : UInt8 → Option Scanner
  | 0x20 => r.cursor.rest.map fun c => { r with cursor := c }
  | 0x27 =>
    match r.cursor with
    | .empty => some { r with cursor := .quoted [] }
    | _ => none
  | 0x28 => r.bracket .group .call
  | 0x5b => r.bracket .list .item
  | 0x29 => r.leave 0x29
  | 0x5d => r.leave 0x5d
  | 0x2c =>
    match r.outer with
    | [] => none
    | _ => r.item?.map fun e => { r with cursor := .empty, key := none, done := r.done ++ [e] }
  | 0x2e => r.cursor.term?.map fun e => { r with cursor := .member e [] }
  | 0x3a =>
    match r.key, r.done, r.outer with
    | none, [], (.item e, key, done) :: outer =>
      r.cursor.term?.map fun i => ⟨.empty, none, [], (.slice e i, key, done) :: outer⟩
    | _, _, _ => none
  | 0x3d =>
    match r.cursor, r.key, r.outer with
    | .word f, none, (.call _, _) :: _ =>
      if f.isName then some { r with cursor := .empty, key := some f } else none
    | _, _, _ => none
  | _ => none

/-- One byte. A string ends at its quote, and has no escapes. -/
def step (r : Scanner) (b : UInt8) : Option Scanner :=
  match r.cursor with
  | .quoted t =>
    if b = Byte.quote then some { r with cursor := .ended (.text t) }
    else if b = Byte.backslash ∨ Byte.isControl b then none
    else some { r with cursor := .quoted (t ++ [b]) }
  | c =>
    if Byte.isWord b then (c.extend b).map fun c => { r with cursor := c }
    else r.mark b

/-- What a scanner has after a text. -/
def run (r : Scanner) (t : Text) : Option Scanner := t.foldlM step r

end Scanner

/-- **Reading an expression.** -/
def Term.read (t : Text) : Option Term :=
  match Scanner.start.run t with
  | some ⟨c, none, [], []⟩ => c.term?
  | _ => none

/-- Statements as the target language reads them. -/
inductive Statement where
  | pass
  | assign (x : Text) (e : Term)
  | eval (e : Term)
  /-- A block in a context that is bound to a name. -/
  | scope (e : Term) (x : Text)

namespace Statement

/-- A scope, behind its first word. It ends in a name and a colon, and the
name is behind the last word. -/
def readScope (t : Text) : Option Statement := do
  let rest ← (ascii ":").isPrefixOf? t.reverse
  let x : Text := (rest.takeWhile Byte.isWord).reverse
  let context ← (ascii " sa ").isPrefixOf? (rest.dropWhile Byte.isWord)
  let e ← Term.read context.reverse
  if x.isName then some (scope e x) else none

/-- An assignment or an expression. -/
def readSimple (t : Text) : Option Statement :=
  let x : Text := t.takeWhile Byte.isWord
  match (ascii " = ").isPrefixOf? (t.dropWhile Byte.isWord) with
  | some value => if x.isName then (Term.read value).map (assign x) else none
  | none => (Term.read t).map eval

/-- **Reading a statement.** -/
def read (t : Text) : Option Statement :=
  if t = ascii "pass" then some pass
  else
    match (ascii "with ").isPrefixOf? t with
    | some rest => readScope rest
    | none => readSimple t

end Statement

/-- **Reading a line**: its column, and its statement. -/
def readLine (t : Text) : Option (Nat × Statement) :=
  (Statement.read (t.dropWhile (· == 0x20))).map (Prod.mk (t.takeWhile (· == 0x20)).length)

end ScriptSplice
