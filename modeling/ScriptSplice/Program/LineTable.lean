import ScriptSplice.Text.Basic
/-!
# Marks and the line table

The text of a program is written with the marks of source lines between
its own lines. Before it is handed out the marks and the blank lines are
taken away, and what the marks said is kept in a table of pairs: from
this line of the program on, the source line is that one. The first pair
says that line 1 comes from line 1.
-/

namespace ScriptSplice

/-- A line that begins with `#` is a mark. -/
def isMark (line : Text) : Bool := line.head? == some Byte.hash

/-- The source line a mark gives, a number of 32 bits, and zero if it gives
none. -/
def markValue (line : Text) : Int := Text.leadingWord (line.drop 1)

/-- A line with nothing but blanks and tabs. -/
def isBlank (line : Text) : Bool := line.all fun b => b == 0x20 || b == 0x09

/-- What has been made of the lines so far, the last ones first. -/
structure Assembly where
  /-- The lines that stay. -/
  kept : List Text
  /-- The table: a line of the program, counted from zero with the table
  itself as line zero, and its source line. -/
  table : List (Nat × Int)
  /-- Whether there was a mark. -/
  marked : Bool

namespace Assembly

/-- Before the first line. -/
def initial : Assembly := ⟨[], [(1, 1)], false⟩

/-- Takes in one line. A mark that says what the table says already adds
nothing to it. -/
def step (a : Assembly) (line : Text) : Assembly :=
  if isMark line then
    let value := markValue line
    let table :=
      if (a.table.head?.map (·.2)) == some value then a.table
      else (a.kept.length + 1, value) :: a.table
    { a with table, marked := true }
  else if isBlank line then a
  else { a with kept := line :: a.kept }

/-- What becomes of some lines. -/
def ofLines (lines : List Text) : Assembly := lines.foldl step initial

/-- A column of the table, as a list of the target language. -/
def column (entries : List Int) : Text :=
  ascii "[" ++ Text.commaSeparated (entries.map Text.ofInt) ++ ascii "]"

/-- The line that defines the table under a name. -/
def tableLine (a : Assembly) (name : Text) : Text :=
  let rows := a.table.reverse
  name ++ ascii " = " ++ column (rows.map fun r => (r.1 : Int)) ++ ascii ", " ++
    column (rows.map (·.2))

end Assembly

end ScriptSplice
