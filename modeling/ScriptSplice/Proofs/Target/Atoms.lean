import ScriptSplice.Program.Stmt
/-!
# What programs are made of

Down to its atoms a program is references, variables and the texts that a
tree lends it: words, which are written as they stand, and texts that are
quoted. The atoms of an expression or a statement are listed in the order
of its text. Whatever a program refers to, it refers to by an atom
(`Atom.Denotes`).
-/

namespace ScriptSplice

/-- An atom of a program. -/
inductive Atom where
  | ref (i : Nat)
  | slice (start stop : Nat)
  | var (n : Nat)
  /-- A text that is written as it stands. -/
  | word (t : Text)
  /-- A text that becomes a string literal. -/
  | quoted (t : Text)
deriving DecidableEq

/-- An atom refers to the node at a place of the table. -/
def Atom.Denotes (i : Nat) : Atom → Prop
  | ref j => i = j
  | slice start stop => start ≤ i ∧ i < stop
  | _ => False

/-- The text that a leaf has to quote. -/
def Leaf.quotes : Leaf → List Text
  | str t => [t]
  | _ => []

namespace Expr

mutual

/-- The atoms of an expression. -/
def atoms : Expr → List Atom
  | verbatim t => [.word t]
  | adjoin parts => atomsAll parts
  | ref i => [.ref i]
  | slice start stop => [.slice start stop]
  | var n => [.var n]
  | missing => []
  | commands => []
  | apply _ args => atomsAll args
  | keyword name value => .word name :: atoms value
  | bracketed _ e => atoms e
  | literal l => l.quotes.map .quoted
  | binary left operator right => atoms left ++ .word operator :: atoms right
  | unary operator operand => .word operator :: atoms operand
  | format template values => .quoted template :: atomsAll values
  | tuple items => atomsAll items
  | list items => atomsAll items
  | dict items => atomsAll items
  | entry key value => atoms key ++ atoms value
  | lookup base args => atoms base ++ atomsAll args
  | call base args => atoms base ++ atomsAll args

/-- The atoms of some expressions. -/
def atomsAll : List Expr → List Atom
  | [] => []
  | e :: es => atoms e ++ atomsAll es

end

@[simp, grind =] theorem atomsAll_nil : atomsAll [] = [] := rfl

@[simp, grind =] theorem atomsAll_cons (e : Expr) (es : List Expr) :
    atomsAll (e :: es) = e.atoms ++ atomsAll es := rfl

theorem atomsAll_eq (es : List Expr) : atomsAll es = es.flatMap atoms := by
  induction es with
  | nil => rfl
  | cons e es ih => rw [atomsAll, ih, List.flatMap_cons]

@[simp, grind =] theorem atomsAll_append (es fs : List Expr) :
    atomsAll (es ++ fs) = atomsAll es ++ atomsAll fs := by
  simp only [atomsAll_eq, List.flatMap_append]

end Expr

namespace Stmt

/-- The atoms of a statement. -/
def atoms : Stmt → List Atom
  | verbatim t => [.word t]
  | eval e => e.atoms
  | mark _ => []
  | bind name value => .word name :: value.atoms
  | output n value => .var n :: value.atoms
  | append e => e.atoms
  | extend e => e.atoms
  | extendBody body => body.atoms
  | pass => []
  | control keyword operand => .word keyword :: operand.toList.flatMap Expr.atoms
  | branch keyword condition => .word keyword :: condition.atoms
  | otherwise => []
  | loop target iterable => target.atoms ++ iterable.atoms
  | define name parameters => .word name :: parameters.map fun p => .word p.1
  | default name => [.word name]
  | scope n => [.var n]
  | importNative path => [.word path]
  | importNativeAs path name => [.word path, .word name]
  | fromNative path names => .word path :: names.map .word
  | bindModule name target => [.word name, .quoted target]
  | bindNames names target => names.map .word ++ .quoted target :: names.map .quoted

end Stmt

namespace Line

/-- The atoms of some lines. -/
def atoms (ls : List Line) : List Atom := ls.flatMap fun l => l.stmt.atoms

variable (ls ms : List Line)

@[simp] theorem atoms_nil : atoms [] = [] := rfl

@[simp] theorem atoms_cons (l : Line) : atoms (l :: ls) = l.stmt.atoms ++ atoms ls := rfl

@[simp] theorem atoms_append : atoms (ls ++ ms) = atoms ls ++ atoms ms := List.flatMap_append

/-- How deep lines are does not matter. -/
@[simp] theorem atoms_map_indent : atoms (ls.map indent) = atoms ls := List.flatMap_map ..

end Line

end ScriptSplice
