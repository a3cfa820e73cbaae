import ScriptSplice.Compile.Event
import ScriptSplice.Program.Source
/-!
# Programs under construction

A draft is the state of one compilation: the lines written so far, the
depth the next one goes to, the nodes the program refers to, the helpers
it uses, how many variables it has, and what was recorded. The actions on
drafts are those of `Drafting`; none of them can fail.
-/

namespace ScriptSplice

/-- A program under construction. -/
structure Draft where
  depth : Nat
  lines : List Line
  /-- The nodes the program refers to by their place in this list. -/
  refs : List (Option Node)
  /-- The helpers in use, in the order of first use. -/
  helpers : List Helper
  /-- The number of variables handed out. The counter they are named from
  has 32 bits (`Draft.counter`); until it starts over it has this number. -/
  fresh : Nat
  events : List Event

/-- Nothing written. -/
def Draft.empty : Draft := ⟨0, [], [], [], 0, []⟩

namespace Draft

variable (d : Draft)

/-- The number of lines. -/
def size : Nat := d.lines.length

/-- The program as it is. -/
def program : Program := ⟨d.helpers, d.lines⟩

/-- The counter that numbers variables. It has 32 bits, and starts over
after the last of its numbers. -/
def counter : UInt32 := .ofNat d.fresh

/-- The name that is handed out for a variable, by how many there were
before. -/
def handedName (stem : Text) (before : Nat) : Text :=
  variableName stem (UInt32.ofNat before).toNat

end Draft

/-- An action on a draft. -/
abbrev Drafting := StateM Draft

namespace Drafting

/-! ## Writing lines -/

/-- Writes a statement at the present depth. -/
def emit (s : Stmt) : Drafting Unit :=
  modify fun d => { d with lines := d.lines ++ [⟨d.depth, s⟩] }

/-- Goes one level deeper, and gives the depth to come back to. -/
def enter : Drafting Nat := fun d => (d.depth, { d with depth := d.depth + 1 })

/-- Comes back to a depth. -/
def leave (depth : Nat) : Drafting Unit := modify fun d => { d with depth }

/-- Writes the mark of a place, if it is known. -/
def mark (place : Location) : Drafting Unit :=
  match place.line? with
  | some line => emit (.mark line)
  | none => pure ()

/-! ## References, variables and helpers -/

/-- A reference to a node, added to the table. -/
def ref (n : Option Node) : Drafting Expr :=
  fun d => (.ref d.refs.length, { d with refs := d.refs ++ [n] })

/-- A reference to a run of nodes, added to the table. -/
def slice (ns : List (Option Node)) : Drafting Expr :=
  fun d => (.slice d.refs.length (d.refs.length + ns.length), { d with refs := d.refs ++ ns })

/-- A variable not handed out before. -/
def freshVariable : Drafting Nat := fun d => (d.fresh, { d with fresh := d.fresh + 1 })

/-- Notes that a helper is in use. -/
def use (h : Helper) : Drafting Unit :=
  modify fun d => if h ∈ d.helpers then d else { d with helpers := d.helpers ++ [h] }

/-- A call of a helper. -/
def apply (h : Helper) (args : List Expr) : Drafting Expr := do
  use h
  return .apply h args

/-- What stands for an argument that was not given. -/
def missing : Drafting Expr := do
  use .missing
  return .missing

/-- The sequence of some items. -/
def children (items : List Expr) : Drafting Expr := apply .children [.list items]

/-- A node with some fields replaced. -/
def replace (node : Expr) (fields : List (Text × Expr)) : Drafting Expr :=
  apply .replace (node :: fields.map fun f => .keyword f.1 f.2)

/-! ## Rearranging lines

Lines are named by their place, counted from zero. -/

/-- Takes away the lines from a place on, and gives them. -/
def takeFrom (i : Nat) : Drafting (List Line) :=
  fun d => (d.lines.drop i, { d with lines := d.lines.take i })

/-- Puts lines at the end. -/
def appendLines (lines : List Line) : Drafting Unit :=
  modify fun d => { d with lines := d.lines ++ lines }

/-- Moves the lines from a place on one level deeper. -/
def indentFrom (i : Nat) : Drafting Unit :=
  modify fun d => { d with lines := d.lines.take i ++ (d.lines.drop i).map Line.indent }

/-- Puts a line before the one at a place. -/
def insertLine (i : Nat) (line : Line) : Drafting Unit :=
  modify fun d => { d with lines := d.lines.take i ++ line :: d.lines.drop i }

/-! ## Recording -/

/-- Records an event. -/
def note (e : Event) : Drafting Unit := modify fun d => { d with events := d.events ++ [e] }

end Drafting

end ScriptSplice
