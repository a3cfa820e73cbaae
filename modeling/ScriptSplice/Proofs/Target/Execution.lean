import ScriptSplice.Program.Helper
import ScriptSplice.Proofs.Target.Term
import ScriptSplice.Tree.Node
/-!
# Executing the target language

Programs are executed line by line. Outside a program stand the table of
the nodes it refers to and the runtime, which has the helpers and the
commands collected so far; the converters are arbitrary functions of the
expression and the node. A scope makes a list of commands of its own and
binds it to a name; the block under it begins with the next line, which
has to be further in, and ends before the first one that is further out.
The commands collected so far are those of the innermost block that is
open.
-/

namespace ScriptSplice

/-- What stands outside a program. -/
structure Runtime where
  /-- What the names of the table and the runtime begin with. -/
  stem : Text
  /-- The table of nodes. -/
  refs : List (Option Node)
  /-- What a converter makes of an expression, in place of a node. -/
  convert : Text → Term → Node → Node

/-- Values of the target language. -/
inductive Datum where
  /-- A node, or none. -/
  | node (n : Option Node)
  /-- A list of nodes that is not changed any more. -/
  | nodes (ns : List (Option Node))
  /-- A sequence of children. -/
  | sequence (ns : List (Option Node))
  /-- A list of commands, by its place among the lists. -/
  | commands (a : Nat)
  | table
  | runtime
  | helpers
  /-- A helper, by its key. -/
  | helper (key : Text)
  | text (t : Text)
  | number (n : Nat)

/-- The state of an execution. -/
structure State where
  names : Text → Option Datum
  /-- All lists of commands made so far. -/
  lists : List (List (Option Node))
  /-- The blocks that are open, innermost first: the column of each and its
  list of commands. -/
  blocks : List (Nat × Nat)
  /-- The list of commands of a block that begins with the next line. -/
  header : Option Nat

namespace State

variable (σ : State)

/-- The column of the next line, unless it ends or begins a block. -/
def column : Nat := (σ.blocks.head?.map (·.1)).getD 0

/-- The commands collected so far: those of the innermost block, or the
ones outside all blocks. -/
def innermost : Nat := (σ.blocks.head?.map (·.2)).getD 0

/-- Ends the blocks that are further in than a column. -/
def closed (k : Nat) : State := { σ with blocks := σ.blocks.dropWhile fun b => k < b.1 }

/-- The state that a line at a column is executed in: in the block that
begins with the line, or in the one that it goes on. -/
def resume (k : Nat) : Option State :=
  match σ.header with
  | some a =>
    if σ.column < k then some { σ with blocks := (k, a) :: σ.blocks, header := none } else none
  | none => if (σ.closed k).column = k then some (σ.closed k) else none

/-- Binds a name. -/
def bind (x : Text) (v : Datum) : State :=
  { σ with names := fun y => if y = x then some v else σ.names y }

/-- Adds commands to a list. -/
def add (a : Nat) (ns : List (Option Node)) : State :=
  { σ with lists := σ.lists.modify a (· ++ ns) }

/-- Makes a list of commands, binds it, and expects its block. -/
def enter (x : Text) : State :=
  { (σ.bind x (.commands σ.lists.length)) with
    lists := σ.lists ++ [[]]
    header := some σ.lists.length }

end State

/-- A node with some fields replaced, each of which it has to have. -/
def Node.override (n : Node) (changes : List (Text × Value Node)) : Option Node :=
  if (changes.map (·.1)).Nodup ∧ ∀ c ∈ changes, c.1 ∈ n.fields.map (·.name) then
    some { n with
      fields := n.fields.map fun f => ⟨f.name, (changes.lookup f.name).getD f.value⟩ }
  else none

namespace Datum

/-- What a value is as the value of a field. -/
def field? : Datum → Option (Value Node)
  | node n => some (.child n)
  | sequence ns => some (.children ns)
  | _ => none

/-- What a value is as an item of a list. -/
def node? : Datum → Option (Option Node)
  | node n => some n
  | _ => none

end Datum

namespace Runtime

variable (R : Runtime) (σ : State)

/-- An attribute of a value. -/
def attributeOf : Datum → Text → Option Datum
  | .runtime, f =>
    if f = ascii "helpers" then some .helpers
    else if f = ascii "commands" then some (.commands σ.innermost)
    else none
  | _, _ => none

/-- An item of a value. -/
def item : Datum → Datum → Option Datum
  | .table, .number i => R.refs[i]?.map .node
  | .helpers, .text key => some (.helper key)
  | _, _ => none

/-- A slice of a value, the second end excluded. -/
def slice : Datum → Datum → Datum → Option Datum
  | .table, .number i, .number j => some (.nodes ((R.refs.drop i).take (j - i)))
  | _, _, _ => none

/-- The fields that a call of `replace` names. -/
def changes (args : List Term) (values : List (Option Datum)) : Option (List (Text × Value Node)) :=
  (args.zip values).mapM fun
    | (.keyword f _, some v) => v.field?.map fun v => (f, v)
    | _ => none

/-- A call of a helper. A converter is given its first argument as an
expression. -/
def call (key : Text) (args : List Term) (values : List (Option Datum)) : Option Datum :=
  if key = ascii "replace" then
    match args, values with
    | _ :: args, some (.node (some n)) :: values => do
      return .node (← n.override (← changes args values))
    | _, _ => none
  else if key = ascii "children" then
    match values with
    | [some (.nodes ns)] => some (.sequence ns)
    | [some (.commands a)] => σ.lists[a]?.map .sequence
    | _ => none
  else
    match (ascii "interpolate_").isPrefixOf? key, args, values with
    | some converter, [e, _], [_, some (.node (some n))] =>
      some (.node (some (R.convert converter e n)))
    | _, _, _ => none

mutual

/-- **The value of an expression.** -/
def eval : Term → Option Datum
  | .name x => σ.names x
  | .text t => some (.text t)
  | .number n => some (.number n)
  | .attribute e f => do attributeOf σ (← eval e) f
  | .item e i => do R.item (← eval e) (← eval i)
  | .slice e i j => do R.slice (← eval e) (← eval i) (← eval j)
  | .list es => do return .nodes (← (evalAll es).mapM fun v => v.bind Datum.node?)
  | .call f args => do
    match ← eval f with
    | .helper key => R.call σ key args (evalAll args)
    | _ => none
  | .keyword _ e => eval e

/-- The values of some expressions. -/
def evalAll : List Term → List (Option Datum)
  | [] => []
  | e :: es => eval e :: evalAll es

end

/-- **One statement.** -/
def perform : Statement → Option State
  | .pass => some σ
  | .assign x e => do return σ.bind x (← R.eval σ e)
  | .eval (.call (.attribute l method) [e]) => do
    match method == ascii "append", method == ascii "extend", ← R.eval σ l, ← R.eval σ e with
    | true, _, .commands a, .node n => some (σ.add a [n])
    | _, true, .commands a, .nodes ns => some (σ.add a ns)
    | _, _, _, _ => none
  | .scope (.call (.attribute e method) []) x => do
    match method == ascii "scope", ← R.eval σ e with
    | true, .runtime => some (σ.enter x)
    | _, _ => none
  | _ => none

/-- One statement at a column. -/
def step (k : Nat) (s : Statement) : Option State := do R.perform (← σ.resume k) s

/-- One line. -/
def line (t : Text) : Option State := do
  let (k, s) ← readLine t
  R.step σ k s

/-- Before the first line. -/
def start : State where
  names x :=
    if x = refsName R.stem then some .table
    else if x = runtimeName R.stem then some .runtime
    else none
  lists := [[]]
  blocks := []
  header := none

/-- Some lines, one after the other. -/
def run (lines : List Text) (σ : State) : Option State := lines.foldlM R.line σ

/-- **Executing a program.** -/
def execute (program : Text) : Option State := do
  let σ ← R.run (Text.lines program) R.start
  if σ.header.isSome then none else return σ

end Runtime

end ScriptSplice
