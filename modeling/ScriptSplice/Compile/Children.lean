import ScriptSplice.Compile.Collector
import ScriptSplice.Compile.Failure
/-!
# Compiling the parts of a node

A node compiles to fragments, or to nothing if it stays as it is; then
the program uses the node itself. This file has what every rule does with
the parts of its node: an operand (`operand?`, `required`), a sequence of
children (`splice`), all fields (`rebuild`), and the body of a command
(`body`).
-/

namespace ScriptSplice

namespace Compile

/-- What a node compiles to: fragments that take its place, or nothing if
it stays as it is. -/
abbrev Result := Option (List Expr)

/-- A part of the node at hand, and the work of compiling it. -/
abbrev Part (m : Type → Type := Compile) := Job m Result

variable {m : Type → Type} [Monad m] [MonadExceptOf Failure m] [MonadLiftT Drafting m]

/-! ## Operands -/

/-- The one fragment of a part, or nothing if it stays as it is. -/
def single? (p : Part m) : m (Option Expr) := do
  match ← p.run with
  | none => return none
  | some [e] => return some e
  | some fragments => failAt p.node (.notSingle p.node.kind fragments.length)

/-- An operand that may be absent. -/
def operand? : Option (Part m) → m (Option Expr)
  | none => return none
  | some p => single? p

/-- An operand that has to be there. One that stays as it is is referred
to. -/
def required : Option (Part m) → m Expr
  | none => fail .missingOperand
  | some p => do
    match ← single? p with
    | some e => return e
    | none => Drafting.ref (some p.node)

/-! ## Sequences of children -/

/-- The state of splicing: the unchanged children since the last changed
one, the line their statement goes to, and the collector, once there is a
changed child. -/
structure Splice where
  pending : List (Option Node)
  place : Nat
  collector : Option Collector

/-- The collector, made when the first changed child is found. -/
def Splice.open (s : Splice) (collection : Collection) (i count : Nat) : Drafting Collector := do
  match s.collector with
  | some c => return c
  | none =>
    Drafting.note (.collecting collection s.place i count)
    return .new collection s.place

/-- The fragments of a changed child. What was pending goes in front of
the lines that compute them. -/
def Splice.add (s : Splice) (c : Collector) (fragments : List Expr) : Drafting Splice := do
  let lines ← Drafting.takeFrom s.place
  let c ← c.addStatic s.pending
  Drafting.appendLines lines
  let c ← c.addDynamic fragments
  return ⟨[], (← get).size, some c⟩

/-- One child of a sequence, with its number. An absent child stays. -/
def Splice.step (collection : Collection) (count : Nat) (s : Splice) :
    Option (Part m) × Nat → m Splice
  | (none, _) => return { s with pending := s.pending ++ [none] }
  | (some p, i) => do
    match ← p.run with
    | none => return { s with pending := s.pending ++ [some p.node] }
    | some fragments =>
      let c ← s.open collection i count
      s.add c fragments

/-- What becomes of the sequence when every child was seen. -/
def Splice.close (s : Splice) : Drafting (Option Expr) := do
  match s.collector with
  | none => return none
  | some c =>
    let c ← c.addStatic s.pending
    return some (← c.flush)

/-- **Splicing.** Compiles a sequence of children; nothing, if all stay as
they are. -/
def splice (collection : Collection) (parts : List (Option (Part m))) : m (Option Expr) := do
  let start : Splice := ⟨[], (← (get : Drafting Draft)).size, none⟩
  let s ← parts.zipIdx.foldlM (Splice.step collection parts.length) start
  s.close

/-! ## Fields and bodies -/

/-- The new value of a field, under its name, if it changes. -/
def changedField (collection : Collection) (f : Field (Part m)) : m (Option (Text × Expr)) := do
  match f.value with
  | .leaf _ => return none
  | .child c => return (← operand? c).map (f.name, ·)
  | .children cs => return (← splice collection cs).map (f.name, ·)

/-- **Rebuilding.** The node with the fields replaced that change; nothing,
if none does. -/
def rebuild (collection : Collection) (n : Node) (fields : Fields (Part m)) :
    m (Option Expr) := do
  let changes ← List.mapM (changedField collection) fields
  match changes.filterMap id with
  | [] => return none
  | changed => return some (← Drafting.replace (← Drafting.ref (some n)) changed)

/-- Writes the commands of a body. Those of a body that stays as it is are
added all at once. -/
def body (collection : Collection) (n : Node) (fields : Fields (Part m)) : m Unit := do
  match ← splice collection (Fields.children fields (ascii "commands")) with
  | some _ => return ()
  | none => Drafting.emit (.extendBody (← Drafting.ref (some n)))

/-- The body of a command, which has to be there. -/
def bodyOf : Option (Part m) → m Unit
  | none => fail .missingBody
  | some p => body .command p.node p.fields

end Compile

end ScriptSplice
