import ScriptSplice.Compile.Draft
/-!
# Collecting children

Once a child of a sequence is known to change, a collector puts the new
sequence together. It is told of the children in order, in runs that stay
as they are and of the fragments that take a child's place. A generic
collector makes an expression of them all. A command collector writes
statements that add to the commands collected so far, and a root
collector puts those statements into a scope of their own.
-/

namespace ScriptSplice

/-- A sequence of children being put together. -/
structure Collector where
  collection : Collection
  /-- The line where the code of the sequence begins. -/
  start : Nat
  /-- What a generic collector has so far. -/
  items : List Expr

namespace Collector

/-- Collects nothing yet. -/
def new (collection : Collection) (start : Nat) : Collector := ⟨collection, start, []⟩

/-- Writes the statement that adds a run of unchanged children to the
commands: none for no child, and a slice for more than one. -/
def emitRun : List (Option Node) → Drafting Unit
  | [] => pure ()
  | [n] => do Drafting.emit (.append (← Drafting.ref n))
  | ns => do Drafting.emit (.extend (← Drafting.slice ns))

/-- Takes in a run of unchanged children. -/
def addStatic (c : Collector) (run : List (Option Node)) : Drafting Collector := do
  match c.collection with
  | .generic =>
    let refs ← run.mapM Drafting.ref
    return { c with items := c.items ++ refs }
  | .command | .rootCommand =>
    emitRun run
    return c

/-- Takes in the fragments of a changed child. -/
def addDynamic (c : Collector) (fragments : List Expr) : Drafting Collector := do
  match c.collection with
  | .generic => return { c with items := c.items ++ fragments }
  | .command | .rootCommand =>
    fragments.forM fun e => Drafting.emit (.append e)
    return c

/-- A block must not be empty, even if every child came to nothing. -/
def fillEmpty (c : Collector) : Drafting Unit := do
  if (← get).size = c.start then Drafting.emit .pass

/-- Puts the lines of the collector into the scope of a fresh variable. -/
def enclose (c : Collector) : Drafting Nat := do
  let n ← Drafting.freshVariable
  Drafting.indentFrom c.start
  Drafting.insertLine c.start ⟨(← get).depth, .scope n⟩
  Drafting.note (.enclosed n ((← get).size - c.start - 1))
  return n

/-- The finished sequence. -/
def flush (c : Collector) : Drafting Expr := do
  match c.collection with
  | .generic => Drafting.children c.items
  | .command =>
    c.fillEmpty
    return .commands
  | .rootCommand =>
    c.fillEmpty
    let n ← c.enclose
    Drafting.apply .children [.var n]

end Collector

end ScriptSplice
