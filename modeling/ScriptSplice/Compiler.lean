import ScriptSplice.Rules.Recipe
import ScriptSplice.Rules.Standard
/-!
# The compiler

A compiler has options, rules and argument parsers, and compiles trees one
by one: each gets a draft of its own. A tree that stays as it is needs no
program. Any other becomes a program that binds the new tree to a
variable, together with the nodes it refers to.
-/

namespace ScriptSplice

/-- What trees are compiled by. Its rules have handlers, or name in another
way what is to be done. -/
structure Compiler (α : Type := Handler) where
  options : Options
  parsers : Parsers
  rules : RuleSet α

/-- A compiled tree: the text of the program and the variable it binds,
unless the tree stays as it is, and the nodes referred to. -/
structure Compiled where
  program : Option (Text × Text)
  refs : List (Option Node)

/-- Makes a program of what a whole tree compiled to. It binds a variable to
the one fragment; there is none if the tree stays as it is. -/
def Compile.finish {m : Type → Type} [Monad m] [MonadExceptOf Failure m] [MonadLiftT Drafting m]
    (root : Node) : Result → m (Option Nat)
  | none => do
    Drafting.note (.static (← (get : Drafting Draft)).refs.length)
    return none
  | some [e] => do
    let n ← Drafting.freshVariable
    Drafting.emit (.output n e)
    Drafting.note (.bound n (← (get : Drafting Draft)).refs.length)
    return some n
  | some fragments => failAt root (.rootFragments fragments.length)

namespace Compiler

section

variable {α : Type} (c : Compiler α)

/-- Adds the rules of a rule set, which win over those there are. -/
def extend (rules : RuleSet α) : Compiler α := { c with rules := c.rules.extend rules }

/-- Adds an argument parser. -/
def addParser (parser : Text) : Compiler α := { c with parsers := parser :: c.parsers }

/-- The draft of a compiled tree, written out. -/
def present (draft : Draft) (outcome : Option Nat) : Compiled :=
  ⟨outcome.map fun n => (draft.program.source c.options, variableName c.options.stem n), draft.refs⟩

/-- What is told of a compilation: the compiled tree or what went wrong, and
the report that the options ask for. -/
def conclude (outcome : Except Compile.Failure (Option Nat)) (draft : Draft) :
    Except Diagnostic Compiled × Text :=
  ((outcome.mapError Compile.Failure.diagnostic).map (c.present draft),
    Event.report c.options draft.events)

end

/-- A compiler with nothing added. -/
def standard (options : Options) : Compiler :=
  ⟨options, standardParsers, RuleSet.empty.addAll standardRules⟩

variable (c : Compiler)

/-- How a compiler handles nodes. -/
def dispatcher : Dispatcher Compile Handler Compile.Result where
  rules := pure c.rules
  missing n := Compile.fail (.noRule n.kind)
  chosen n r := Drafting.note (.chosen n.kind r.name)
  act handler n fields := handler c.parsers n fields

/-- A node, and the work of compiling it. -/
def part (n : Node) : Compile.Part := c.dispatcher.job n

@[simp] theorem node_part (n : Node) : (c.part n).node = n := c.dispatcher.node_job n

@[simp] theorem fields_part (n : Node) : (c.part n).fields = Fields.map c.part n.fields :=
  c.dispatcher.fields_job n

/-- **The equation of compiling.** -/
theorem run_part (n : Node) :
    (c.part n).run = c.dispatcher.dispatch n (Fields.map c.part n.fields) :=
  c.dispatcher.run_job n

/-- The work of compiling a whole tree. It gives the variable that the
program binds, unless the tree stays as it is. -/
def compileRoot (root : Node) : Compile (Option Nat) := do
  Compile.finish root (← (c.part root).run)

/-- The outcome of compiling a tree, and the draft it leaves. -/
def run (root : Node) : Except Compile.Failure (Option Nat) × Draft :=
  ((c.compileRoot root).run).run .empty

/-- **Compiling a tree.** -/
def compile (root : Node) : Except Diagnostic Compiled × Text :=
  let (outcome, draft) := c.run root
  c.conclude outcome draft

end Compiler

end ScriptSplice
