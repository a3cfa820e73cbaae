import ScriptSplice.Compiler
/-!
# Handlers with the visitor

A rule that is added to a compiler can do more than work on the parts of
its node. Its handler is given the visitor of the compilation: it can look
at the rules in force, add to them, and have any node handled by them.
What it adds counts from the next node on, and stays when the tree is
compiled. So the rules are part of the state of the work, and the rules of
a rule set name their handlers.

Such work need not end, since a handler can have its own node handled
again. It is followed to a depth of nodes handled inside each other.
-/

namespace ScriptSplice

namespace Visitor

/-- What a rule does: what a standard rule does, by its place among them,
or what an added rule does, by the name of its handler. -/
inductive Action (α : Type) where
  | standard (i : Fin (standardRules Compile).length)
  | added (a : α)

/-- The state of a compilation: what is written so far, and the rules in
force. -/
structure State (α : Type) where
  draft : Draft
  rules : RuleSet (Action α)

/-- Work that may fail. It has no outcome if it goes deeper than it is
followed. -/
abbrev Work (α : Type) := ExceptT Compile.Failure (StateT (State α) Option)

/-- What a handler does with a node, given how nodes are handled. -/
abbrev Handler (α : Type) := (Node → Work α Compile.Result) → Node → Work α Compile.Result

variable {α β : Type}

instance : MonadLift Drafting (StateT (State α) Option) where
  monadLift act s := some ((act s.draft).1, { s with draft := (act s.draft).2 })

/-! ## What a handler can do with the visitor -/

/-- The number of rules in force. -/
def count : Work α Nat := return (← get).rules.count

/-- The rule in force for a node, with its number. -/
def resolve (n : Node) : Work α (Option (RankedRule (Action α))) := return (← get).rules.resolve n

/-- The rule in force for a node. -/
def choice (n : Node) : Work α (Option (Rule (Action α))) :=
  return (← resolve n).map RankedRule.toRule

/-- Adds a rule. -/
def add (r : Rule (Action α)) : Work α Unit := modify fun s => { s with rules := s.rules.add r }

/-- Takes over the rules of several rule sets, one after another. None
stands for the rules in force. -/
def extendAll (others : List (Option (RuleSet (Action α)))) : Work α Unit :=
  modify fun s => { s with rules := s.rules.extendAll others }

/-- Works with a copy of the visitor. -/
def aside (act : Work α β) : Work α β := ExceptT.mk do
  let before ← get
  let result ← act.run
  modify fun s => { s with rules := before.rules }
  return result

/-! ## Compiling -/

/-- What the standard rule at a place does. -/
def standardHandler (m : Type → Type) [Monad m] [MonadExceptOf Compile.Failure m]
    [MonadLiftT Drafting m] [Compile.HasBlocks m] (i : Fin (standardRules Compile).length) :
    ScriptSplice.Handler m :=
  ((standardRules m).get ⟨i, i.isLt⟩).action

/-- The standard rules, by their places. -/
def standardRules (α : Type) : List (Rule (Action α)) :=
  List.ofFn fun i => { (ScriptSplice.standardRules Compile).get i with action := .standard i }

/-- A compiler with nothing added. -/
def standard (α : Type) (options : Options) (parsers : Parsers) : Compiler (Action α) :=
  ⟨options, parsers, RuleSet.empty.addAll (standardRules α)⟩

section

variable (handlers : α → Handler α) (parsers : Parsers)

/-- How a node is handled, given how others are. -/
def dispatcher (handle : Node → Work α Compile.Result) :
    Dispatcher (Work α) (Action α) Compile.Result where
  rules := return (← get).rules
  missing n := Compile.fail (.noRule n.kind)
  chosen n r := Drafting.note (.chosen n.kind r.name)
  act action n fields :=
    match action with
    | .standard i => standardHandler (Work α) i parsers n fields
    | .added a => handlers a handle n

/-- **Having a node handled**, followed to a depth. -/
def invoke : Nat → Node → Work α Compile.Result
  | 0, _ => fun _ => none
  | depth + 1, n => (dispatcher handlers parsers (invoke depth)).dispatch n
      (Fields.map (Job.of (invoke depth)) n.fields)

end

/-- **Compiling a tree**, followed to a depth. It gives the outcome, and the
compiler with the rules as they are by then. -/
def compile (handlers : α → Handler α) (depth : Nat) (c : Compiler (Action α)) (root : Node) :
    Option ((Except Diagnostic Compiled × Text) × Compiler (Action α)) := do
  let act : Work α (Option Nat) := do
    Compile.finish root (← invoke handlers c.parsers depth root)
  let (outcome, s) ← act.run.run ⟨.empty, c.rules⟩
  return (c.conclude outcome s.draft, { c with rules := s.rules })

/-- Compiling trees one after another. -/
def compileAll (handlers : α → Handler α) (depth : Nat) (c : Compiler (Action α)) :
    List Node → Option (List (Except Diagnostic Compiled × Text) × Compiler (Action α))
  | [] => some ([], c)
  | root :: roots => do
    let (outcome, c) ← compile handlers depth c root
    let (outcomes, c) ← compileAll handlers depth c roots
    return (outcome :: outcomes, c)

end Visitor

end ScriptSplice
