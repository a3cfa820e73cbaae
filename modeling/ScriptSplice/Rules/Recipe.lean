import ScriptSplice.Rules.Handler
/-!
# Recipes

A recipe is a handler given as data: steps that write statements, refer to
nodes, take variables, call helpers and compile the parts of the node,
each of which may push fragments. Whatever the steps are, a recipe only
adds to the draft.
-/

namespace ScriptSplice

/-- One step of a recipe. -/
inductive Step where
  /-- Writes a statement. -/
  | statement (t : Text)
  /-- Pushes a fragment. -/
  | fragment (t : Text)
  /-- Pushes a reference to the node between two texts. -/
  | ref (before after : Text)
  /-- Pushes a fresh variable. -/
  | var
  /-- Writes the mark of the node's line. -/
  | mark
  /-- Pushes a text in parentheses, behind the mark of the node's line. -/
  | bracket (t : Text)
  /-- Pushes a call of a helper. -/
  | apply (h : Helper) (args : List Text)
  /-- Pushes the operand under a name. -/
  | operand (name : Text) (isRequired : Bool)
  /-- Pushes the sequence of children under a name. -/
  | splice (name : Text) (collection : Collection)
  /-- Pushes the node rebuilt around the parts that change. -/
  | rebuild (collection : Collection)
  /-- Writes the commands of the node as a body. -/
  | body (collection : Collection)
  /-- Takes steps one level deeper. -/
  | block (steps : List Step)
  /-- Handles the node by no rules at all, which fails. -/
  | bare
  /-- Compiles every part, and forgets what it gave. -/
  | walk

/-- A handler given as data. -/
structure Recipe where
  steps : List Step
  /-- Whether the node stays as it is, whatever was pushed. -/
  unchanged : Bool

namespace Recipe

open Compile Drafting

variable (n : Node) (fields : Fields Part)

mutual

/-- Takes one step, and gives what it pushes. -/
def take : Step → Compile (List Expr)
  | .statement t => do
    emit (.verbatim t)
    return []
  | .fragment t => return [.verbatim t]
  | .ref before after => do
    return [.adjoin [.verbatim before, ← ref (some n), .verbatim after]]
  | .var => do return [.var (← freshVariable)]
  | .mark => do
    mark n.location
    return []
  | .bracket t => return [.bracketed n.location.line? (.verbatim t)]
  | .apply h args => do return [← apply h (args.map .verbatim)]
  | .operand name isRequired => do
    let p := Fields.child? fields name
    if isRequired then return [← required p]
    else return (← operand? p).toList
  | .splice name collection => do
    return (← splice collection (Fields.children fields name)).toList
  | .rebuild collection => do return (← rebuild collection n fields).toList
  | .body collection => do
    body collection n fields
    return []
  | .block steps => inBlock (takeAll steps)
  | .bare => fail (.noRule n.kind)
  | .walk => do
    Job.walk fields
    return []

/-- Takes steps in order, and gives what they push. -/
def takeAll : List Step → Compile (List Expr)
  | [] => return []
  | step :: steps => do
    let pushed ← take step
    return pushed ++ (← takeAll steps)

end

/-- The handler a recipe stands for. -/
def handler (r : Recipe) : Handler := fun _ n fields => do
  let fragments ← takeAll n fields r.steps
  return if r.unchanged then none else some fragments

end Recipe

end ScriptSplice
