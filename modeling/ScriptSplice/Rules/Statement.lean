import ScriptSplice.Rules.Function
/-!
# Rules for statements

A command that is a statement of the target language is written where it
stands, behind the mark of its line, and leaves no fragment. Operands are
compiled before the statement is written, since they may write statements
of their own, and bodies go into a block below it.
-/

namespace ScriptSplice

namespace Handler

open Compile Drafting

variable {m : Type → Type} [Monad m] [MonadExceptOf Failure m] [MonadLiftT Drafting m] [HasBlocks m]

/-- An expression on its own. One that stays as it is has no effect and is
left out. -/
def expressionStatement : Handler m := fun _ n fields => do
  match ← operand? (argument fields 0) with
  | some e =>
    mark n.location
    emit (.eval e)
  | none => pure ()
  return some []

/-- A keyword, with an operand if the command has one. -/
def control (keyword : String) : Handler m := fun _ n fields => do
  let operand ← match argument fields 0 with
    | none => pure none
    | some p => some <$> required (some p)
  mark n.location
  emit (.control (ascii keyword) operand)
  return some []

/-- A body under a condition. -/
def branch (keyword : String) : Handler m := fun _ n fields => do
  let condition ← required (argument fields 0)
  mark n.location
  emit (.branch (ascii keyword) condition)
  inBlock (bodyOf (argument fields 1))
  return some []

/-- The body when no condition held. -/
def otherwise : Handler m := fun _ n fields => do
  mark n.location
  emit .otherwise
  inBlock (bodyOf (argument fields 0))
  return some []

/-- A body for every item. -/
def loop : Handler m := fun _ n fields => do
  let target ← required (argument fields 0)
  let iterable ← required (argument fields 1)
  mark n.location
  emit (.loop target iterable)
  inBlock (bodyOf (argument fields 2))
  return some []

/-- The rules for statements. -/
def statementRules (m : Type → Type := Compile) [Monad m] [MonadExceptOf Failure m]
    [MonadLiftT Drafting m] [HasBlocks m] : List (Rule (Handler m)) :=
  [ forCommand "statement" "statement" expressionStatement,
    forCommand "def:function:body" "function" function,
    forCommand "return" "return" (control "return"),
    forCommand "return:value" "return" (control "return"),
    forCommand "yield" "yield" (control "yield"),
    forCommand "yield:value" "yield" (control "yield"),
    forCommand "yield:from:value" "yield-from" (control "yield from"),
    forCommand "if:condition:body" "if" (branch "if"),
    forCommand "elif:condition:body" "elif" (branch "elif"),
    forCommand "while:condition:body" "while" (branch "while"),
    forCommand "else:body" "else" otherwise,
    forCommand "for:target:in:iterable:body" "for" loop,
    forCommand "break" "break" (control "break"),
    forCommand "continue" "continue" (control "continue"),
    forCommand "pass" "pass" (control "pass") ]

end Handler

end ScriptSplice
