import ScriptSplice.Dispatch.Traversal
import ScriptSplice.Options
import ScriptSplice.Program.Helper
/-!
# What a compilation reports

A compilation records what it does as it goes. The record is the same
whatever the options; they only say which part of it is shown.
-/

namespace ScriptSplice

/-- What a changed sequence of children becomes. -/
inductive Collection where
  /-- A sequence that is an expression. -/
  | generic
  /-- Commands, added to those collected so far. -/
  | command
  /-- Commands, collected in a scope of their own. -/
  | rootCommand
deriving DecidableEq

/-- The name of a collection in reports. -/
def Collection.name : Collection → Text
  | generic => ascii "generic"
  | command => ascii "command"
  | rootCommand => ascii "root-command"

/-- Something worth a line of the report. -/
inductive Event where
  /-- A rule was chosen for a node. -/
  | chosen (kind : Kind) (rule : Text)
  /-- The first changed child of a sequence was found. -/
  | collecting (collection : Collection) (line child count : Nat)
  /-- Lines were put into the scope of a variable. -/
  | enclosed (n : Nat) (lines : Nat)
  /-- A tree turned out to need no program. -/
  | static (refs : Nat)
  /-- The outcome of a program was bound to a variable. -/
  | bound (n : Nat) (refs : Nat)
deriving DecidableEq

namespace Event

/-- Whether an event is shown. -/
def isShown (o : Options) : Event → Bool
  | chosen .. => o.traceDispatch
  | _ => o.traceCompile

/-- An event as a line of the report. A zero byte ends a name. -/
def render (stem : Text) : Event → Text
  | chosen kind rule => choiceNote kind rule
  | collecting collection line child count =>
    ascii "[dbg][codegen] " ++ collection.name ++ ascii " collector at line " ++ Text.ofNat line ++
      ascii " (child " ++ Text.ofNat child ++ ascii " of " ++ Text.ofNat count ++ ascii ")\n"
  | enclosed n lines =>
    ascii "[dbg][codegen] root scope " ++ Text.untilNul (variableName stem n) ++ ascii " wraps " ++
      Text.ofNat lines ++ ascii " lines\n"
  | static refs => ascii "[dbg][codegen] tree is static, " ++ Text.ofNat refs ++ ascii " refs\n"
  | bound n refs =>
    ascii "[dbg][codegen] bound " ++ Text.untilNul (variableName stem n) ++ ascii ", " ++
      Text.ofNat refs ++ ascii " refs\n"

/-- The report of some events, as far as the options want it. -/
def report (o : Options) (events : List Event) : Text :=
  (events.filter (isShown o)).flatMap (render o.stem)

end Event

end ScriptSplice
