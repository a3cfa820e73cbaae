import ScriptSplice.Rules.Handler
/-!
# The rule for functions

The head of a function lists its parameters, and one that has a default
may be left out. A default is computed when the function is called, in a
block of its own at the start of the function; the body comes after these
blocks.
-/

namespace ScriptSplice

namespace Handler

open Compile Drafting

variable {m : Type → Type} [Monad m] [MonadExceptOf Failure m] [MonadLiftT Drafting m] [HasBlocks m]

/-- The name of a parameter. -/
def parameterName (p : Part m) : Text := p.node.text (ascii "name")

/-- The default of a parameter, if it has one. -/
def parameterDefault (p : Part m) : Option (Part m) := Fields.child? p.fields (ascii "default")

/-- How a parameter is declared. One with a default may be left out. -/
def declare (p : Part m) : Drafting (Text × Bool) := do
  if (parameterDefault p).isSome then
    use .missing
    return (parameterName p, true)
  else return (parameterName p, false)

/-- The block that makes up for an argument that was not given: its
default is computed each time the function is called. -/
def supplyDefault (p : Part m) : m Unit := do
  match parameterDefault p with
  | none => pure ()
  | some d =>
    emit (.default (parameterName p))
    inBlock do emit (.bind (parameterName p) (← required (some d)))

/-- The signature of a function, which has to be one. -/
def signatureOf (n : Node) (fields : Fields (Part m)) : m (Part m) :=
  match argument fields 0 with
  | some p => if p.node.kind = .functionSignature then pure p else failAt n .missingSignature
  | none => failAt n .missingSignature

/-- The parameters of a signature, in order. -/
def parametersOf (signature : Part m) : List (Part m) :=
  (Fields.children signature.fields (ascii "arguments")).filterMap id

/-- A function: its head, its defaults, and its body. -/
def function : Handler m := fun _ n fields => do
  let signature ← signatureOf n fields
  let parameters := parametersOf signature
  let declared ← (parameters.mapM declare : Drafting _)
  mark n.location
  emit (.define (signature.node.text (ascii "name")) declared)
  inBlock do
    parameters.forM supplyDefault
    bodyOf (argument fields 1)
  return some []

end Handler

end ScriptSplice
