import ScriptSplice.Compile.Draft
import ScriptSplice.Diagnostic
/-!
# How a compilation fails

A failure is a cause and a place, and the first one ends the compilation.
What was written until then stays in the draft, and so does what was
recorded. The wording of each cause is here, in one place.
-/

namespace ScriptSplice

namespace Compile

/-- Why a tree cannot be compiled. -/
inductive Cause where
  /-- No rule is for a node of this kind. -/
  | noRule (kind : Kind)
  /-- A position that needs a node has none. -/
  | missingOperand
  /-- A node of this kind gave some number of fragments where one is
  needed. -/
  | notSingle (kind : Kind) (count : Nat)
  | missingBody
  | missingSignature
  /-- What is imported is not a resource location. -/
  | notAModule
  | emptyModulePath
  /-- A link of the chain of imported names is not a command. -/
  | brokenChain
  | noImportedName
  | missingAlias
  | unknownParser (parser : Text)
  /-- The whole tree gave some number of fragments. -/
  | rootFragments (count : Nat)
deriving DecidableEq

namespace Cause

/-- The family a cause belongs to. -/
def code : Cause → ErrorCode
  | noRule _ => .missingRule
  | missingOperand | notSingle .. | missingBody | missingSignature | rootFragments _ => .arity
  | notAModule | emptyModulePath | brokenChain | noImportedName | missingAlias => .malformedImport
  | unknownParser _ => .unknownArgumentType

/-- What is wrong. -/
def text : Cause → Text
  | noRule kind => ascii "no dispatch rule matches node kind '" ++ kind.name ++ ascii "'"
  | missingOperand => ascii "missing required child"
  | notSingle kind count =>
    ascii "expected single result for " ++ kind.name ++ ascii ", got " ++ Text.ofNat count
  | missingBody => ascii "missing command body"
  | missingSignature => ascii "function definition without a signature"
  | notAModule => ascii "import target is not a resource location"
  | emptyModulePath => ascii "import target has an empty path"
  | brokenChain => ascii "from-import expects a name subcommand"
  | noImportedName => ascii "from-import without any name"
  | missingAlias => ascii "import alias is missing"
  | unknownParser parser =>
    ascii "no conversion registered for argument type '" ++ parser ++ ascii "'"
  | rootFragments count =>
    ascii "root compiled to " ++ Text.ofNat count ++ ascii " fragments, expected one"

/-- What to do about it; nothing is said where the text says enough. -/
def hint : Cause → Text
  | noRule _ => ascii "register a rule or a fallback for this kind"
  | missingOperand => ascii "this position cannot be empty"
  | notSingle .. => ascii "expression positions take exactly one fragment"
  | brokenChain => ascii "the chain after 'import' must consist of name commands"
  | noImportedName => ascii "name at least one identifier after 'import'"
  | unknownParser _ => ascii "register the parser with Codegen::register_argument_parser"
  | missingBody | missingSignature | notAModule | emptyModulePath | missingAlias
  | rootFragments _ => []

end Cause

/-- A failed compilation: the cause and the place of it. -/
structure Failure where
  cause : Cause
  location : Location
deriving DecidableEq

/-- The failure as it is told to the user. -/
def Failure.diagnostic (f : Failure) : Diagnostic :=
  ⟨f.cause.code, f.cause.text, f.cause.hint, f.location⟩

end Compile

/-- An action on a draft that may fail. -/
abbrev Compile := ExceptT Compile.Failure Drafting

namespace Compile

section

variable {m : Type → Type} [MonadExceptOf Failure m] {α : Type}

/-- Fails at a node. -/
def failAt (n : Node) (cause : Cause) : m α := throw ⟨cause, n.location⟩

/-- Fails at no known place. -/
def fail (cause : Cause) : m α := throw ⟨cause, .unknown⟩

end

/-- Monads with blocks. -/
class HasBlocks (m : Type → Type) where
  /-- **A block.** Acts one level deeper, and comes back to the depth before
  whether the action fails or not. -/
  inBlock {α : Type} : m α → m α

export HasBlocks (inBlock)

instance {n : Type → Type} [Monad n] [MonadLiftT Drafting n] : HasBlocks (ExceptT Failure n) where
  inBlock act := ExceptT.mk do
    let depth ← Drafting.enter
    let result ← act.run
    Drafting.leave depth
    return result

end Compile

end ScriptSplice
