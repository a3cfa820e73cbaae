import ScriptSplice.Rules.Handler
/-!
# Rules for imports

A resource location with a namespace names a module of scripts, which the
runtime brings in; one without names a module of the target language. The
names of a from-import come as a chain of commands, each with one name
and, unless it is the last, the next link.
-/

namespace ScriptSplice

/-- What an import names. -/
structure ModulePath where
  /-- Empty for a module of the target language. -/
  namespaceName : Text
  path : Text
deriving DecidableEq

namespace ModulePath

variable (m : ModulePath)

/-- Whether a module of scripts is named. -/
def isScript : Bool := !m.namespaceName.isEmpty

/-- The module as the runtime names it. -/
def target : Text := m.namespaceName ++ ascii ":" ++ m.path

/-- The name a module of scripts is bound to: what follows the last slash
of its path. -/
def lastPart : Text := (m.path.reverse.takeWhile (· != 0x2f)).reverse

end ModulePath

namespace Handler

open Compile Drafting

variable {m : Type → Type} [Monad m] [MonadExceptOf Failure m] [MonadLiftT Drafting m]

/-- The module that a command imports. -/
def moduleOf (n : Node) : Except Failure ModulePath :=
  match argument n.fields 0 with
  | none => throw ⟨.notAModule, n.location⟩
  | some l =>
    if l.kind ≠ .resourceLocation then throw ⟨.notAModule, n.location⟩
    else
      let path := l.text (ascii "path")
      if path.isEmpty then throw ⟨.emptyModulePath, l.location⟩
      else pure ⟨l.text (ascii "namespace"), path⟩

/-- The name that an imported identifier gives; other nodes give none. -/
def importedName (n : Option Node) : Text :=
  match n with
  | some n => if n.kind = .importedIdentifier then n.text (ascii "value") else []
  | none => []

/-- Whether a link of a chain has another after it. -/
def continuesChain (link : Node) : Bool :=
  link.text identifierField == ascii "from:module:import:name:subcommand"

/-- The names of a chain from one link on. Links without a name are passed
over. -/
def chainNames : Node → Except Failure (List Text) :=
  Node.fold fun link fields =>
    if link.kind ≠ .command then throw ⟨.brokenChain, link.location⟩
    else do
      let name := importedName (argument link.fields 0)
      let rest ←
        if continuesChain link then (argument fields 1).getD (pure [])
        else pure []
      return if name.isEmpty then rest else name :: rest

/-- The names that a from-import brings in, at least one. -/
def importedNames (n : Node) : Except Failure (List Text) := do
  let names ← (argument n.fields 1).elim (pure []) chainNames
  if names.isEmpty then throw ⟨.noImportedName, n.location⟩ else pure names

/-- A module under its own name. -/
def importModule : Handler m := fun _ n _ => do
  let m ← liftExcept (moduleOf n)
  mark n.location
  if m.isScript then
    use .importModule
    emit (.bindModule m.lastPart m.target)
  else emit (.importNative m.path)
  return some []

/-- A module under another name. -/
def importAs : Handler m := fun _ n _ => do
  let m ← liftExcept (moduleOf n)
  let name := importedName (argument n.fields 1)
  if name.isEmpty then failAt n .missingAlias
  mark n.location
  if m.isScript then
    use .importModule
    emit (.bindModule name m.target)
  else emit (.importNativeAs m.path name)
  return some []

/-- Names of a module. -/
def fromImport : Handler m := fun _ n _ => do
  let m ← liftExcept (moduleOf n)
  let names ← liftExcept (importedNames n)
  mark n.location
  if m.isScript then
    use .fromModuleImport
    emit (.bindNames names m.target)
  else emit (.fromNative m.path names)
  return some []

/-- The rules for imports. -/
def importRules (m : Type → Type := Compile) [Monad m] [MonadExceptOf Failure m]
    [MonadLiftT Drafting m] : List (Rule (Handler m)) :=
  [ forCommand "import:module" "import" importModule,
    forCommand "import:module:as:alias" "import-as" importAs,
    forCommand "from:module:import:subcommand" "from-import" fromImport ]

end Handler

end ScriptSplice
