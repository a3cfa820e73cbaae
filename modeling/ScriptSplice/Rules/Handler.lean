import ScriptSplice.Compile.Children
/-!
# Handlers

A handler is what a rule of the compiler does with a node. It is told
which argument parsers have a converter, and is given the node and the
work of compiling its parts. The work can be in any monad that has drafts,
failures and blocks. Handlers that have the rules in their hands, too, are
those of a visitor (`Visitor.Handler`).
-/

namespace ScriptSplice

/-- The argument parsers that have a converter. -/
abbrev Parsers := List Text

/-- What a rule does with a node. -/
abbrev Handler (m : Type → Type := Compile) :=
  Parsers → Node → Fields (Compile.Part m) → m Compile.Result

namespace Handler

variable {m : Type → Type} {ν : Type}

/-- An argument of a command. -/
def argument (fields : Fields ν) (i : Nat) : Option ν :=
  ((Fields.children fields (ascii "arguments"))[i]?).join

@[simp] theorem argument_map {μ : Type} (f : μ → ν) (fields : Fields μ) (i : Nat) :
    argument (Fields.map f fields) i = (argument fields i).map f := by
  simp only [argument, Fields.children_map, List.getElem?_map]
  rcases (Fields.children fields (ascii "arguments"))[i]? with _ | _ | _ <;> rfl

/-- The rule for the nodes of a kind. -/
def forKind (kind : Kind) (name : String) (handler : Handler m) : Rule (Handler m) :=
  ⟨some kind, [], handler, ascii name, false⟩

/-- The field that says which command a command is. -/
def identifierField : Text := ascii "identifier"

/-- The rule for a command. -/
def forCommand (identifier name : String) (handler : Handler m) : Rule (Handler m) :=
  ⟨some .command, [⟨identifierField, .str (ascii identifier)⟩], handler, ascii name, false⟩

/-- The rule for nodes of any kind. -/
def forAny (name : String) (handler : Handler m) : Rule (Handler m) :=
  ⟨none, [], handler, ascii name, false⟩

end Handler

end ScriptSplice
