import ScriptSplice.Rules.Handler
/-!
# Rules for expressions

An expression becomes one fragment. Its operands are compiled in the
order of the source, and most fragments stand in parentheses together
with the mark of their line, so that the line breaks of the mark do not
end the statement.
-/

namespace ScriptSplice

namespace Handler

open Compile Drafting

variable {m : Type → Type} [Monad m] [MonadExceptOf Failure m] [MonadLiftT Drafting m]

/-- The operand under a name, which has to be there. -/
def operand (fields : Fields (Part m)) (name : String) : m Expr :=
  required (Fields.child? fields (ascii name))

/-- The operands of a sequence, in order. -/
def operands (fields : Fields (Part m)) (name : String) : m (List Expr) :=
  (Fields.children fields (ascii name)).mapM required

/-- The operator of a node. Operators of two words have an underscore
between them. -/
def operatorOf (n : Node) : Text :=
  (n.text (ascii "operator")).map fun b => if b = Byte.underscore then 0x20 else b

/-- One fragment, in parentheses behind the mark of the node's line. -/
def bracket (n : Node) (e : Expr) : m Result :=
  return some [.bracketed n.location.line? e]

/-- A value made into a node. -/
def interpolation : Handler m := fun _ n fields => do
  let value ← operand fields "value"
  let here ← ref (some n)
  bracket n (← apply (.interpolate (n.text (ascii "converter"))) [value, here])

/-- An interpolated argument. Its parser has to have a converter, which is
asked before anything is compiled. -/
def argumentInterpolation : Handler m := fun parsers n fields => do
  let parser := n.text (ascii "parser")
  if !parsers.contains parser then failAt n (.unknownParser parser)
  let value ← operand fields "value"
  let here ← ref (some n)
  let converted ← apply (.convert parser) [value, here]
  bracket n (← apply .setLocation [converted, here])

/-- Two operands around an operator. -/
def binary : Handler m := fun _ n fields => do
  let left ← operand fields "left"
  let right ← operand fields "right"
  bracket n (.binary left (operatorOf n) right)

/-- An operand behind an operator. -/
def unary : Handler m := fun _ n fields => do
  bracket n (.unary (operatorOf n) (← operand fields "value"))

/-- A leaf, the empty one if the node has none. -/
def value : Handler m := fun _ n _ =>
  return some [.literal ((n.leaf? (ascii "value")).getD .nil)]

/-- A name. -/
def identifier : Handler m := fun _ n _ => bracket n (.verbatim (n.text (ascii "value")))

/-- The target of an assignment, which takes no parentheses. -/
def targetIdentifier : Handler m := fun _ n _ =>
  return some [.verbatim (n.text (ascii "value"))]

/-- A format string, filled in. -/
def formatString : Handler m := fun _ n fields => do
  bracket n (.format (n.text (ascii "fmt")) (← operands fields "values"))

/-- A tuple, with a comma behind every item. -/
def tuple : Handler m := fun _ n fields => do
  bracket n (.tuple (← operands fields "items"))

/-- A list. -/
def list : Handler m := fun _ n fields => do
  bracket n (.list (← operands fields "items"))

/-- An entry of a dictionary. -/
def entry (item : Part m) : m Expr := do
  let key ← operand item.fields "key"
  let value ← operand item.fields "value"
  return .entry key value

/-- A dictionary. -/
def dict : Handler m := fun _ n fields => do
  let items := (Fields.children fields (ascii "items")).filterMap id
  bracket n (.dict (← items.mapM entry))

/-- An attribute of a value, which the runtime looks up. -/
def attributeOf : Handler m := fun _ n fields => do
  let value ← operand fields "value"
  bracket n (← apply .getAttribute [value, .literal (.str (n.text (ascii "name")))])

/-- An item of a value. The value is compiled before the arguments. -/
def lookup : Handler m := fun _ n fields => do
  let base ← operand fields "value"
  bracket n (.lookup base (← operands fields "arguments"))

/-- A call. The function is compiled before the arguments. -/
def call : Handler m := fun _ n fields => do
  let base ← operand fields "value"
  bracket n (.call base (← operands fields "arguments"))

/-- An assignment, which takes no parentheses. -/
def assignment : Handler m := fun _ n fields => do
  let target ← operand fields "target"
  let value ← operand fields "value"
  return some [.binary target (n.text (ascii "operator")) value]

/-- The rules for expressions. -/
def expressionRules (m : Type → Type := Compile) [Monad m] [MonadExceptOf Failure m]
    [MonadLiftT Drafting m] : List (Rule (Handler m)) :=
  [ forKind .interpolation "interpolation" interpolation,
    forKind .argumentInterpolation "argument-interpolation" argumentInterpolation,
    forKind .binary "binary" binary,
    forKind .unary "unary" unary,
    forKind .value "value" value,
    forKind .identifier "identifier" identifier,
    forKind .targetIdentifier "target-identifier" targetIdentifier,
    forKind .formatString "format-string" formatString,
    forKind .tuple "tuple" tuple,
    forKind .list "list" list,
    forKind .dict "dict" dict,
    forKind .attributeOf "attribute" attributeOf,
    forKind .lookup "lookup" lookup,
    forKind .call "call" call,
    forKind .assignment "assignment" assignment ]

end Handler

end ScriptSplice
