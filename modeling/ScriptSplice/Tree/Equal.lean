import ScriptSplice.Tree.Node
/-!
# Equality of trees

Two trees are equal when kinds, field names in order, the shapes of
values and the leaves agree, and, on request, the places too.
-/

namespace ScriptSplice

variable {ν : Type}

/-- Lists that agree item by item. -/
def agreeAll {α β : Type} (p : α → β → Bool) (xs : List α) (ys : List β) : Bool :=
  xs.length == ys.length && (xs.zip ys).all fun (x, y) => p x y

/-- Optional items that agree: both absent, or both there and agreeing. -/
def agreeOption {α β : Type} (p : α → β → Bool) : Option α → Option β → Bool
  | none, none => true
  | some x, some y => p x y
  | _, _ => false

/-- Values that agree, with `p` telling which nodes do. -/
def Value.agree {μ : Type} (p : ν → μ → Bool) : Value ν → Value μ → Bool
  | .leaf a, .leaf b => a.same b
  | .child a, .child b => agreeOption p a b
  | .children as, .children bs => agreeAll (agreeOption p) as bs
  | _, _ => false

/-- Fields that agree in name and value. -/
def Field.agree {μ : Type} (p : ν → μ → Bool) (f : Field ν) (g : Field μ) : Bool :=
  f.name == g.name && f.value.agree p g.value

namespace Node

/-- **Equality of trees**, the places compared if `located`. -/
def same (located : Bool) : Node → Node → Bool :=
  fold fun n fields m =>
    n.kind == m.kind && (!located || n.location == m.location) &&
      agreeAll (Field.agree fun p c => p c) fields m.fields

/-- Equality of trees that may be absent. -/
def sameOption (located : Bool) : Option Node → Option Node → Bool :=
  agreeOption (same located)

end Node

end ScriptSplice
