import ScriptSplice.Tree.Node
/-!
# Rules and rule sets

A rule says what to do with the nodes it applies to: those of its kind,
or of any kind, whose leaves meet its constraints. A rule set holds rules
in the order of rank, so that the first that applies is the one to use:

* rules of one kind before rules of any kind,
* more constraints before fewer,
* later rules before earlier ones.

A rule's number counts the rules up to it in the order they were added,
and `RuleSet.history` is that order. Nothing is ever removed.
-/

namespace ScriptSplice

/-- The demand that a field holds a given leaf. -/
structure Constraint where
  field : Text
  value : Leaf
deriving DecidableEq

/-- Whether a node meets the demand. -/
def Constraint.holds (c : Constraint) (n : Node) : Bool :=
  (n.leaf? c.field).any fun l => l.same c.value

/-- What to do (`action`) with which nodes. -/
structure Rule (α : Type) where
  /-- The kind of node, any kind if none is said. -/
  kind : Option Kind
  constraints : List Constraint
  action : α
  name : Text
  /-- Whether the rule came with its rule set and is not passed on. -/
  builtin : Bool

variable {α : Type}

namespace Rule

/-- Whether a node meets every demand of a list. -/
def allHold (constraints : List Constraint) (n : Node) : Bool := constraints.all (·.holds n)

/-- Whether a rule is for a node. -/
def applies (r : Rule α) (n : Node) : Bool :=
  r.kind.all (· == n.kind) && allHold r.constraints n

/-- A rule that another rule set takes over: all but the built-in ones
for any kind, of which every rule set has its own. -/
def isTransferable (r : Rule α) : Bool := !(r.builtin && r.kind.isNone)

end Rule

/-- A rule in a rule set, with its number. -/
structure RankedRule (α : Type) extends Rule α where
  number : Nat

namespace RankedRule

/-- The number of constraints. -/
def priority (r : RankedRule α) : Nat := r.constraints.length

/-- **Rank.** Of two rules, whether the first one comes first. -/
def outranks (r s : RankedRule α) : Bool :=
  if r.kind.isSome != s.kind.isSome then r.kind.isSome
  else if r.priority != s.priority then s.priority < r.priority
  else s.number < r.number

end RankedRule

/-- Rules in the order of rank. -/
structure RuleSet (α : Type) where
  ranked : List (RankedRule α)

namespace RuleSet

/-- No rules. -/
def empty : RuleSet α := ⟨[]⟩

/-- The number of rules. -/
def count (rules : RuleSet α) : Nat := rules.ranked.length

/-- Puts a rule behind all those that outrank it. -/
def insertRanked (r : RankedRule α) : List (RankedRule α) → List (RankedRule α)
  | [] => [r]
  | s :: rest => if s.outranks r then s :: insertRanked r rest else r :: s :: rest

/-- Adds a rule, the last one so far. -/
def add (rules : RuleSet α) (r : Rule α) : RuleSet α :=
  ⟨insertRanked { r with number := rules.count + 1 } rules.ranked⟩

/-- Adds rules in order. -/
def addAll (rules : RuleSet α) (rs : List (Rule α)) : RuleSet α := rs.foldl add rules

/-- Puts a rule behind those that were added before it. -/
def insertNumbered (r : RankedRule α) : List (RankedRule α) → List (RankedRule α)
  | [] => [r]
  | s :: rest => if s.number < r.number then s :: insertNumbered r rest else r :: s :: rest

/-- The rules in the order they were added. -/
def history (rules : RuleSet α) : List (Rule α) :=
  (rules.ranked.foldr insertNumbered []).map RankedRule.toRule

/-- **Composition.** The rules another rule set passes on, added in the
order they had there, so that they win over equals. -/
def extend (rules other : RuleSet α) : RuleSet α :=
  rules.addAll (other.history.filter Rule.isTransferable)

/-- Takes over the rules of several rule sets, one after another. None
stands for the rule set itself, as it is by then. -/
def extendAll (rules : RuleSet α) (others : List (Option (RuleSet α))) : RuleSet α :=
  others.foldl (fun rules other => rules.extend (other.getD rules)) rules

/-- **Resolution.** The first rule that applies to a node. -/
def resolve (rules : RuleSet α) (n : Node) : Option (RankedRule α) :=
  rules.ranked.find? fun r => r.toRule.applies n

end RuleSet

end ScriptSplice
