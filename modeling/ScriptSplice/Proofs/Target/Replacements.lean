import Mathlib.Algebra.Order.Group.Multiset
import ScriptSplice.Program.Stmt
import ScriptSplice.Tree.Node
/-!
# What a program replaces

A program makes a copy of a node with some fields replaced by a call whose
first argument refers to the node and whose other arguments are given by
the names of the fields. The replacements of an expression or a statement
are counted, not ordered: each as often as there is a call for it.
-/

namespace ScriptSplice

/-- A node of the tree, and the names of the fields replaced in a copy of
it. -/
structure Replacement where
  node : Option Node
  names : List Text

namespace Expr

variable (table : List (Option Node))

/-- The node that an expression refers to. -/
def referent? : Expr → Option Node
  | ref i => table[i]?.join
  | _ => none

/-- The name that an argument is given by. -/
def keyword? : Expr → Option Text
  | keyword name _ => some name
  | _ => none

/-- What a call of a helper replaces. -/
def replacedBy (args : List Expr) : Helper → Multiset Replacement
  | .replace => {⟨args.head?.bind (referent? table), args.filterMap keyword?⟩}
  | _ => 0

mutual

/-- The replacements of an expression. -/
def replacements : Expr → Multiset Replacement
  | verbatim _ => 0
  | adjoin parts => replacementsAll parts
  | ref _ => 0
  | slice _ _ => 0
  | var _ => 0
  | missing => 0
  | commands => 0
  | apply h args => replacementsAll args + replacedBy table args h
  | keyword _ value => replacements value
  | bracketed _ e => replacements e
  | literal _ => 0
  | binary left _ right => replacements left + replacements right
  | unary _ operand => replacements operand
  | format _ values => replacementsAll values
  | tuple items => replacementsAll items
  | list items => replacementsAll items
  | dict items => replacementsAll items
  | entry key value => replacements key + replacements value
  | lookup base args => replacements base + replacementsAll args
  | call base args => replacements base + replacementsAll args

/-- Those of some expressions. -/
def replacementsAll : List Expr → Multiset Replacement
  | [] => 0
  | e :: es => replacements e + replacementsAll es

end

variable (es fs : List Expr)

@[simp] theorem replacementsAll_nil : replacementsAll table [] = 0 := rfl

@[simp] theorem replacementsAll_cons (e : Expr) :
    replacementsAll table (e :: es) = e.replacements table + replacementsAll table es := rfl

@[simp] theorem replacementsAll_append :
    replacementsAll table (es ++ fs) = replacementsAll table es + replacementsAll table fs := by
  induction es with
  | nil => simp
  | cons e es ih => simp [ih, add_assoc]

/-- The names of fields replace nothing. -/
@[simp] theorem replacementsAll_keyword (changes : List (Text × Expr)) :
    replacementsAll table (changes.map fun f => .keyword f.1 f.2) =
      replacementsAll table (changes.map (·.2)) := by
  induction changes with
  | nil => rfl
  | cons f changes ih => simp [ih, replacements]

theorem filterMap_keyword (changes : List (Text × Expr)) :
    (changes.map fun f => Expr.keyword f.1 f.2).filterMap keyword? = changes.map (·.1) := by
  induction changes with
  | nil => rfl
  | cons f changes ih => simpa [keyword?] using ih

/-- **A call that replaces fields** adds one replacement to those of the
new values. -/
theorem replacements_replace {i : Nat} {node : Option Node} (h : table[i]? = some node)
    (changes : List (Text × Expr)) :
    (Expr.apply .replace (.ref i :: changes.map fun f => .keyword f.1 f.2)).replacements table =
      replacementsAll table (changes.map (·.2)) + {⟨node, changes.map (·.1)⟩} := by
  have hnames : (Expr.ref i :: changes.map fun f => Expr.keyword f.1 f.2).filterMap keyword? =
      changes.map (·.1) := filterMap_keyword changes
  rw [replacements, replacedBy, hnames, replacementsAll_cons, replacementsAll_keyword]
  simp [replacements, referent?, h]

end Expr

/-- The replacements of a statement. -/
def Stmt.replacements (table : List (Option Node)) : Stmt → Multiset Replacement
  | eval e => e.replacements table
  | bind _ value => value.replacements table
  | output _ value => value.replacements table
  | append e => e.replacements table
  | extend e => e.replacements table
  | extendBody body => body.replacements table
  | control _ operand => Expr.replacementsAll table operand.toList
  | branch _ condition => condition.replacements table
  | loop target iterable => target.replacements table + iterable.replacements table
  | _ => 0

namespace Line

variable (table : List (Option Node))

/-- The replacements of some lines. -/
def replacements (ls : List Line) : Multiset Replacement :=
  (ls.map fun l => l.stmt.replacements table).sum

variable (ls ms : List Line)

@[simp] theorem replacements_nil : replacements table [] = 0 := rfl

@[simp] theorem replacements_cons (l : Line) :
    replacements table (l :: ls) = l.stmt.replacements table + replacements table ls :=
  List.sum_cons

@[simp] theorem replacements_append :
    replacements table (ls ++ ms) = replacements table ls + replacements table ms := by
  simp [replacements]

/-- How deep lines are does not matter. -/
@[simp] theorem replacements_map_indent :
    replacements table (ls.map indent) = replacements table ls := by
  simp [replacements, Function.comp_def, indent]

end Line

end ScriptSplice
