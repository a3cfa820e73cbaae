import ScriptSplice.Program.Stmt
/-!
# What a program calls

Running a program has effects where it calls something of its own or
converts a value to a node. The calls of an expression or a statement are
listed in the order in which they are evaluated: the operands of an
expression from left to right, and a call behind its operands.
-/

namespace ScriptSplice

/-- The helpers that convert a value. -/
def Helper.converts : Helper → Bool
  | interpolate _ | convert _ => true
  | _ => false

namespace Expr

mutual

/-- The calls and conversions of an expression. -/
def calls : Expr → List Expr
  | verbatim _ => []
  | adjoin parts => callsAll parts
  | ref _ => []
  | slice _ _ => []
  | var _ => []
  | missing => []
  | commands => []
  | apply h args => callsAll args ++ if h.converts then [.apply h args] else []
  | keyword _ value => calls value
  | bracketed _ e => calls e
  | literal _ => []
  | binary left _ right => calls left ++ calls right
  | unary _ operand => calls operand
  | format _ values => callsAll values
  | tuple items => callsAll items
  | list items => callsAll items
  | dict items => callsAll items
  | entry key value => calls key ++ calls value
  | lookup base args => calls base ++ callsAll args
  | call base args => calls base ++ callsAll args ++ [.call base args]

/-- Those of some expressions. -/
def callsAll : List Expr → List Expr
  | [] => []
  | e :: es => calls e ++ callsAll es

end

@[simp] theorem callsAll_nil : callsAll [] = [] := rfl

@[simp] theorem callsAll_cons (e : Expr) (es : List Expr) :
    callsAll (e :: es) = e.calls ++ callsAll es := rfl

theorem callsAll_eq (es : List Expr) : callsAll es = es.flatMap calls := by
  induction es with
  | nil => rfl
  | cons e es ih => rw [callsAll, ih, List.flatMap_cons]

@[simp] theorem callsAll_append (es fs : List Expr) :
    callsAll (es ++ fs) = callsAll es ++ callsAll fs := by
  simp only [callsAll_eq, List.flatMap_append]

/-- The names of fields call nothing. -/
theorem callsAll_keyword (fs : List (Text × Expr)) :
    callsAll (fs.map fun f => .keyword f.1 f.2) = callsAll (fs.map (·.2)) := by
  simp only [callsAll_eq, List.flatMap_map, calls]

end Expr

/-- The calls and conversions of a statement. -/
def Stmt.calls : Stmt → List Expr
  | eval e => e.calls
  | bind _ value => value.calls
  | output _ value => value.calls
  | append e => e.calls
  | extend e => e.calls
  | extendBody body => body.calls
  | control _ operand => Expr.callsAll operand.toList
  | branch _ condition => condition.calls
  | loop target iterable => target.calls ++ iterable.calls
  | _ => []

namespace Line

/-- The calls and conversions of some lines. -/
def calls (ls : List Line) : List Expr := ls.flatMap fun l => l.stmt.calls

variable (ls ms : List Line)

@[simp] theorem calls_nil : calls [] = [] := rfl

@[simp] theorem calls_cons (l : Line) : calls (l :: ls) = l.stmt.calls ++ calls ls := rfl

@[simp] theorem calls_append : calls (ls ++ ms) = calls ls ++ calls ms := List.flatMap_append

/-- How deep lines are does not matter. -/
@[simp] theorem calls_map_indent : calls (ls.map indent) = calls ls := List.flatMap_map ..

end Line

end ScriptSplice
