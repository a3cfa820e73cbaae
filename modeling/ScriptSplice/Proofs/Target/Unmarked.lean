import ScriptSplice.Program.Stmt
/-!
# Programs without marks

The marks of source lines stand between the lines of a program and, in
brackets, inside them. Without them a program is what the same tree
compiles to when no place in it is known.
-/

namespace ScriptSplice

namespace Expr

mutual

/-- The expression without the marks in it. -/
def unmarked : Expr → Expr
  | verbatim t => verbatim t
  | adjoin parts => adjoin (unmarkedAll parts)
  | ref i => ref i
  | slice start stop => slice start stop
  | var n => var n
  | missing => missing
  | commands => commands
  | apply h args => apply h (unmarkedAll args)
  | keyword name value => keyword name (unmarked value)
  | bracketed _ e => bracketed none (unmarked e)
  | literal l => literal l
  | binary left operator right => binary (unmarked left) operator (unmarked right)
  | unary operator operand => unary operator (unmarked operand)
  | format template values => format template (unmarkedAll values)
  | tuple items => tuple (unmarkedAll items)
  | list items => list (unmarkedAll items)
  | dict items => dict (unmarkedAll items)
  | entry key value => entry (unmarked key) (unmarked value)
  | lookup base args => lookup (unmarked base) (unmarkedAll args)
  | call base args => call (unmarked base) (unmarkedAll args)

/-- The expressions without the marks in them. -/
def unmarkedAll : List Expr → List Expr
  | [] => []
  | e :: es => unmarked e :: unmarkedAll es

end

theorem unmarkedAll_eq (es : List Expr) : unmarkedAll es = es.map unmarked := by
  induction es with
  | nil => rfl
  | cons e es ih => rw [unmarkedAll, ih, List.map_cons]

end Expr

namespace Stmt

/-- The statement without the marks in it. -/
def unmarked : Stmt → Stmt
  | eval e => eval e.unmarked
  | bind name value => bind name value.unmarked
  | output n value => output n value.unmarked
  | append e => append e.unmarked
  | extend e => extend e.unmarked
  | extendBody body => extendBody body.unmarked
  | control keyword operand => control keyword (operand.map Expr.unmarked)
  | branch keyword condition => branch keyword condition.unmarked
  | loop target iterable => loop target.unmarked iterable.unmarked
  | s => s

/-- Whether a statement is the mark of a line. -/
def isMark : Stmt → Bool
  | mark _ => true
  | _ => false

end Stmt

namespace Line

/-- The line without the marks in it. -/
def unmarked (l : Line) : Line := { l with stmt := l.stmt.unmarked }

/-- The lines that are not marks. -/
def statements (ls : List Line) : List Line := ls.filter fun l => !l.stmt.isMark

/-- What is left of some lines without the marks. -/
def unmarkedAll (ls : List Line) : List Line := (statements ls).map unmarked

variable (ls ms : List Line)

@[simp] theorem statements_nil : statements [] = [] := rfl

@[simp] theorem statements_append : statements (ls ++ ms) = statements ls ++ statements ms :=
  List.filter_append ..

/-- A mark is left out. -/
@[simp] theorem statements_mark (depth : Nat) (line : Int) :
    statements (⟨depth, .mark line⟩ :: ls) = statements ls := rfl

theorem statements_cons (depth : Nat) {s : Stmt} (h : s.isMark = false) :
    statements (⟨depth, s⟩ :: ls) = ⟨depth, s⟩ :: statements ls :=
  List.filter_cons_of_pos (by simp [h])

@[simp] theorem statements_map_indent :
    statements (ls.map indent) = (statements ls).map indent := List.filter_map ..

@[simp] theorem unmarkedAll_nil : unmarkedAll [] = [] := rfl

@[simp] theorem unmarkedAll_append :
    unmarkedAll (ls ++ ms) = unmarkedAll ls ++ unmarkedAll ms := by
  rw [unmarkedAll, statements_append, List.map_append]
  rfl

@[simp] theorem unmarkedAll_mark (depth : Nat) (line : Int) :
    unmarkedAll (⟨depth, .mark line⟩ :: ls) = unmarkedAll ls := rfl

theorem unmarkedAll_cons (depth : Nat) {s : Stmt} (h : s.isMark = false) :
    unmarkedAll (⟨depth, s⟩ :: ls) = ⟨depth, s.unmarked⟩ :: unmarkedAll ls := by
  rw [unmarkedAll, statements_cons ls depth h, List.map_cons]
  rfl

@[simp] theorem unmarkedAll_map_indent :
    unmarkedAll (ls.map indent) = (unmarkedAll ls).map indent := by
  rw [unmarkedAll, statements_map_indent, unmarkedAll, List.map_map, List.map_map]
  rfl

end Line

end ScriptSplice
