import ScriptSplice.Proofs.Rules.Rebuilding
import ScriptSplice.Proofs.Target.Grouping
/-!
# Operators keep their operands

An expression of operators, constants and names is written with brackets
around everything but constants, so the operands of an operator are closed
when it comes, whatever the operators are. The exception is a constant
that is written with a sign: a power does not complete the sign of its left
operand. So what is read is the expression that was compiled exactly if no
power has a negative number, written as a constant, for its left operand
(`Compiler.operators_keep_operands`), and otherwise such a power is read
under the sign (`Operation.asRead`).
-/

namespace ScriptSplice

open Compile

/-! ## Expressions of operators -/

/-- A constant that is not a floating point number. -/
inductive Constant where
  | nil
  | bool (b : Bool)
  | int (i : Int64)
  | str (t : Text)

/-- A name that is not a keyword. -/
structure Variable where
  text : Text
  isName : text.isName = true
  isFree : text ∉ keywords

/-- **Expressions of operators.** -/
inductive Operation where
  | constant (c : Constant)
  | name (x : Variable)
  | unary (o : UnaryOperator) (e : Operation)
  | binary (left : Operation) (o : BinaryOperator) (right : Operation)

/-- The leaf that a constant is. -/
def Constant.leaf : Constant → Leaf
  | nil => .nil
  | bool b => .bool b
  | int i => .int i
  | str t => .str t

/-- **A tree stands for an expression of operators.** Underscores in an
operator stand for blanks, and no node has a place. -/
inductive Operation.Represents : Operation → Node → Prop
  | constant {c : Constant} {n : Node} : n.kind = .value →
      (n.leaf? (ascii "value")).getD .nil = c.leaf → Represents (.constant c) n
  | name {x : Variable} {n : Node} : n.kind = .identifier → n.location.isUnknown = true →
      n.text (ascii "value") = x.text → Represents (.name x) n
  | unary {o : UnaryOperator} {e : Operation} {n m : Node} : n.kind = .unary →
      n.location.isUnknown = true → Handler.operatorOf n = o.text →
      n.child? (ascii "value") = some m → e.Represents m → Represents (.unary o e) n
  | binary {l r : Operation} {o : BinaryOperator} {n m k : Node} : n.kind = .binary →
      n.location.isUnknown = true → Handler.operatorOf n = o.text →
      n.child? (ascii "left") = some m → l.Represents m →
      n.child? (ascii "right") = some k → r.Represents k → Represents (.binary l o r) n

/-- A number, behind a sign if it is negative. -/
def Operand.ofInt : Int → Operand
  | .ofNat n => .closed (.number n)
  | .negSucc n => .signed (.number (n + 1))

namespace Constant

/-- What a constant is read as. -/
def operand : Constant → Operand
  | nil => .closed .nothing
  | bool b => .closed (.truth b)
  | int i => .ofInt i.toInt
  | str t => .closed (.text t)

/-- Whether a constant is written with a sign. -/
def isSigned : Constant → Bool
  | int i => decide (i.toInt < 0)
  | _ => false

end Constant

namespace Operation

/-- **The expression itself.** -/
def formula : Operation → Formula
  | constant c => c.operand.whole
  | name x => .name x.text
  | unary o e => .unary o e.formula
  | binary l o r => .binary l.formula o r.formula

/-- What is read of it in front of an operator. -/
def operand : Operation → Operand
  | constant c => c.operand
  | name x => .closed (.name x.text)
  | unary o e => .closed (.unary o e.operand.whole)
  | binary l o r => .closed (l.operand.operate o r.operand)

/-- **What is read of it.** -/
def asRead (e : Operation) : Formula := e.operand.whole

/-- Whether it is a constant that is written with a sign. -/
def isSigned : Operation → Bool
  | constant c => c.isSigned
  | _ => false

/-- Whether no power has a constant with a sign for its left operand. -/
def isGrouped : Operation → Bool
  | constant _ | name _ => true
  | unary _ e => e.isGrouped
  | binary l o r => !(o == .power && l.isSigned) && l.isGrouped && r.isGrouped

/-- The expression of the program. -/
def expr : Operation → Expr
  | constant c => .literal c.leaf
  | name x => .bracketed none (.verbatim x.text)
  | unary o e => .bracketed none (.unary o.text e.expr)
  | binary l o r => .bracketed none (.binary l.expr o.text r.expr)

end Operation

/-! ## What is read -/

/-- **A name is read** as itself: no operator is a name. -/
theorem Variable.reads (x : Variable) : (Operand.closed (.name x.text)).Reads [.word x.text] := by
  have hne {w : Text} (hw : w ∈ keywords) : x.text ≠ w := fun h => x.isFree (h ▸ hw)
  refine Operand.reads_name ?_ ?_
  · refine List.find?_eq_none.2 fun o _ ho => ?_
    have htext : x.text = o.text := (beq_iff_eq.1 ho).symm
    have hname := x.isName
    rw [htext] at hname
    cases o with
    | negation => exact hne (by decide) htext
    | _ => exact absurd hname (by decide)
  · rw [Formula.ofWord?, if_neg (hne (by decide)), if_neg (hne (by decide)),
      if_neg (hne (by decide)), if_pos (by simp [x.isName, x.isFree])]

namespace Constant

/-- **A constant is read** as what it is. -/
theorem reads (c : Constant) :
    ∃ ts, Token.Lexes c.leaf.literal ts ∧ c.operand.Reads ts := by
  have hword (w : Text) (hw : w.isName = true) (hoperator : UnaryOperator.ofText? w = none)
      {e : Formula} (he : Formula.ofWord? w = some e) :
      ∃ ts, Token.Lexes w ts ∧ (Operand.closed e).Reads ts :=
    ⟨_, Token.lexes_name hw, Operand.reads_name hoperator he⟩
  cases c with
  | nil => exact hword (ascii "None") (by decide) (by decide) rfl
  | bool b =>
    cases b with
    | true => exact hword (ascii "True") (by decide) (by decide) rfl
    | false => exact hword (ascii "False") (by decide) (by decide) rfl
  | str t => exact ⟨_, Token.lexes_text t, Operand.reads_text t⟩
  | int i =>
    change ∃ ts, Token.Lexes (Text.ofInt i.toInt) ts ∧ (Operand.ofInt i.toInt).Reads ts
    cases i.toInt with
    | ofNat n => exact ⟨_, Token.lexes_number n, Operand.reads_number n⟩
    | negSucc n =>
      refine ⟨_, fun rest hrest => ?_, Operand.reads_minus (n + 1)⟩
      have hnumber := Token.lexes_number (n + 1) rest hrest
      rw [Text.ofInt, List.cons_append, Token.all_minus, hnumber]
      simp [Function.comp_def]

/-- All of a constant is closed, unless it has a sign. -/
theorem operand_cases (c : Constant) : (c.isSigned = false ∧ c.operand = .closed c.operand.whole) ∨
    (c.isSigned = true ∧ ∃ n, c.operand = .signed (.number n)) := by
  cases c with
  | int i =>
    rw [operand, isSigned]
    cases i.toInt with
    | ofNat n => exact .inl ⟨decide_eq_false (Int.not_lt.2 (Int.natCast_nonneg n)), rfl⟩
    | negSucc n => exact .inr ⟨decide_eq_true (Int.negSucc_lt_zero n), _, rfl⟩
  | _ => exact .inl ⟨rfl, rfl⟩

end Constant

namespace Operation

theorem operand_cases (e : Operation) : (e.isSigned = false ∧ e.operand = .closed e.asRead) ∨
    (e.isSigned = true ∧ ∃ n, e.operand = .signed (.number n)) := by
  cases e with
  | constant c => exact c.operand_cases
  | _ => exact .inl ⟨rfl, rfl⟩

/-- **An operator between two operands**: a power under the sign of its
left operand, and any other operator between what is read of both. -/
theorem asRead_binary (l : Operation) (o : BinaryOperator) (r : Operation) :
    (o == .power && l.isSigned) = false ∧
        (binary l o r).asRead = .binary l.asRead o r.asRead ∨
      (o == .power && l.isSigned) = true ∧
        ∃ e, (binary l o r).asRead = .unary .minus (.binary e .power r.asRead) := by
  rcases l.operand_cases with ⟨hsigned, hoperand⟩ | ⟨hsigned, n, hoperand⟩
  · refine .inl ⟨by rw [hsigned, Bool.and_false], ?_⟩
    rw [asRead, operand, hoperand]
    rfl
  · by_cases hpower : o = .power
    · subst hpower
      refine .inr ⟨by rw [hsigned]; rfl, .number n, ?_⟩
      rw [asRead, operand, hoperand]
      rfl
    · refine .inl ⟨by rw [beq_false_of_ne hpower, Bool.false_and], ?_⟩
      rw [asRead, operand, asRead, hoperand]
      cases o <;> first | rfl | exact absurd rfl hpower

/-- **What is read is the expression itself** exactly if no power has a
constant with a sign for its left operand. -/
theorem asRead_eq_iff (e : Operation) : e.asRead = e.formula ↔ e.isGrouped = true := by
  induction e with
  | constant c => exact iff_of_true rfl rfl
  | name x => exact iff_of_true rfl rfl
  | unary o e ih =>
    rw [isGrouped, ← ih, asRead, operand, formula, Operand.whole, Formula.unary.injEq, ← asRead]
    exact and_iff_right rfl
  | binary l o r ihl ihr =>
    rw [isGrouped, formula]
    rcases asRead_binary l o r with ⟨hsigned, hread⟩ | ⟨hsigned, f, hread⟩
    · rw [hread, hsigned, Formula.binary.injEq, ihl, ihr]
      simp
    · rw [hread, hsigned]
      simp

/-- **What is written for an expression is read** as what is said. -/
theorem reads (stem : Text) (e : Operation) :
    ∃ ts, Token.Lexes (e.expr.render stem) ts ∧ e.operand.Reads ts := by
  induction e with
  | constant c => exact c.reads
  | name x =>
    exact ⟨_, Token.lexes_bracketed (Token.lexes_name x.isName), Operand.reads_group x.reads⟩
  | unary o e ih =>
    obtain ⟨ts, hlexes, hreads⟩ := ih
    exact ⟨_, Token.lexes_bracketed (o.lexes hlexes), Operand.reads_unary o hreads⟩
  | binary l o r ihl ihr =>
    obtain ⟨ts, hlexes, hreads⟩ := ihl
    obtain ⟨us, hlexes', hreads'⟩ := ihr
    exact ⟨_, Token.lexes_bracketed (o.lexes hlexes hlexes'),
      Operand.reads_binary o hreads hreads'⟩

end Operation

/-! ## What is written -/

namespace Compiler

/-- An operand is what its node is compiled to. -/
theorem exec_operand_of (o : Options) (parsers : Parsers) {n m : Node} {name : String} {e : Expr}
    {d d' : Draft} (hm : n.child? (ascii name) = some m)
    (h : exec ((builtin o parsers).part m).run d = (.ok (some [e]), d')) :
    exec (Handler.operand (Fields.map (builtin o parsers).part n.fields) name) d = (.ok e, d') := by
  have hchild : Fields.child? n.fields (ascii name) = some m := hm
  have hsingle : exec (single? ((builtin o parsers).part m)) d = (.ok (some e), d') :=
    exec_bind_of_ok h
  rw [Handler.operand, Fields.child?_map, hchild]
  exact exec_bind_of_ok hsingle

/-- **An expression of operators** becomes one fragment, and nothing is
written for it. -/
theorem exec_operation (o : Options) (parsers : Parsers) {e : Operation} {n : Node}
    (h : e.Represents n) (d : Draft) : ∃ events,
    exec ((builtin o parsers).part n).run d = (.ok (some [e.expr]), { d with events }) := by
  induction h generalizing d with
  | @constant c n hkind hleaf =>
    obtain ⟨events, hrun⟩ := exec_part o parsers n d
    refine ⟨events, ?_⟩
    rw [hrun, Node.form, hkind, Form.handler, Handler.value, hleaf, exec_pure]
    rfl
  | @name x n hkind hplace htext =>
    obtain ⟨events, hrun⟩ := exec_part o parsers n d
    refine ⟨events, ?_⟩
    rw [hrun, Node.form, hkind, Form.handler, Handler.identifier, Handler.bracket,
      line?_eq_none hplace, htext, exec_pure]
    rfl
  | @unary op e n m hkind hplace hop hm _ ih =>
    obtain ⟨events, hrun⟩ := exec_part o parsers n d
    obtain ⟨events', hvalue⟩ := ih { d with events }
    refine ⟨events', ?_⟩
    rw [hrun, Node.form, hkind, Form.handler, Handler.unary,
      exec_bind_of_ok (exec_operand_of o parsers hm hvalue), Handler.bracket, line?_eq_none hplace,
      hop, exec_pure]
    rfl
  | @binary l r op n m k hkind hplace hop hm _ hk _ ihl ihr =>
    obtain ⟨events, hrun⟩ := exec_part o parsers n d
    obtain ⟨events', hleft⟩ := ihl { d with events }
    obtain ⟨events'', hright⟩ := ihr { d with events := events' }
    refine ⟨events'', ?_⟩
    rw [hrun, Node.form, hkind, Form.handler, Handler.binary,
      exec_bind_of_ok (exec_operand_of o parsers hm hleft),
      exec_bind_of_ok (exec_operand_of o parsers hk hright), Handler.bracket,
      line?_eq_none hplace, hop, exec_pure]
    rfl

/-- **Operators keep their operands.** An expression of operators becomes
one fragment. It is read as the expression itself exactly if no power has
a negative number, written as a constant, for its left operand; such a
power is read under the sign. -/
theorem operators_keep_operands (o : Options) (parsers : Parsers) {e : Operation} {n : Node}
    (h : e.Represents n) (d : Draft) : ∃ fragment events,
    exec ((builtin o parsers).part n).run d = (.ok (some [fragment]), { d with events }) ∧
      Formula.read (fragment.render o.stem) = some e.asRead ∧
      (Formula.read (fragment.render o.stem) = some e.formula ↔ e.isGrouped = true) := by
  obtain ⟨events, hrun⟩ := exec_operation o parsers h d
  obtain ⟨ts, hlexes, hreads⟩ := e.reads o.stem
  have hread : Formula.read (e.expr.render o.stem) = some e.asRead :=
    Operand.read_eq hlexes hreads
  exact ⟨e.expr, events, hrun, hread, by rw [hread, Option.some.injEq, e.asRead_eq_iff]⟩

/-- A sign in brackets on the left of a power, and one without on its
right. -/
theorem operators_keep_operands_signs :
    let constant (i : Int64) : Node := ⟨.value, [⟨ascii "value", .leaf (.int i)⟩], .unknown⟩
    let base : Node := ⟨.unary, [⟨ascii "operator", .leaf (.str (ascii "-"))⟩,
      ⟨ascii "value", .child (some (constant 2))⟩], .unknown⟩
    let power : Node := ⟨.binary, [⟨ascii "operator", .leaf (.str (ascii "**"))⟩,
      ⟨ascii "left", .child (some base)⟩, ⟨ascii "right", .child (some (constant (-3)))⟩], .unknown⟩
    let n : Node := ⟨.binary, [⟨ascii "operator", .leaf (.str (ascii "not_in"))⟩,
      ⟨ascii "left", .child (some power)⟩,
      ⟨ascii "right", .child (some (constant (-1)))⟩], .unknown⟩
    ∃ fragment events,
      exec ((builtin .standard []).part n).run .empty =
          (.ok (some [fragment]), { Draft.empty with events }) ∧
        Formula.read (fragment.render Options.standard.stem) =
          some (.binary (.binary (.unary .minus (.number 2)) .power (.unary .minus (.number 3)))
            .notMember (.unary .minus (.number 1))) := by
  intro constant base power n
  have hbase : (Operation.unary .minus (.constant (.int 2))).Represents base :=
    .unary rfl rfl rfl rfl (.constant rfl rfl)
  have hpower : (Operation.binary (.unary .minus (.constant (.int 2))) .power
      (.constant (.int (-3)))).Represents power :=
    .binary rfl rfl rfl rfl hbase rfl (.constant rfl rfl)
  have hn : (Operation.binary (.binary (.unary .minus (.constant (.int 2))) .power
      (.constant (.int (-3)))) .notMember (.constant (.int (-1)))).Represents n :=
    .binary rfl rfl rfl rfl hpower rfl (.constant rfl rfl)
  obtain ⟨fragment, events, hrun, -, hiff⟩ := operators_keep_operands .standard [] hn .empty
  exact ⟨fragment, events, hrun, hiff.2 rfl⟩

/-- **A power takes the sign of its left operand**: minus two to the power
of two is written without brackets, and is read as minus the power. -/
theorem operators_regroup :
    let constant (i : Int64) : Node := ⟨.value, [⟨ascii "value", .leaf (.int i)⟩], .unknown⟩
    let n : Node := ⟨.binary, [⟨ascii "operator", .leaf (.str (ascii "**"))⟩,
      ⟨ascii "left", .child (some (constant (-2)))⟩, ⟨ascii "right", .child (some (constant 2))⟩],
      .unknown⟩
    let e : Operation := .binary (.constant (.int (-2))) .power (.constant (.int 2))
    e.Represents n ∧ e.formula = .binary (.unary .minus (.number 2)) .power (.number 2) ∧
      ∃ fragment events,
        exec ((builtin .standard []).part n).run .empty =
            (.ok (some [fragment]), { Draft.empty with events }) ∧
          fragment.render Options.standard.stem = ascii "(-2 ** 2)" ∧
          Formula.read (ascii "(-2 ** 2)") =
            some (.unary .minus (.binary (.number 2) .power (.number 2))) ∧
          Formula.read (fragment.render Options.standard.stem) ≠ some e.formula := by
  intro constant n e
  have hn : e.Represents n :=
    .binary rfl rfl rfl rfl (.constant rfl rfl) rfl (.constant rfl rfl)
  obtain ⟨events, hrun⟩ := exec_operation .standard [] hn .empty
  have htext : e.expr.render Options.standard.stem = ascii "(-2 ** 2)" := by decide +kernel
  have hread : Formula.read (ascii "(-2 ** 2)") =
      some (.unary .minus (.binary (.number 2) .power (.number 2))) := by decide +kernel
  have hformula : e.formula = .binary (.unary .minus (.number 2)) .power (.number 2) := rfl
  refine ⟨hn, hformula, e.expr, events, hrun, htext, hread, ?_⟩
  rw [htext, hread, hformula]
  decide

end Compiler

end ScriptSplice
