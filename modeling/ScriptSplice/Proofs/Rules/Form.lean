import ScriptSplice.Compiler
/-!
# What the standard rules take a node for

The form of a node is what the standard rules see in it: one of the
expressions, one of the commands that are statements, a root, or anything
else. It is read off the kind and, for a command, off its identifier.
Compiling a node with the standard rules is what the handler of its form
does (`Compiler.run_builtin`), so proofs about those rules go by cases on
forms and never look at the table of rules again.
-/

namespace ScriptSplice

/-- What the standard rules take a node for. -/
inductive Form where
  | generic
  | root
  | interpolation
  | argumentInterpolation
  | binary
  | unary
  | value
  | identifier
  | targetIdentifier
  | formatString
  | tuple
  | list
  | dict
  | attributeOf
  | lookup
  | call
  | assignment
  | statement
  | function
  | control (keyword : String)
  | branch (keyword : String)
  | otherwise
  | loop
  | importModule
  | importAs
  | fromImport
deriving DecidableEq

namespace Form

/-- What is done with the nodes of a form. -/
def handler {m : Type → Type} [Monad m] [MonadExceptOf Compile.Failure m] [MonadLiftT Drafting m]
    [Compile.HasBlocks m] : Form → Handler m
  | generic => Handler.rebuild .generic
  | root => Handler.rebuild .rootCommand
  | interpolation => Handler.interpolation
  | argumentInterpolation => Handler.argumentInterpolation
  | binary => Handler.binary
  | unary => Handler.unary
  | value => Handler.value
  | identifier => Handler.identifier
  | targetIdentifier => Handler.targetIdentifier
  | formatString => Handler.formatString
  | tuple => Handler.tuple
  | list => Handler.list
  | dict => Handler.dict
  | attributeOf => Handler.attributeOf
  | lookup => Handler.lookup
  | call => Handler.call
  | assignment => Handler.assignment
  | statement => Handler.expressionStatement
  | function => Handler.function
  | control keyword => Handler.control keyword
  | branch keyword => Handler.branch keyword
  | otherwise => Handler.otherwise
  | loop => Handler.loop
  | importModule => Handler.importModule
  | importAs => Handler.importAs
  | fromImport => Handler.fromImport

/-- The commands that are statements, by their identifiers. -/
def commands : List (Text × Form) :=
  [ (ascii "statement", statement),
    (ascii "def:function:body", function),
    (ascii "return", control "return"),
    (ascii "return:value", control "return"),
    (ascii "yield", control "yield"),
    (ascii "yield:value", control "yield"),
    (ascii "yield:from:value", control "yield from"),
    (ascii "if:condition:body", branch "if"),
    (ascii "elif:condition:body", branch "elif"),
    (ascii "while:condition:body", branch "while"),
    (ascii "else:body", otherwise),
    (ascii "for:target:in:iterable:body", loop),
    (ascii "break", control "break"),
    (ascii "continue", control "continue"),
    (ascii "pass", control "pass"),
    (ascii "import:module", importModule),
    (ascii "import:module:as:alias", importAs),
    (ascii "from:module:import:subcommand", fromImport) ]

/-- The form of a command with an identifier. -/
def ofCommand (identifier : Option Leaf) : Form :=
  ((commands.find? fun c => identifier == some (.str c.1)).map (·.2)).getD generic

end Form

/-- **The form of a node.** -/
def Node.form (n : Node) : Form :=
  match n.kind with
  | .root => .root
  | .command => .ofCommand (n.leaf? Handler.identifierField)
  | .interpolation => .interpolation
  | .argumentInterpolation => .argumentInterpolation
  | .binary => .binary
  | .unary => .unary
  | .value => .value
  | .identifier => .identifier
  | .targetIdentifier => .targetIdentifier
  | .formatString => .formatString
  | .tuple => .tuple
  | .list => .list
  | .dict => .dict
  | .attributeOf => .attributeOf
  | .lookup => .lookup
  | .call => .call
  | .assignment => .assignment
  | _ => .generic

namespace Form

/-- The forms that leave no fragment. -/
def isStatement : Form → Bool
  | statement | function | control _ | branch _ | otherwise | loop
  | importModule | importAs | fromImport => true
  | _ => false

/-- The forms that never stay as they are. -/
def isDynamic : Form → Bool
  | generic | root => false
  | _ => true

end Form

/-! ## Nodes that rules are for -/

/-- A command that a statement or import rule is for. -/
def Node.isStatement (n : Node) : Bool :=
  (Handler.statementRules ++ Handler.importRules).any (·.applies n)

/-- A node that an expression, statement or import rule is for. -/
def Node.isDynamic (n : Node) : Bool :=
  Handler.expressionRules.any (·.applies n) || n.isStatement

/-- A node holds a string under a name if that is the leaf there. -/
theorem Constraint.holds_str (field t : Text) (n : Node) :
    Constraint.holds ⟨field, .str t⟩ n = (n.leaf? field == some (.str t)) := by
  unfold Constraint.holds
  cases n.leaf? field with
  | none => rfl
  | some l => cases l <;> simp [Leaf.same, Leaf.number?]

/-- The statement and import rules are those of the listed commands. -/
theorem statementRules_heads :
    (Handler.statementRules ++ Handler.importRules).map (fun r => (r.kind, r.constraints)) =
      Form.commands.map fun c =>
        (some .command, [⟨Handler.identifierField, .str c.1⟩]) := rfl

theorem isStatement_eq_any (n : Node) :
    n.isStatement = (n.kind == .command && Form.commands.any fun c =>
      n.leaf? Handler.identifierField == some (.str c.1)) := by
  have heads : n.isStatement =
      ((Handler.statementRules ++ Handler.importRules).map fun r => (r.kind, r.constraints)).any
        fun h => h.1.all (· == n.kind) && Rule.allHold h.2 n := by
    rw [Node.isStatement, List.any_map]
    rfl
  rw [heads, statementRules_heads, List.any_map]
  simp only [Function.comp_def, Rule.allHold, List.all_cons, List.all_nil, Bool.and_true,
    Option.all_some, Constraint.holds_str]
  rw [Bool.beq_comm (a := n.kind)]
  cases Kind.command == n.kind <;> simp

namespace Form

theorem isStatement_of_mem {c : Text × Form} (hc : c ∈ commands) : c.2.isStatement = true := by
  have hall : commands.all (fun c => c.2.isStatement) = true := rfl
  exact List.all_eq_true.1 hall c hc

/-- A command has the form listed for its identifier, or none in
particular. -/
theorem ofCommand_cases (l : Option Leaf) :
    (∃ c ∈ commands, l = some (.str c.1) ∧ ofCommand l = c.2) ∨
      ((∀ c ∈ commands, l ≠ some (.str c.1)) ∧ ofCommand l = generic) := by
  unfold ofCommand
  cases h : commands.find? fun c => l == some (.str c.1) with
  | none =>
    refine Or.inr ⟨fun c hc heq => ?_, rfl⟩
    simpa [heq] using List.find?_eq_none.1 h c hc
  | some c =>
    have hl := List.find?_some h
    exact Or.inl ⟨c, List.mem_of_find?_eq_some h, eq_of_beq hl, rfl⟩

theorem isStatement_ofCommand (l : Option Leaf) :
    (ofCommand l).isStatement = commands.any fun c => l == some (.str c.1) := by
  obtain ⟨c, hc, hl, hform⟩ | ⟨hnone, hform⟩ := ofCommand_cases l
  · rw [hform, isStatement_of_mem hc]
    exact (List.any_eq_true.2 ⟨c, hc, by simp [hl]⟩).symm
  · rw [hform]
    exact (List.any_eq_false.2 fun c hc h => hnone c hc (eq_of_beq h)).symm

theorem isDynamic_ofCommand (l : Option Leaf) :
    (ofCommand l).isDynamic = (ofCommand l).isStatement := by
  obtain ⟨c, hc, -, hform⟩ | ⟨-, hform⟩ := ofCommand_cases l
  · have hs := isStatement_of_mem hc
    rw [hform, hs]
    -- every statement changes, and nothing else is listed
    cases h : c.2 <;> first | rfl | simp [h, isStatement] at hs
  · rw [hform]
    rfl

end Form

/-- **Statements by form.** -/
theorem Node.isStatement_eq (n : Node) : n.isStatement = n.form.isStatement := by
  rw [isStatement_eq_any]
  by_cases hk : n.kind = .command
  · simp [hk, form, Form.isStatement_ofCommand]
  · obtain ⟨kind, fields, location⟩ := n
    cases kind <;> first | rfl | exact absurd rfl hk

/-- **Dynamic nodes by form.** -/
theorem Node.isDynamic_eq (n : Node) : n.isDynamic = n.form.isDynamic := by
  unfold isDynamic
  rw [isStatement_eq]
  obtain ⟨kind, fields, location⟩ := n
  by_cases hk : kind = .command
  · subst hk
    exact (Form.isDynamic_ofCommand _).symm
  · cases kind <;> first | rfl | exact absurd rfl hk

/-! ## Resolution by form -/

/-- The rule set of a compiler with nothing added. -/
def builtinRules : RuleSet Handler := RuleSet.empty.addAll standardRules

/-- The rules look at no leaf but the identifier. -/
theorem field_of_mem_constraints {r : RankedRule Handler} (hr : r ∈ builtinRules.ranked)
    {c : Constraint} (hc : c ∈ r.constraints) : c.field = Handler.identifierField := by
  have hall : builtinRules.ranked.all (fun r => r.constraints.all fun c =>
      c.field == Handler.identifierField) = true := by decide
  exact eq_of_beq (List.all_eq_true.1 (List.all_eq_true.1 hall r hr) c hc)

/-- So nodes of one kind and one identifier have one rule. -/
theorem resolve_builtinRules_congr {n m : Node} (hk : n.kind = m.kind)
    (hl : n.leaf? Handler.identifierField = m.leaf? Handler.identifierField) :
    builtinRules.resolve n = builtinRules.resolve m := by
  have happlies : ∀ r ∈ builtinRules.ranked, r.toRule.applies n = r.toRule.applies m := by
    intro r hr
    have hholds : ∀ c ∈ r.constraints, c.holds n = c.holds m := fun c hc => by
      rw [Constraint.holds, Constraint.holds, field_of_mem_constraints hr hc, hl]
    rw [Rule.applies, Rule.applies, hk, Bool.eq_iff_iff]
    simp +contextual only [Bool.and_eq_true, Rule.allHold, List.all_eq_true, hholds]
  rw [RuleSet.resolve, RuleSet.resolve, ← List.head?_filter, ← List.head?_filter,
    List.filter_congr happlies]

/-- All rules but the last in rank are for one kind, and those for commands
ask for one of the listed identifiers. -/
theorem front_builtinRules {r : RankedRule Handler} (hr : r ∈ builtinRules.ranked.take 34)
    {n : Node} (hk : n.kind = .command) (happlies : r.toRule.applies n = true) :
    ∃ c ∈ Form.commands, n.leaf? Handler.identifierField = some (.str c.1) := by
  have hall : (builtinRules.ranked.take 34).all (fun r => r.kind.isSome &&
      (r.kind != some .command || Form.commands.any fun c =>
        r.constraints == [⟨Handler.identifierField, .str c.1⟩])) = true := by decide
  have hr := List.all_eq_true.1 hall r hr
  unfold Rule.applies at happlies
  cases hkind : r.kind with
  | none => simp [hkind] at hr
  | some k =>
    have hk' : k = .command := by
      simp only [hkind, hk, Option.all_some, Bool.and_eq_true, beq_iff_eq] at happlies
      exact happlies.1
    simp only [hkind, hk', bne_self_eq_false, Bool.false_or, Option.isSome_some, Bool.true_and,
      List.any_eq_true, beq_iff_eq] at hr
    obtain ⟨c, hc, hconstraints⟩ := hr
    refine ⟨c, hc, ?_⟩
    rw [Bool.and_eq_true, hconstraints] at happlies
    simpa [Rule.allHold, Constraint.holds_str] using happlies.2

/-- A command with a listed identifier has the rule of its form. -/
theorem resolve_listed {c : Text × Form} (hc : c ∈ Form.commands) :
    (builtinRules.resolve
      ⟨.command, [⟨Handler.identifierField, .leaf (.str c.1)⟩], .unknown⟩).map (·.action) =
      some c.2.handler := by
  simp only [Form.commands, List.mem_cons, List.not_mem_nil, or_false] at hc
  rcases hc with rfl | rfl | rfl | rfl | rfl | rfl | rfl | rfl | rfl | rfl | rfl | rfl | rfl |
    rfl | rfl | rfl | rfl | rfl <;> rfl

/-- A command with no listed identifier is left to the last rule in rank. -/
theorem resolve_unlisted {n : Node} (hk : n.kind = .command)
    (hnone : ∀ c ∈ Form.commands, n.leaf? Handler.identifierField ≠ some (.str c.1)) :
    builtinRules.resolve n = (builtinRules.ranked.drop 34).head? := by
  have hfront : (builtinRules.ranked.take 34).find? (fun r => r.toRule.applies n) = none := by
    refine List.find?_eq_none.2 fun r hr happlies => ?_
    obtain ⟨c, hc, hl⟩ := front_builtinRules hr hk happlies
    exact hnone c hc hl
  rw [RuleSet.resolve, ← List.take_append_drop 34 builtinRules.ranked, List.find?_append, hfront]
  rfl

/-- **The rule for a node is that of its form.** -/
theorem resolve_builtinRules (n : Node) :
    (builtinRules.resolve n).map (·.action) = some n.form.handler := by
  by_cases hk : n.kind = .command
  · have hform : n.form = .ofCommand (n.leaf? Handler.identifierField) := by
      simp only [Node.form, hk]
    rw [hform]
    obtain ⟨c, hc, hl, hform⟩ | ⟨hnone, hform⟩ :=
      Form.ofCommand_cases (n.leaf? Handler.identifierField)
    · rw [hform, ← resolve_listed hc]
      congr 1
      exact resolve_builtinRules_congr hk hl
    · rw [hform, resolve_unlisted hk hnone]
      rfl
  · obtain ⟨kind, fields, location⟩ := n
    cases kind <;> first | rfl | exact absurd rfl hk

namespace Compiler

/-- A compiler with the standard rules and some argument parsers. -/
def builtin (o : Options) (parsers : Parsers) : Compiler := ⟨o, parsers, builtinRules⟩

variable (o : Options) (parsers : Parsers)

/-- The choice of a rule does not depend on the argument parsers. -/
theorem exists_rule (n : Node) : ∃ name, ∀ parsers,
    ((builtin o parsers).part n).run = (do
      Drafting.note (.chosen n.kind name)
      n.form.handler parsers n (Fields.map (builtin o parsers).part n.fields)) := by
  obtain ⟨r, hr, haction⟩ := Option.map_eq_some_iff.1 (resolve_builtinRules n)
  refine ⟨r.name, fun parsers => ?_⟩
  rw [run_part, Dispatcher.dispatch]
  simp only [dispatcher, pure_bind, builtin, hr, ← haction]

/-- **The equation of compiling with the standard rules**: a note of the
choice, and what the handler of the form does. -/
theorem run_builtin (n : Node) : ∃ name,
    ((builtin o parsers).part n).run = (do
      Drafting.note (.chosen n.kind name)
      n.form.handler parsers n (Fields.map (builtin o parsers).part n.fields)) :=
  (exists_rule o n).imp fun _ h => h parsers

end Compiler

/-- The forms that the standard rules are for, in their order. -/
def Form.standard : List Form :=
  [.generic, .root] ++ Form.commands.map Prod.snd ++
    [.interpolation, .argumentInterpolation, .binary, .unary, .value, .identifier,
      .targetIdentifier, .formatString, .tuple, .list, .dict, .attributeOf, .lookup, .call,
      .assignment]

section

variable (m : Type → Type) [Monad m] [MonadExceptOf Compile.Failure m] [MonadLiftT Drafting m]
  [Compile.HasBlocks m]

/-- **The handlers of the standard rules** are those of forms, in every
monad. -/
theorem map_action_standardRules :
    (standardRules m).map Rule.action = Form.standard.map Form.handler := rfl

end

theorem exists_form_of_mem_standardRules {r : Rule Handler} (hr : r ∈ standardRules) :
    ∃ f : Form, r.action = f.handler := by
  have hmem := List.mem_map_of_mem (f := Rule.action) hr
  rw [map_action_standardRules] at hmem
  obtain ⟨f, -, hf⟩ := List.mem_map.1 hmem
  exact ⟨f, hf.symm⟩

end ScriptSplice
