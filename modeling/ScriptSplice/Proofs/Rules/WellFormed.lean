import ScriptSplice.Proofs.Rules.Keeping
/-!
# Well-formed trees

A tree is well formed (`Node.wellFormed`) if operands are there wherever
one is needed and are not statements, bodies are there and their commands
well formed, functions have signatures, parsers are known and imports name
something. `WellFormed.check` says what that is for one node, given what is
known of the nodes in its fields. What it demands of imports is what
reading them takes (`WellFormed.isOk_moduleOf`,
`WellFormed.isOk_importedNames`).
-/

namespace ScriptSplice

open Compile

/-- What is known of a node: whether it is well formed, and the same of
the nodes in its fields. -/
structure Verdict where
  node : Node
  ok : Bool
  fields : List (Field Verdict)

namespace Verdict

/-- Whether a node can stand where there is room for one fragment. -/
def isOperand (v : Verdict) : Bool := v.ok && !v.node.isStatement

/-- Whether a sequence of children can be compiled. -/
def areChildren (vs : List (Option Verdict)) : Bool := vs.all fun v => v.all Verdict.ok

/-- Whether a node can be the body of a command. -/
def isBody (v : Verdict) : Bool := areChildren (Fields.children v.fields (ascii "commands"))

end Verdict

namespace WellFormed

open Handler Verdict

variable (fields : Fields Verdict)

/-- The operand under a name is there. -/
def operand (name : String) : Bool := (Fields.child? fields (ascii name)).any isOperand

/-- Every operand of a sequence is there. -/
def operands (name : String) : Bool :=
  (Fields.children fields (ascii name)).all fun v => v.any isOperand

/-- The fields of a node that is rebuilt. -/
def rebuilt : Bool :=
  fields.all fun f =>
    match f.value with
    | .leaf _ => true
    | .child v => v.all isOperand
    | .children vs => areChildren vs

/-- The entries of a dictionary. -/
def entries : Bool :=
  (Fields.children fields (ascii "items")).all fun item =>
    item.all fun v => operand v.fields "key" && operand v.fields "value"

/-- An operand is there among the arguments. -/
def argument (i : Nat) : Bool := (Handler.argument fields i).any isOperand

/-- A body is there among the arguments. -/
def body (i : Nat) : Bool := (Handler.argument fields i).any isBody

/-- A signature: the defaults of its parameters are operands. -/
def isSignature (v : Verdict) : Bool :=
  v.node.kind == .functionSignature &&
    (Fields.children v.fields (ascii "arguments")).all fun p =>
      p.all fun v => (Fields.child? v.fields (ascii "default")).all isOperand

/-- An import names a module. -/
def namesModule (n : Node) : Bool :=
  (Handler.argument n.fields 0).any fun l =>
    l.kind == .resourceLocation && !(l.text (ascii "path")).isEmpty

/-- Whether a node gives a name to import. -/
def givesName (n : Option Node) : Bool := !(importedName n).isEmpty

/-- The links of a chain from one on. -/
def links : Node → List Node :=
  Node.fold fun link fields =>
    link :: if continuesChain link then (Handler.argument fields 1).getD [] else []

/-- A from-import has a chain of commands, one of which gives a name. -/
def namesImports (n : Node) : Bool :=
  let chain := (Handler.argument n.fields 1).elim [] links
  chain.all (·.kind == .command) && chain.any fun l => givesName (Handler.argument l.fields 0)

/-- **What a node demands of its parts.** -/
def check (parsers : Parsers) (n : Node) : Bool :=
  match n.form with
  | .generic | .root => rebuilt fields
  | .interpolation | .unary | .attributeOf => operand fields "value"
  | .argumentInterpolation =>
    parsers.contains (n.text (ascii "parser")) && operand fields "value"
  | .binary => operand fields "left" && operand fields "right"
  | .value | .identifier | .targetIdentifier => true
  | .formatString => operands fields "values"
  | .tuple | .list => operands fields "items"
  | .dict => entries fields
  | .lookup | .call => operand fields "value" && operands fields "arguments"
  | .assignment => operand fields "target" && operand fields "value"
  | .statement | .control _ => (Handler.argument fields 0).all isOperand
  | .function => (Handler.argument fields 0).any isSignature && body fields 1
  | .branch _ => argument fields 0 && body fields 1
  | .otherwise => body fields 0
  | .loop => argument fields 0 && (argument fields 1 && body fields 2)
  | .importModule => namesModule n
  | .importAs => namesModule n && givesName (Handler.argument n.fields 1)
  | .fromImport => namesModule n && namesImports n

end WellFormed

/-- The fields of a node are demanded one by one. -/
theorem WellFormed.rebuilt_eq (fields : Fields Verdict) :
    rebuilt fields = List.all fields fun f => rebuilt [f] := by
  simp only [rebuilt, List.all_cons, List.all_nil, Bool.and_true]

namespace Node

variable (parsers : Parsers)

/-- What is known of a node. -/
def verdict : Node → Verdict :=
  fold fun n fields => ⟨n, WellFormed.check fields parsers n, fields⟩

/-- **Well-formed trees**, given the argument parsers that are known. -/
def wellFormed (n : Node) : Bool := (n.verdict parsers).ok

theorem verdict_eq (n : Node) : n.verdict parsers =
    ⟨n, WellFormed.check (Fields.map (verdict parsers) n.fields) parsers n,
      Fields.map (verdict parsers) n.fields⟩ := by
  rw [verdict, fold_eq]

@[simp] theorem node_verdict (n : Node) : (n.verdict parsers).node = n := by rw [verdict_eq]

@[simp] theorem fields_verdict (n : Node) :
    (n.verdict parsers).fields = Fields.map (verdict parsers) n.fields := by rw [verdict_eq]

@[simp] theorem ok_verdict (n : Node) : (n.verdict parsers).ok = n.wellFormed parsers := rfl

/-- **The equation of well-formedness.** -/
theorem wellFormed_eq (n : Node) : n.wellFormed parsers =
    WellFormed.check (Fields.map (verdict parsers) n.fields) parsers n := by
  rw [wellFormed, verdict_eq]

end Node

/-! ## Imports -/

namespace WellFormed

open Handler

theorem isOk_moduleOf (n : Node) : (moduleOf n).isOk = namesModule n := by
  unfold moduleOf namesModule
  cases Handler.argument n.fields 0 with
  | none => rfl
  | some l =>
    by_cases hk : l.kind = .resourceLocation
    · cases hp : (l.text (ascii "path")).isEmpty <;> simp [hk, hp] <;> rfl
    · rw [Option.any_some, beq_false_of_ne hk, Bool.false_and]
      simp only [ne_eq, hk, not_false_eq_true, if_true]
      rfl

theorem links_eq (n : Node) : links n =
    n :: if continuesChain n then (Handler.argument n.fields 1).elim [] links else [] := by
  rw [links, Node.fold_eq, Handler.argument_map]
  cases Handler.argument n.fields 1 <;> rfl

/-- The names that follow a link of a chain. -/
def namesAfter (n : Node) : Except Failure (List Text) :=
  if continuesChain n then (Handler.argument n.fields 1).elim (pure []) chainNames else pure []

theorem chainNames_eq (n : Node) : chainNames n =
    if n.kind ≠ .command then throw ⟨.brokenChain, n.location⟩
    else (namesAfter n).map fun rest =>
      if (importedName (Handler.argument n.fields 0)).isEmpty then rest
      else importedName (Handler.argument n.fields 0) :: rest := by
  rw [chainNames, Node.fold_eq, Handler.argument_map, namesAfter]
  by_cases hk : n.kind = .command
  · rw [if_neg (not_not_intro hk), if_neg (not_not_intro hk)]
    cases continuesChain n with
    | false => rfl
    | true => cases Handler.argument n.fields 1 <;> rfl
  · rw [if_pos hk, if_pos hk]

/-- The names of a chain are there if all its links are commands. -/
theorem chainNames_spec (n : Node) :
    match chainNames n with
    | .error _ => (links n).all (·.kind == .command) = false
    | .ok names => (links n).all (·.kind == .command) = true ∧
      names.isEmpty = !(links n).any fun l => givesName (Handler.argument l.fields 0) := by
  induction n using Node.induction with
  | step n ih =>
    -- the links behind this one are those of the next, or there are none
    have hrest : match namesAfter n with
        | .error _ => (links n).tail.all (·.kind == .command) = false
        | .ok names => (links n).tail.all (·.kind == .command) = true ∧
          names.isEmpty = !(links n).tail.any fun l =>
            givesName (Handler.argument l.fields 0) := by
      rw [links_eq, List.tail_cons, namesAfter]
      cases continuesChain n with
      | false => exact ⟨rfl, rfl⟩
      | true =>
        cases hm : Handler.argument n.fields 1 with
        | none => exact ⟨rfl, rfl⟩
        | some m => exact ih m (Handler.mem_nodes_of_argument hm)
    have hlinks : links n = n :: (links n).tail := by rw [links_eq, List.tail_cons]
    rw [chainNames_eq, hlinks, List.all_cons, List.any_cons]
    by_cases hk : n.kind = .command
    · rw [if_neg (not_not_intro hk), hk, beq_self_eq_true, Bool.true_and]
      rcases hnames : namesAfter n with e | names <;> rw [hnames] at hrest
      · exact hrest
      · refine ⟨hrest.1, ?_⟩
        rw [Bool.not_or, ← hrest.2, givesName, Bool.not_not]
        cases (importedName (Handler.argument n.fields 0)).isEmpty <;> rfl
    · rw [if_pos hk, beq_false_of_ne hk]
      exact Bool.false_and _

theorem isOk_importedNames (n : Node) : (importedNames n).isOk = namesImports n := by
  unfold importedNames namesImports
  cases hm : Handler.argument n.fields 1 with
  | none => rfl
  | some m =>
    have hspec := chainNames_spec m
    simp only [Option.elim_some]
    rcases hnames : chainNames m with e | names <;> rw [hnames] at hspec
    · rw [hspec]
      rfl
    · rw [hspec.1, Bool.true_and]
      have hempty := hspec.2
      cases hany : (links m).any fun l => givesName (Handler.argument l.fields 0) <;>
        rw [hany] at hempty <;> simp only [hempty, Except.bind, bind] <;> rfl

end WellFormed

end ScriptSplice
