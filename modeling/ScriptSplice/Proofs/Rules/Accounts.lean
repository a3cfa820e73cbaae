import ScriptSplice.Proofs.Rules.AccountSplicing
import ScriptSplice.Proofs.Rules.Twin
/-!
# The rules keep account

Every standard handler balances if compiling the parts of its node does:
its lines are the statements of the commands that the tree says
(`Node.emitters`), every reference it makes is in them or in the fragment
it gives, and the texts it takes from its node are those that the node
lends (`Node.Lends`). By induction over the tree, compiling any node
balances (`Compiler.balances_part`).
-/

namespace ScriptSplice

open Compile Handler

/-! ## What nodes lend -/

namespace Node

variable (n : Node)

/-- The texts that the rule for a node writes as they stand. -/
def words : List Text :=
  match n.form with
  | .generic | .root => n.fields.map (·.name)
  | .identifier | .targetIdentifier => [n.text (ascii "value")]
  | .binary | .unary => [operatorOf n]
  | .assignment => [n.text (ascii "operator")]
  | .control keyword | .branch keyword => [ascii keyword]
  | .function =>
    (n.argumentNodes 0).flatMap fun signature => signature.text (ascii "name") ::
      (signature.sequenceNodes "arguments").map (·.text (ascii "name"))
  | .importModule => (moduleOf n).toOption.toList.flatMap fun m => [m.path, m.lastPart]
  | .importAs => importedName (argument n.fields 1) :: (moduleOf n).toOption.toList.map (·.path)
  | .fromImport =>
    (importedNames n).toOption.getD [] ++ (moduleOf n).toOption.toList.map (·.path)
  | _ => []

/-- The texts that the rule for a node quotes. -/
def quotes : List Text :=
  match n.form with
  | .value => ((n.leaf? (ascii "value")).getD .nil).quotes
  | .formatString => [n.text (ascii "fmt")]
  | .attributeOf => [n.text (ascii "name")]
  | .importModule | .importAs => (moduleOf n).toOption.toList.map (·.target)
  | .fromImport =>
    (importedNames n).toOption.getD [] ++ (moduleOf n).toOption.toList.map (·.target)
  | _ => []

/-- **A node lends to a stock** itself, its texts, and the children that
are missing from its sequences. -/
structure Lends (S : Stock) (n : Node) : Prop where
  entry : S.entry (some n)
  words : ∀ t ∈ n.words, S.word t
  quotes : ∀ t ∈ n.quotes, S.quoted t
  missing : ∀ f ∈ n.fields, ∀ cs, f.value = .children cs → none ∈ cs → S.entry none

variable {S : Stock} {n}

theorem Lends.missing_children (h : n.Lends S) {name : Text} (hnone : none ∈ n.children name) :
    S.entry none := by
  unfold children Fields.children at hnone
  split at hnone
  · rename_i cs hv
    obtain ⟨f, hf, hfv⟩ := Fields.exists_of_value? hv
    exact h.missing f hf cs hfv hnone
  · exact absurd hnone List.not_mem_nil

end Node

variable {S : Stock} {c : Compiler} {n m : Node} (parsers : Parsers)

/-! ## What rules do with parts -/

namespace Compile.Balances

/-- The one fragment of a part. -/
theorem single? (h : c.Accountable S m) :
    Balances S [] m.emitters Option.toList (single? (c.part m)) := by
  refine h.balances.next fun r => ?_
  match r with
  | none => exact pure (by simp)
  | some [e] => exact pure (by simp)
  | some [] => exact throw _
  | some (e :: f :: es) => exact throw _

/-- An operand that may be absent. -/
theorem operand? {child : Option Node} (h : ∀ m, child = some m → c.Accountable S m) :
    Balances S [] (child.toList.flatMap Node.emitters) Option.toList
      (operand? (child.map c.part)) := by
  cases child with
  | none => exact pure (by simp)
  | some m =>
    rw [Option.toList_some, List.flatMap_singleton]
    exact single? (h m rfl)

/-- An operand that has to be there. -/
theorem required {child : Option Node} (h : ∀ m, child = some m → c.Accountable S m) :
    Balances S [] (child.toList.flatMap Node.emitters) (fun e => [e])
      (required (child.map c.part)) := by
  cases child with
  | none => exact throw _
  | some m =>
    rw [Option.toList_some, List.flatMap_singleton]
    refine (single? (h m rfl)).next fun r => ?_
    cases r with
    | none =>
      rw [c.node_part]
      exact ref (h m rfl).entry
    | some e => exact pure (by simp)

/-- The commands of a body. -/
theorem body (hm : m.Lends S) (hchildren : ∀ k ∈ m.descendants, c.Accountable S k) :
    Balances S [] ((m.sequenceNodes "commands").flatMap Node.emitters) (fun _ => [])
      (body .command m (Fields.map c.part m.fields)) := by
  unfold Compile.body
  rw [Fields.children_map]
  refine (splice_commands _ (fun k hk => hchildren k (Node.mem_descendants_of_mem_children hk))
    hm.missing_children).next fun r => ?_
  cases r with
  | none =>
    refine (ref hm.entry).next fun e => ?_
    exact emit rfl (by simp [Stmt.atoms])
  | some e => exact pure (by simp)

end Compile.Balances

/-! ## The handlers -/

namespace Handler

section Parts

variable (ih : ∀ m ∈ n.descendants, c.Accountable S m)

include ih

/-- The operand under a name. -/
theorem balances_operand (name : String) :
    Compile.Balances S [] ((n.childNodes name).flatMap Node.emitters) (fun e => [e])
      (operand (Fields.map c.part n.fields) name) := by
  unfold operand
  rw [Fields.child?_map]
  exact .required fun m hm =>
    ih m (Node.mem_descendants_of_mem_parts (Fields.mem_nodes_of_child? hm))

/-- The operands of a sequence. -/
theorem balances_operands (name : String) :
    Compile.Balances S [] ((n.sequenceNodes name).flatMap Node.emitters) id
      (operands (Fields.map c.part n.fields) name) := by
  unfold operands
  rw [Fields.children_map, List.mapM_map, Node.sequenceNodes, ← flatMap_toList_emitters]
  refine (Compile.Balances.mapM (fun e => [e]) _ fun child hchild => ?_).mono
    fun es => by simp
  exact .required fun m hm => ih m (Node.mem_descendants_of_mem_children (hm ▸ hchild))

/-- An operand among the arguments. -/
theorem balances_required (i : Nat) :
    Compile.Balances S [] ((n.argumentNodes i).flatMap Node.emitters) (fun e => [e])
      (required (argument (Fields.map c.part n.fields) i)) := by
  rw [argument_map]
  exact .required fun m hm =>
    ih m (Node.mem_descendants_of_mem_parts (mem_nodes_of_argument hm))

end Parts

/-- A fragment in brackets. -/
theorem balances_bracket {es : List Expr} {e : Expr}
    (hatoms : Atom.Remade S (Expr.atomsAll es) e.atoms) :
    Compile.Balances S es [] (·.getD []) (bracket n e) :=
  .pure (by simpa [Expr.atoms] using hatoms)

/-! ### Expressions -/

section Expressions

variable (ih : ∀ m ∈ n.descendants, c.Accountable S m)

include ih

theorem balances_interpolation (hentry : S.entry (some n)) :
    Compile.Balances S [] ((n.childNodes "value").flatMap Node.emitters) (·.getD [])
      (interpolation parsers n (Fields.map c.part n.fields)) := by
  refine (balances_operand ih "value").next fun value => ?_
  refine (Compile.Balances.ref hentry).next fun here => ?_
  exact (Compile.Balances.apply _ [] (by simp)).next fun e => balances_bracket (by simp)

theorem balances_argumentInterpolation (hentry : S.entry (some n)) :
    Compile.Balances S [] ((n.childNodes "value").flatMap Node.emitters) (·.getD [])
      (argumentInterpolation parsers n (Fields.map c.part n.fields)) := by
  by_cases hparser : parsers.contains (n.text (ascii "parser"))
  · simp only [argumentInterpolation, hparser]
    refine (balances_operand ih "value").next fun value => ?_
    refine (Compile.Balances.ref hentry).next fun here => ?_
    -- the node is an argument of both calls
    refine (Compile.Balances.apply _ [here] (by grind [Atom.Remade])).next fun converted => ?_
    refine (Compile.Balances.apply _ [] (by grind [Atom.Remade])).next fun e => ?_
    exact balances_bracket (by simp)
  · simp only [argumentInterpolation, hparser]
    exact .throw _

theorem balances_binary (hword : S.word (operatorOf n)) :
    Compile.Balances S [] ((n.childNodes "left" ++ n.childNodes "right").flatMap Node.emitters)
      (·.getD []) (binary parsers n (Fields.map c.part n.fields)) := by
  rw [List.flatMap_append]
  refine (balances_operand ih "left").bind fun left => ?_
  refine ((balances_operand ih "right").frame [left]).next fun right => balances_bracket ?_
  grind [Atom.Remade, Atom.Lent, Expr.atoms]

theorem balances_unary (hword : S.word (operatorOf n)) :
    Compile.Balances S [] ((n.childNodes "value").flatMap Node.emitters) (·.getD [])
      (unary parsers n (Fields.map c.part n.fields)) := by
  refine (balances_operand ih "value").next fun value => balances_bracket ?_
  grind [Atom.Remade, Atom.Lent, Expr.atoms]

omit ih in
/-- A text that is an expression as it stands. -/
theorem remade_verbatim {t : Text} (hword : S.word t) :
    Atom.Remade S [] (Expr.verbatim t).atoms := by
  grind [Atom.Remade, Atom.Lent, Expr.atoms]

omit ih in
theorem balances_value (parts : Fields Part)
    (hquotes : ∀ t ∈ ((n.leaf? (ascii "value")).getD .nil).quotes, S.quoted t) :
    Compile.Balances S [] [] (·.getD []) (value parsers n parts) := by
  refine .pure ?_
  simp only [Option.getD_some, Expr.atomsAll_cons, Expr.atomsAll_nil, List.append_nil, Expr.atoms]
  refine ⟨fun a ha => ?_, by simp⟩
  obtain ⟨t, ht, rfl⟩ := List.mem_map.1 ha
  exact .inr (hquotes t ht)

omit ih in
theorem balances_identifier (parts : Fields Part) (hword : S.word (n.text (ascii "value"))) :
    Compile.Balances S [] [] (·.getD []) (identifier parsers n parts) :=
  balances_bracket (remade_verbatim hword)

omit ih in
theorem balances_targetIdentifier (parts : Fields Part) (hword : S.word (n.text (ascii "value"))) :
    Compile.Balances S [] [] (·.getD [])
      (targetIdentifier parsers n parts) :=
  .pure (by simpa using remade_verbatim hword)

theorem balances_formatString (hquoted : S.quoted (n.text (ascii "fmt"))) :
    Compile.Balances S [] ((n.sequenceNodes "values").flatMap Node.emitters) (·.getD [])
      (formatString parsers n (Fields.map c.part n.fields)) := by
  refine (balances_operands ih "values").next fun values => balances_bracket ?_
  grind [Atom.Remade, Atom.Lent, Expr.atoms]

theorem balances_tuple :
    Compile.Balances S [] ((n.sequenceNodes "items").flatMap Node.emitters) (·.getD [])
      (tuple parsers n (Fields.map c.part n.fields)) :=
  (balances_operands ih "items").next fun _ => balances_bracket (.refl S _)

theorem balances_list :
    Compile.Balances S [] ((n.sequenceNodes "items").flatMap Node.emitters) (·.getD [])
      (list parsers n (Fields.map c.part n.fields)) :=
  (balances_operands ih "items").next fun _ => balances_bracket (.refl S _)

/-- An entry of a dictionary is not compiled itself; its key and its value
are. -/
theorem balances_entry (hm : m ∈ n.descendants) :
    Compile.Balances S [] ((m.childNodes "key" ++ m.childNodes "value").flatMap Node.emitters)
      (fun e => [e]) (entry (c.part m)) := by
  have hbelow : ∀ k ∈ m.descendants, c.Accountable S k := fun k hk =>
    ih k (Node.descendants_trans hm hk)
  unfold entry
  rw [c.fields_part, List.flatMap_append]
  refine (balances_operand hbelow "key").bind fun key => ?_
  refine ((balances_operand hbelow "value").frame [key]).next fun value => .pure ?_
  simp [Expr.atoms]

theorem balances_dict :
    Compile.Balances S []
      (((n.sequenceNodes "items").flatMap fun item =>
        item.childNodes "key" ++ item.childNodes "value").flatMap Node.emitters)
      (·.getD []) (dict parsers n (Fields.map c.part n.fields)) := by
  simp only [dict, Fields.filterMap_children, List.mapM_map]
  rw [List.flatMap_assoc]
  refine (Compile.Balances.mapM (fun e => [e]) _ fun m hm => ?_).next fun items => ?_
  · exact balances_entry ih (Node.mem_descendants_of_sequenceNodes hm)
  · exact balances_bracket (by simp [Expr.atoms])

theorem balances_attributeOf (hquoted : S.quoted (n.text (ascii "name"))) :
    Compile.Balances S [] ((n.childNodes "value").flatMap Node.emitters) (·.getD [])
      (attributeOf parsers n (Fields.map c.part n.fields)) := by
  refine (balances_operand ih "value").next fun value => ?_
  refine (Compile.Balances.apply _ [] ?_).next fun e => balances_bracket (by simp)
  grind [Atom.Remade, Atom.Lent, Expr.atoms, Leaf.quotes]

theorem balances_lookup :
    Compile.Balances S [] ((n.childNodes "value" ++ n.sequenceNodes "arguments").flatMap
      Node.emitters) (·.getD []) (lookup parsers n (Fields.map c.part n.fields)) := by
  rw [List.flatMap_append]
  refine (balances_operand ih "value").bind fun base => ?_
  refine ((balances_operands ih "arguments").frame [base]).next fun args => ?_
  exact balances_bracket (by simp [Expr.atoms])

theorem balances_call :
    Compile.Balances S [] ((n.childNodes "value" ++ n.sequenceNodes "arguments").flatMap
      Node.emitters) (·.getD []) (call parsers n (Fields.map c.part n.fields)) := by
  rw [List.flatMap_append]
  refine (balances_operand ih "value").bind fun base => ?_
  refine ((balances_operands ih "arguments").frame [base]).next fun args => ?_
  exact balances_bracket (by simp [Expr.atoms])

theorem balances_assignment (hword : S.word (n.text (ascii "operator"))) :
    Compile.Balances S [] ((n.childNodes "target" ++ n.childNodes "value").flatMap Node.emitters)
      (·.getD []) (assignment parsers n (Fields.map c.part n.fields)) := by
  rw [List.flatMap_append]
  refine (balances_operand ih "target").bind fun target => ?_
  refine ((balances_operand ih "value").frame [target]).next fun value => .pure ?_
  grind [Atom.Remade, Atom.Lent, Expr.atoms]

end Expressions

/-! ### Statements -/

section Statements

variable (ih : ∀ m ∈ n.descendants, c.Accountable S m)

include ih

/-- A statement that comes to nothing is not written. -/
theorem balances_expressionStatement (hform : n.form = .statement)
    (hgives : ∀ m ∈ n.descendants, Yields (c.part m).run m.Gives) :
    Compile.Balances S []
      ((n.argumentNodes 0).flatMap Node.emitters ++
        if (n.argumentNodes 0).any Node.hasDynamic then [n] else [])
      (·.getD []) (expressionStatement parsers n (Fields.map c.part n.fields)) := by
  have hbelow : ∀ m, argument n.fields 0 = some m → m ∈ n.descendants := fun m hm =>
    Node.mem_descendants_of_mem_parts (mem_nodes_of_argument hm)
  unfold expressionStatement
  rw [argument_map]
  refine (Compile.Balances.operand? fun m hm => ih m (hbelow m hm)).bind_of_ok
    fun r d d' hrun => ?_
  have hdynamic : r = none ↔ ∀ m ∈ argument n.fields 0, m.hasDynamic = false :=
    yields_operand? (fun m hm => hgives m (hbelow m hm)) d r d' hrun
  have hany : (n.argumentNodes 0).any Node.hasDynamic = true ↔ r ≠ none := by
    rw [Ne, hdynamic]
    simp [Node.argumentNodes, List.any_eq_true]
  cases r with
  | none =>
    rw [if_neg (by simp [hany])]
    exact .pure (by simp)
  | some e =>
    rw [if_pos (hany.2 (by simp))]
    exact .statement (.eval e hform) (by simp [Stmt.atoms]) (.pure (by simp))

theorem balances_control {keyword : String} (hform : n.form = .control keyword)
    (hword : S.word (ascii keyword)) :
    Compile.Balances S [] ((n.argumentNodes 0).flatMap Node.emitters ++ [n]) (·.getD [])
      (control keyword parsers n (Fields.map c.part n.fields)) := by
  have hrest (operand : Option Expr) : Compile.Balances S operand.toList [n] (·.getD [])
      (do Drafting.mark n.location; Drafting.emit (.control (ascii keyword) operand)
          return some []) := by
    refine .statement (.control operand hform) ?_ (.pure (by simp))
    cases operand <;> grind [Atom.Remade, Atom.Lent, Stmt.atoms]
  have hrequired := balances_required ih 0
  unfold control
  rw [Node.argumentNodes, argument_map] at hrequired ⊢
  cases hm : argument n.fields 0 with
  | none => exact hrest none
  | some m =>
    rw [hm] at hrequired
    have hsome : Compile.Balances S [] ((some m).toList.flatMap Node.emitters) Option.toList
        (some <$> required (some (c.part m))) := hrequired.next fun e => .pure (by simp)
    exact hsome.bind hrest

/-- The body among the arguments. -/
theorem balances_body (hlends : ∀ m ∈ n.descendants, m.Lends S) (i : Nat) :
    Compile.Balances S [] ((n.bodyNodes i).flatMap Node.emitters) (fun _ => [])
      (bodyOf (argument (Fields.map c.part n.fields) i)) := by
  rw [argument_map, Node.bodyNodes, Node.argumentNodes]
  cases hm : argument n.fields i with
  | none => exact .throw _
  | some m =>
    have hbelow := Node.mem_descendants_of_mem_parts (mem_nodes_of_argument hm)
    rw [Option.map_some, bodyOf, c.node_part, c.fields_part, Option.toList_some,
      List.flatMap_singleton]
    exact .body (hlends m hbelow) fun k hk => ih k (Node.descendants_trans hbelow hk)

theorem balances_branch {keyword : String} (hform : n.form = .branch keyword)
    (hword : S.word (ascii keyword)) (hlends : ∀ m ∈ n.descendants, m.Lends S) :
    Compile.Balances S []
      ((n.argumentNodes 0).flatMap Node.emitters ++ n :: (n.bodyNodes 1).flatMap Node.emitters)
      (·.getD []) (branch keyword parsers n (Fields.map c.part n.fields)) := by
  refine (balances_required ih 0).bind fun condition => ?_
  refine .statement (.branch condition hform) ?_ ?_
  · grind [Atom.Remade, Atom.Lent, Stmt.atoms]
  · exact (balances_body ih hlends 1).inBlock.next fun _ => .pure (by simp)

theorem balances_otherwise (hform : n.form = .otherwise)
    (hlends : ∀ m ∈ n.descendants, m.Lends S) :
    Compile.Balances S [] (n :: (n.bodyNodes 0).flatMap Node.emitters)
      (·.getD []) (otherwise parsers n (Fields.map c.part n.fields)) :=
  .statement (.otherwise hform) (by simp [Stmt.atoms])
    ((balances_body ih hlends 0).inBlock.next fun _ => .pure (by simp))

theorem balances_loop (hform : n.form = .loop) (hlends : ∀ m ∈ n.descendants, m.Lends S) :
    Compile.Balances S []
      ((n.argumentNodes 0 ++ n.argumentNodes 1).flatMap Node.emitters ++
        n :: (n.bodyNodes 2).flatMap Node.emitters)
      (·.getD []) (loop parsers n (Fields.map c.part n.fields)) := by
  rw [List.flatMap_append, List.append_assoc]
  refine (balances_required ih 0).bind fun target => ?_
  refine ((balances_required ih 1).frame [target]).bind fun iterable => ?_
  refine .statement (.loop target iterable hform) (by simp [Stmt.atoms]) ?_
  exact (balances_body ih hlends 2).inBlock.next fun _ => .pure (by simp)

/-! ### Functions -/

omit ih in
/-- The names of the parameters are in hand until the head is written. -/
theorem balances_declare {parameters : List Node}
    (hwords : ∀ p ∈ parameters, S.word (p.text (ascii "name"))) :
    Compile.Balances S [] [] (·.map fun p => .verbatim p.1)
      (liftM ((parameters.map c.part).mapM declare : Drafting _)) := by
  rw [liftM_mapM, List.mapM_map]
  have hdeclared : Compile.Balances S [] (parameters.flatMap fun _ => [])
      (·.flatMap fun p => [.verbatim p.1])
      (parameters.mapM fun p => (liftM (declare (c.part p)) : Compile (Text × Bool))) := by
    refine .mapM _ parameters fun p hp => ?_
    have hname : Atom.Remade S [] (Expr.verbatim (parameterName (c.part p))).atoms := by
      rw [parameterName, c.node_part]
      exact remade_verbatim (hwords p hp)
    unfold declare
    split
    · exact (Compile.Balances.use .missing).bind fun _ => .pure (by simpa using hname)
    · exact .pure (by simpa using hname)
  have hnone : (parameters.flatMap fun _ => ([] : List Node)) = [] := by simp
  rw [hnone] at hdeclared
  exact hdeclared.mono fun declared => List.map_eq_flatMap

omit ih in
/-- The head of a function is made of its name and those in hand. -/
theorem remade_define {name : Text} (hname : S.word name) (declared : List (Text × Bool)) :
    Atom.Remade S (Expr.atomsAll (declared.map fun p => .verbatim p.1))
      (Stmt.define name declared).atoms := by
  have hatoms : Expr.atomsAll (declared.map fun p => .verbatim p.1) =
      declared.map fun p => .word p.1 := by
    rw [Expr.atomsAll_eq, List.flatMap_map, List.map_eq_flatMap]
    rfl
  rw [hatoms, Stmt.atoms]
  grind [Atom.Remade, Atom.Lent]

/-- The block for a parameter that was not given. -/
theorem balances_supplyDefault (hm : m ∈ n.descendants) (hname : S.word (m.text (ascii "name"))) :
    Compile.Balances S [] ((m.childNodes "default").flatMap Node.emitters) (fun _ => [])
      (supplyDefault (c.part m)) := by
  have hword : Atom.Remade S [] [.word (m.text (ascii "name"))] := by
    grind [Atom.Remade, Atom.Lent]
  have hdefault : parameterDefault (c.part m) = (m.child? (ascii "default")).map c.part := by
    rw [parameterDefault, c.fields_part, Fields.child?_map]
    rfl
  unfold supplyDefault
  rw [hdefault, parameterName, c.node_part, Node.childNodes]
  cases hd : m.child? (ascii "default") with
  | none => exact .pure (by simp)
  | some value =>
    have hvalue := ih value (Node.descendants_trans hm
      (Node.mem_descendants_of_mem_parts (Fields.mem_nodes_of_child? hd)))
    refine (Compile.Balances.emit rfl hword).bind fun _ => .inBlock ?_
    have hrequired : Compile.Balances S [] ((some value).toList.flatMap Node.emitters)
        (fun e => [e]) (required ((some value).map c.part)) :=
      .required (by rintro _ ⟨⟩; exact hvalue)
    refine hrequired.next fun e => .emit rfl ?_
    grind [Atom.Remade, Atom.Lent, Stmt.atoms]

theorem balances_function (hform : n.form = .function) (hwords : ∀ t ∈ n.words, S.word t)
    (hlends : ∀ m ∈ n.descendants, m.Lends S) :
    Compile.Balances S []
      (n :: (((n.argumentNodes 0).flatMap (Node.sequenceNodes · "arguments")).flatMap
        (Node.childNodes · "default") ++ n.bodyNodes 1).flatMap Node.emitters)
      (·.getD []) (function parsers n (Fields.map c.part n.fields)) := by
  have hsignature : Compile.Balances S [] [] (fun _ => [])
      (signatureOf n (Fields.map c.part n.fields)) := by
    unfold signatureOf
    split
    · split
      · exact .pure (by simp)
      · exact .throw _
    · exact .throw _
  refine hsignature.andThen fun signature d d' hrun => ?_
  have hargument := argument_of_signatureOf hrun
  rw [argument_map] at hargument
  obtain ⟨m, hm, rfl⟩ := Option.map_eq_some_iff.1 hargument
  have hbelow := Node.mem_descendants_of_mem_parts (mem_nodes_of_argument hm)
  have hparameters : ∀ p ∈ m.sequenceNodes "arguments", p ∈ n.descendants := fun p hp =>
    Node.descendants_trans hbelow (Node.mem_descendants_of_sequenceNodes hp)
  simp only [Node.words, hform, Node.argumentNodes, hm, Option.toList_some, List.flatMap_singleton,
    List.forall_mem_cons, List.forall_mem_map] at hwords
  simp only [parametersOf, c.fields_part, c.node_part, Fields.filterMap_children]
  refine (balances_declare hwords.2).bind fun declared => ?_
  refine .statement (.define declared hform hm) (remade_define hwords.1 declared) ?_
  rw [Node.argumentNodes, hm, Option.toList_some, List.flatMap_singleton, List.flatMap_append,
    List.flatMap_assoc]
  refine (Compile.Balances.bind ?_ fun _ => balances_body ih hlends 1).inBlock.next
    fun _ => .pure (by simp)
  rw [List.forM_eq_forM, List.forM_map]
  exact .forM _ fun p hp => balances_supplyDefault ih (hparameters p hp) (hwords.2 p hp)

end Statements

/-! ### Imports -/

section Imports

variable (parts : Fields Part) (hlends : n.Lends S)

include hlends

theorem balances_importModule (hform : n.form = .importModule) :
    Compile.Balances S [] [n] (·.getD [])
      (importModule parsers n parts) := by
  refine (Compile.Balances.read _).andThen fun m d d' hrun => ?_
  have hm : moduleOf n = .ok m := (Prod.mk.inj (exec_liftExcept _ _ ▸ hrun)).1
  have hwords := hlends.words
  have hquotes := hlends.quotes
  simp only [Node.words, Node.quotes, hform, hm, Except.toOption, Option.toList_some,
    List.flatMap_singleton, List.map_singleton, List.forall_mem_cons] at hwords hquotes
  simp only
  split
  · refine .statement_use _ (.bindModule hform hm) ?_ (.pure (by simp))
    grind [Atom.Remade, Atom.Lent, Stmt.atoms]
  · refine .statement (.importNative hform hm) ?_ (.pure (by simp))
    grind [Atom.Remade, Atom.Lent, Stmt.atoms]

theorem balances_importAs (hform : n.form = .importAs) :
    Compile.Balances S [] [n] (·.getD []) (importAs parsers n parts) := by
  refine (Compile.Balances.read _).andThen fun m d d' hrun => ?_
  have hm : moduleOf n = .ok m := (Prod.mk.inj (exec_liftExcept _ _ ▸ hrun)).1
  have hwords := hlends.words
  have hquotes := hlends.quotes
  simp only [Node.words, Node.quotes, hform, hm, Except.toOption, Option.toList_some,
    List.map_singleton, List.forall_mem_cons] at hwords hquotes
  simp only
  split
  · exact .throw _
  · split
    · refine .statement_use _ (.bindModuleAs hform hm) ?_ (.pure (by simp))
      grind [Atom.Remade, Atom.Lent, Stmt.atoms]
    · refine .statement (.importNativeAs hform hm) ?_ (.pure (by simp))
      grind [Atom.Remade, Atom.Lent, Stmt.atoms]

theorem balances_fromImport (hform : n.form = .fromImport) :
    Compile.Balances S [] [n] (·.getD []) (fromImport parsers n parts) := by
  refine (Compile.Balances.read _).andThen fun m d d' hrun => ?_
  have hm : moduleOf n = .ok m := (Prod.mk.inj (exec_liftExcept _ _ ▸ hrun)).1
  refine (Compile.Balances.read _).andThen fun names e e' hread => ?_
  have hnames : importedNames n = .ok names := (Prod.mk.inj (exec_liftExcept _ _ ▸ hread)).1
  have hwords := hlends.words
  have hquotes := hlends.quotes
  simp only [Node.words, Node.quotes, hform, hm, hnames, Except.toOption, Option.toList_some,
    Option.getD_some, List.map_singleton, List.forall_mem_append] at hwords hquotes
  split
  · refine .statement_use _ (.bindNames hform hm hnames) ?_ (.pure (by simp))
    grind [Atom.Remade, Atom.Lent, Stmt.atoms]
  · refine .statement (.fromNative hform hm hnames) ?_ (.pure (by simp))
    grind [Atom.Remade, Atom.Lent, Stmt.atoms]

end Imports

/-! ### Rebuilding -/

/-- The new value of a field is in hand under its name. -/
theorem balances_changedField (collection : Collection) {f : Field Node}
    (hparts : ∀ m ∈ f.value.nodes, c.Accountable S m) (hword : S.word f.name)
    (hmissing : ∀ cs, f.value = .children cs → none ∈ cs → S.entry none) :
    Compile.Balances S [] (f.value.nodes.flatMap Node.emitters)
      (fun r => r.toList.map fun f => .keyword f.1 f.2)
      (changedField collection (f.map c.part)) := by
  have hnamed (e : Option Expr) : Atom.Remade S (Expr.atomsAll e.toList)
      (Expr.atomsAll ((e.map (f.name, ·)).toList.map fun f => .keyword f.1 f.2)) := by
    cases e <;> grind [Atom.Remade, Atom.Lent, Expr.atoms]
  obtain ⟨name, value⟩ := f
  unfold changedField
  cases value with
  | leaf l => exact .pure (by simp)
  | child child =>
    refine (Compile.Balances.operand? fun m hm => hparts m ?_).next fun e => .pure (hnamed e)
    simp [hm, Value.nodes]
  | children cs =>
    refine (Compile.Balances.splice collection cs (fun m hm => hparts m ?_)
      (hmissing cs rfl)).next fun e => .pure (hnamed e)
    simpa [Value.nodes] using hm

theorem balances_rebuild (collection : Collection)
    (ih : ∀ m ∈ n.descendants, c.Accountable S m)
    (hlends : n.Lends S) (hwords : ∀ f ∈ n.fields, S.word f.name) :
    Compile.Balances S [] (n.parts.flatMap Node.emitters) (·.getD [])
      (rebuild collection parsers n (Fields.map c.part n.fields)) := by
  have hchanges : Compile.Balances S [] (n.parts.flatMap Node.emitters)
      (fun changes => (changes.filterMap id).map fun f => .keyword f.1 f.2)
      ((Fields.map c.part n.fields).mapM (changedField collection)) := by
    rw [Fields.map, List.mapM_map, Node.parts, Fields.nodes, List.flatMap_assoc]
    refine (Compile.Balances.mapM (fun r => r.toList.map fun f => .keyword f.1 f.2)
      n.fields fun f hf => ?_).mono fun changes => ?_
    · refine balances_changedField collection (fun m hm => ih m ?_) (hwords f hf)
        (hlends.missing f hf)
      exact Node.mem_descendants_of_mem_parts (Fields.mem_nodes hf hm)
    · induction changes with
      | nil => rfl
      | cons change changes ih =>
        rw [List.flatMap_cons, ← ih]
        cases change <;> rfl
  unfold rebuild Compile.rebuild
  rw [bind_assoc]
  refine hchanges.next fun changes => ?_
  cases changes.filterMap id with
  | nil => exact .pure (by simp)
  | cons f fs =>
    simp only [bind_assoc, pure_bind]
    refine (Compile.Balances.ref hlends.entry).next fun here => ?_
    refine (Compile.Balances.apply .replace [] ?_).next fun e => .pure (by simp)
    grind [Atom.Remade]

end Handler

/-! ## Compiling a node -/

/-- **The standard handlers keep account.** -/
theorem Form.balances (hlends : ∀ m ∈ n.subtree, m.Lends S)
    (ih : ∀ m ∈ n.descendants, c.Accountable S m)
    (hgives : ∀ m ∈ n.descendants, Yields (c.part m).run m.Gives) :
    Compile.Balances S [] n.emitters (·.getD [])
      (n.form.handler parsers n (Fields.map c.part n.fields)) := by
  have hn := hlends n (Node.mem_subtree_self n)
  have hbelow : ∀ m ∈ n.descendants, m.Lends S := fun m hm =>
    hlends m (Node.mem_subtree.2 (.inr hm))
  have hwords := hn.words
  have hquotes := hn.quotes
  unfold Node.words at hwords
  unfold Node.quotes at hquotes
  rw [Node.emitters_eq]
  cases hform : n.form <;>
    simp only [hform, Node.ahead, Node.inside, Node.writes, Form.isStatement, List.flatMap_nil,
      List.append_nil, List.nil_append, List.append_assoc, List.singleton_append, if_true,
      Bool.false_eq_true, if_false, List.forall_mem_singleton, List.forall_mem_map]
      at hwords hquotes ⊢
  case generic => exact balances_rebuild parsers _ ih hn hwords
  case root => exact balances_rebuild parsers _ ih hn hwords
  case interpolation => exact balances_interpolation parsers ih hn.entry
  case argumentInterpolation => exact balances_argumentInterpolation parsers ih hn.entry
  case binary => exact balances_binary parsers ih hwords
  case unary => exact balances_unary parsers ih hwords
  case value => exact balances_value parsers (Fields.map c.part n.fields) hquotes
  case identifier => exact balances_identifier parsers (Fields.map c.part n.fields) hwords
  case targetIdentifier =>
    exact balances_targetIdentifier parsers (Fields.map c.part n.fields) hwords
  case formatString => exact balances_formatString parsers ih hquotes
  case tuple => exact balances_tuple parsers ih
  case list => exact balances_list parsers ih
  case dict => exact balances_dict parsers ih
  case attributeOf => exact balances_attributeOf parsers ih hquotes
  case lookup => exact balances_lookup parsers ih
  case call => exact balances_call parsers ih
  case assignment => exact balances_assignment parsers ih hwords
  case statement => exact balances_expressionStatement parsers ih hform hgives
  case function => exact balances_function parsers ih hform hn.words hbelow
  case control keyword => exact balances_control parsers ih hform hwords
  case branch keyword => exact balances_branch parsers ih hform hwords hbelow
  case otherwise => exact balances_otherwise parsers ih hform hbelow
  case loop => exact balances_loop parsers ih hform hbelow
  case importModule => exact balances_importModule parsers (Fields.map c.part n.fields) hn hform
  case importAs => exact balances_importAs parsers (Fields.map c.part n.fields) hn hform
  case fromImport => exact balances_fromImport parsers (Fields.map c.part n.fields) hn hform

namespace Compiler

variable (o : Options)

/-- **Compiling a node keeps account**, if the nodes of its tree lend. -/
theorem accountable_part (hlends : ∀ m ∈ n.subtree, m.Lends S) :
    (builtin o parsers).Accountable S n := by
  induction n using Node.induction_descendants with
  | step n ih =>
    have hbelow : ∀ m ∈ n.descendants, (builtin o parsers).Accountable S m := fun m hm =>
      ih m hm fun k hk => hlends k <| Node.mem_subtree.2 <| .inr <|
        (Node.mem_subtree.1 hk).elim (· ▸ hm) (Node.descendants_trans hm)
    refine ⟨(hlends n (Node.mem_subtree_self n)).entry, ?_,
      keeps_part Draft.Appends.frame (rulesKeep_builtin _ _ _) n⟩
    obtain ⟨name, hrun⟩ := run_builtin o parsers n
    rw [hrun]
    exact (Compile.Balances.note _).bind fun _ =>
      Form.balances parsers hlends hbelow fun m _ => gives_part o parsers m

/-- **The account of a whole tree.** The last line of its program binds the
variable to what is in hand behind the other lines. -/
theorem account_compileRoot (hlends : ∀ m ∈ n.subtree, m.Lends S) {outcome : Option Nat}
    {draft : Draft}
    (hrun : exec ((builtin o parsers).compileRoot n) .empty = (.ok outcome, draft)) :
    ∃ lines es d, Account S .empty n.emitters lines es d ∧ draft.refs = d.refs ∧
      (outcome = none ∧ es = [] ∧ draft.lines = lines ∨
        ∃ e, outcome = some d.fresh ∧ es = [e] ∧
          draft.lines = lines ++ [⟨0, .output d.fresh e⟩]) := by
  have hpart := accountable_part parsers o hlends
  rw [exec_compileRoot] at hrun
  rcases hexec : exec ((builtin o parsers).part n).run .empty with ⟨e | r, d⟩
  · simp [hexec] at hrun
  obtain ⟨new, hlines, haccount⟩ := hpart.balances.account hexec
  have hdepth : d.depth = 0 := by
    have happends := hpart.appends .empty
    rw [hexec] at happends
    exact happends.depth
  match r with
  | none =>
    rw [hexec] at hrun
    simp only [Prod.mk.injEq, Except.ok.injEq] at hrun
    obtain ⟨rfl, rfl⟩ := hrun
    exact ⟨new, [], d, haccount, rfl, .inl ⟨rfl, rfl, hlines⟩⟩
  | some [e] =>
    rw [hexec] at hrun
    simp only [Prod.mk.injEq, Except.ok.injEq] at hrun
    obtain ⟨rfl, rfl⟩ := hrun
    exact ⟨new, [e], d, haccount, rfl, .inr ⟨e, rfl, rfl, by rw [hlines, hdepth]; rfl⟩⟩
  | some [] => simp [hexec] at hrun
  | some (e :: f :: es) => simp [hexec] at hrun

end Compiler

end ScriptSplice
