import ScriptSplice.Proofs.Rules.TallySplicing
import ScriptSplice.Proofs.Rules.Twin
/-!
# The rules tally

Every standard handler tallies if compiling the parts of its node does: it
compiles the nodes that the tree says (`Node.ahead`, `Node.inside`), in
that order, and what it makes of their fragments replaces what they do
(`Form.tallies`). Only rebuilding adds a replacement of its own, the one for
its node, if a field changes (`Compile.exec_rebuild`).
-/

namespace ScriptSplice

open Compile Handler

variable {c : Compiler} {n m : Node} (parsers : Parsers)

/-! ## What rules do with parts -/

namespace Compile.Tallies

/-- The one fragment of a part. -/
theorem single? (h : c.Tallied m) : Tallies [] [m] Option.toList (single? (c.part m)) := by
  refine h.tallies.next fun r => ?_
  match r with
  | none => exact pure fun _ => rfl
  | some [e] => exact pure fun _ => rfl
  | some [] => exact throw _
  | some (e :: f :: es) => exact throw _

/-- An operand that may be absent. -/
theorem operand? {child : Option Node} (h : ∀ m, child = some m → c.Tallied m) :
    Tallies [] child.toList Option.toList (operand? (child.map c.part)) := by
  cases child with
  | none => exact pure fun _ => rfl
  | some m => exact single? (h m rfl)

/-- An operand that has to be there. -/
theorem required {child : Option Node} (h : ∀ m, child = some m → c.Tallied m) :
    Tallies [] child.toList (fun e => [e]) (required (child.map c.part)) := by
  cases child with
  | none => exact throw _
  | some m =>
    refine (single? (h m rfl)).next fun r => ?_
    cases r with
    | none => exact ref _
    | some e => exact pure fun _ => rfl

/-- The commands of a body. -/
theorem body (hchildren : ∀ k ∈ m.descendants, c.Tallied k) :
    Tallies [] (m.sequenceNodes "commands") (fun _ => [])
      (body .command m (Fields.map c.part m.fields)) := by
  unfold Compile.body
  rw [Fields.children_map]
  refine (splice_commands _ fun k hk => hchildren k (Node.mem_descendants_of_mem_children hk)).next
    fun r => ?_
  cases r with
  | none => exact (ref _).next fun e => emit fun _ => by simp [Stmt.replacements]
  | some e => exact pure fun _ => rfl

end Compile.Tallies

/-! ## The handlers -/

namespace Handler

section Parts

variable (ih : ∀ m ∈ n.descendants, c.Tallied m)

include ih

/-- The operand under a name. -/
theorem tallies_operand (name : String) :
    Compile.Tallies [] (n.childNodes name) (fun e => [e])
      (operand (Fields.map c.part n.fields) name) := by
  unfold operand
  rw [Fields.child?_map]
  exact .required fun m hm =>
    ih m (Node.mem_descendants_of_mem_parts (Fields.mem_nodes_of_child? hm))

/-- The operands of a sequence. -/
theorem tallies_operands (name : String) :
    Compile.Tallies [] (n.sequenceNodes name) id
      (operands (Fields.map c.part n.fields) name) := by
  have hnodes : n.sequenceNodes name = (n.children (ascii name)).flatMap Option.toList :=
    List.filterMap_eq_flatMap_toList id _
  unfold operands
  rw [Fields.children_map, List.mapM_map, hnodes]
  refine (Compile.Tallies.mapM (fun e => [e]) _ fun child hchild => ?_).mono fun es => by simp
  exact .required fun m hm => ih m (Node.mem_descendants_of_mem_children (hm ▸ hchild))

/-- An operand among the arguments. -/
theorem tallies_required (i : Nat) :
    Compile.Tallies [] (n.argumentNodes i) (fun e => [e])
      (required (argument (Fields.map c.part n.fields) i)) := by
  rw [argument_map]
  exact .required fun m hm =>
    ih m (Node.mem_descendants_of_mem_parts (mem_nodes_of_argument hm))

end Parts

/-- A fragment in brackets. -/
theorem tallies_bracket {es : List Expr} {e : Expr} (hreplacements : ∀ table,
    e.replacements table = Expr.replacementsAll table es) :
    Compile.Tallies es [] (·.getD []) (bracket n e) :=
  .pure fun table => by simp [Expr.replacements, hreplacements]

/-! ### Expressions -/

section Expressions

variable (ih : ∀ m ∈ n.descendants, c.Tallied m)

include ih

theorem tallies_interpolation :
    Compile.Tallies [] (n.childNodes "value") (·.getD [])
      (interpolation parsers n (Fields.map c.part n.fields)) := by
  refine (tallies_operand ih "value").next fun value => ?_
  refine (Compile.Tallies.ref _).next fun here => ?_
  refine (Compile.Tallies.apply (.interpolate _) (by simp) [] fun _ => rfl).next fun e => ?_
  exact tallies_bracket fun _ => by simp

theorem tallies_argumentInterpolation :
    Compile.Tallies [] (n.childNodes "value") (·.getD [])
      (argumentInterpolation parsers n (Fields.map c.part n.fields)) := by
  by_cases hparser : parsers.contains (n.text (ascii "parser"))
  · simp only [argumentInterpolation, hparser]
    refine (tallies_operand ih "value").next fun value => ?_
    -- the node is an argument of both calls, and a reference replaces nothing
    refine (Compile.Tallies.ref (some n)).bind_of_ok fun here d d' hrun => ?_
    cases hrun
    refine (Compile.Tallies.apply (.convert _) (by simp) [] fun _ => rfl).next fun converted => ?_
    refine (Compile.Tallies.apply .setLocation (by simp) [] fun _ => ?_).next fun e => ?_
    · simp [Expr.replacements]
    · exact tallies_bracket fun _ => by simp
  · simp only [argumentInterpolation, hparser]
    exact .throw _

theorem tallies_binary :
    Compile.Tallies [] (n.childNodes "left" ++ n.childNodes "right") (·.getD [])
      (binary parsers n (Fields.map c.part n.fields)) := by
  refine (tallies_operand ih "left").bind fun left => ?_
  refine ((tallies_operand ih "right").frame [left]).next fun right => tallies_bracket fun _ => ?_
  simp [Expr.replacements]

theorem tallies_unary :
    Compile.Tallies [] (n.childNodes "value") (·.getD [])
      (unary parsers n (Fields.map c.part n.fields)) :=
  (tallies_operand ih "value").next fun _ => tallies_bracket fun _ => by simp [Expr.replacements]

theorem tallies_formatString :
    Compile.Tallies [] (n.sequenceNodes "values") (·.getD [])
      (formatString parsers n (Fields.map c.part n.fields)) :=
  (tallies_operands ih "values").next fun _ => tallies_bracket fun _ => rfl

theorem tallies_tuple :
    Compile.Tallies [] (n.sequenceNodes "items") (·.getD [])
      (tuple parsers n (Fields.map c.part n.fields)) :=
  (tallies_operands ih "items").next fun _ => tallies_bracket fun _ => rfl

theorem tallies_list :
    Compile.Tallies [] (n.sequenceNodes "items") (·.getD [])
      (list parsers n (Fields.map c.part n.fields)) :=
  (tallies_operands ih "items").next fun _ => tallies_bracket fun _ => rfl

/-- An entry of a dictionary is not compiled itself; its key and its value
are. -/
theorem tallies_entry (hm : m ∈ n.descendants) :
    Compile.Tallies [] (m.childNodes "key" ++ m.childNodes "value") (fun e => [e])
      (entry (c.part m)) := by
  have hbelow : ∀ k ∈ m.descendants, c.Tallied k := fun k hk => ih k (Node.descendants_trans hm hk)
  unfold entry
  rw [c.fields_part]
  refine (tallies_operand hbelow "key").bind fun key => ?_
  refine ((tallies_operand hbelow "value").frame [key]).next fun value => .pure fun _ => ?_
  simp [Expr.replacements]

theorem tallies_dict :
    Compile.Tallies []
      ((n.sequenceNodes "items").flatMap fun item =>
        item.childNodes "key" ++ item.childNodes "value")
      (·.getD []) (dict parsers n (Fields.map c.part n.fields)) := by
  simp only [dict, Fields.filterMap_children, List.mapM_map]
  refine (Compile.Tallies.mapM (fun e => [e]) _ fun m hm => ?_).next fun items => ?_
  · exact tallies_entry ih (Node.mem_descendants_of_sequenceNodes hm)
  · exact tallies_bracket fun _ => by simp [Expr.replacements]

theorem tallies_attributeOf :
    Compile.Tallies [] (n.childNodes "value") (·.getD [])
      (attributeOf parsers n (Fields.map c.part n.fields)) := by
  refine (tallies_operand ih "value").next fun value => ?_
  refine (Compile.Tallies.apply .getAttribute (by simp) [] fun _ => ?_).next
    fun e => tallies_bracket fun _ => ?_
  · simp [Expr.replacements]
  · simp

theorem tallies_lookup :
    Compile.Tallies [] (n.childNodes "value" ++ n.sequenceNodes "arguments") (·.getD [])
      (lookup parsers n (Fields.map c.part n.fields)) := by
  refine (tallies_operand ih "value").bind fun base => ?_
  refine ((tallies_operands ih "arguments").frame [base]).next fun args => ?_
  exact tallies_bracket fun _ => by simp [Expr.replacements]

theorem tallies_call :
    Compile.Tallies [] (n.childNodes "value" ++ n.sequenceNodes "arguments") (·.getD [])
      (call parsers n (Fields.map c.part n.fields)) := by
  refine (tallies_operand ih "value").bind fun base => ?_
  refine ((tallies_operands ih "arguments").frame [base]).next fun args => ?_
  exact tallies_bracket fun _ => by simp [Expr.replacements]

theorem tallies_assignment :
    Compile.Tallies [] (n.childNodes "target" ++ n.childNodes "value") (·.getD [])
      (assignment parsers n (Fields.map c.part n.fields)) := by
  refine (tallies_operand ih "target").bind fun target => ?_
  refine ((tallies_operand ih "value").frame [target]).next fun value => .pure fun _ => ?_
  simp [Expr.replacements]

end Expressions

/-! ### Statements -/

/-- A statement behind its mark. -/
theorem tallies_statement {es : List Expr} {s : Stmt} {ns : List Node} {next : Compile Result}
    (hreplacements : ∀ table, s.replacements table = Expr.replacementsAll table es)
    (hnext : Compile.Tallies [] ns (·.getD []) next) :
    Compile.Tallies es ns (·.getD [])
      (do Drafting.mark n.location; Drafting.emit s; next) :=
  (Compile.Tallies.mark _).bind fun _ =>
    (Compile.Tallies.emit hreplacements).bind fun _ => hnext

/-- A helper may be put to use behind the mark. -/
theorem tallies_statement_use {s : Stmt} (h : Helper)
    (hreplacements : ∀ table, s.replacements table = 0) :
    Compile.Tallies [] [] (·.getD [])
      (do Drafting.mark n.location; Drafting.use h; Drafting.emit s; return some [] :
        Compile Result) :=
  (Compile.Tallies.mark _).bind fun _ => (Compile.Tallies.use h).bind fun _ =>
    (Compile.Tallies.emit hreplacements).bind fun _ => .pure fun _ => rfl

section Statements

variable (ih : ∀ m ∈ n.descendants, c.Tallied m)

include ih

theorem tallies_expressionStatement :
    Compile.Tallies [] (n.argumentNodes 0) (·.getD [])
      (expressionStatement parsers n (Fields.map c.part n.fields)) := by
  unfold expressionStatement
  rw [argument_map]
  refine (Compile.Tallies.operand? fun m hm => ih m ?_).next fun r => ?_
  · exact Node.mem_descendants_of_mem_parts (mem_nodes_of_argument hm)
  · cases r with
    | none => exact .pure fun _ => rfl
    | some e => exact tallies_statement (fun _ => by simp [Stmt.replacements]) (.pure fun _ => rfl)

theorem tallies_control (keyword : String) :
    Compile.Tallies [] (n.argumentNodes 0) (·.getD [])
      (control keyword parsers n (Fields.map c.part n.fields)) := by
  have hrest (operand : Option Expr) : Compile.Tallies operand.toList [] (·.getD [])
      (do Drafting.mark n.location; Drafting.emit (.control (ascii keyword) operand)
          return some []) :=
    tallies_statement (fun _ => rfl) (.pure fun _ => rfl)
  have hrequired := tallies_required ih 0
  unfold control
  rw [Node.argumentNodes, argument_map] at hrequired ⊢
  cases hm : argument n.fields 0 with
  | none => exact hrest none
  | some m =>
    rw [hm] at hrequired
    have hsome : Compile.Tallies [] (some m).toList Option.toList
        (some <$> required (some (c.part m))) := hrequired.next fun e => .pure fun _ => rfl
    exact hsome.next hrest

/-- The body among the arguments. -/
theorem tallies_body (i : Nat) :
    Compile.Tallies [] (n.bodyNodes i) (fun _ => [])
      (bodyOf (argument (Fields.map c.part n.fields) i)) := by
  rw [argument_map, Node.bodyNodes, Node.argumentNodes]
  cases hm : argument n.fields i with
  | none => exact .throw _
  | some m =>
    have hbelow := Node.mem_descendants_of_mem_parts (mem_nodes_of_argument hm)
    rw [Option.map_some, bodyOf, c.node_part, c.fields_part, Option.toList_some,
      List.flatMap_singleton]
    exact .body fun k hk => ih k (Node.descendants_trans hbelow hk)

/-- The block of a statement is the body among the arguments. -/
theorem tallies_block (i : Nat) :
    Compile.Tallies [] (n.bodyNodes i) (·.getD [])
      (do inBlock (bodyOf (argument (Fields.map c.part n.fields) i)); return some [] :
        Compile Result) :=
  (tallies_body ih i).inBlock.next fun _ => .pure fun _ => rfl

theorem tallies_branch (keyword : String) :
    Compile.Tallies [] (n.argumentNodes 0 ++ n.bodyNodes 1) (·.getD [])
      (branch keyword parsers n (Fields.map c.part n.fields)) :=
  (tallies_required ih 0).bind fun _ =>
    tallies_statement (fun _ => by simp [Stmt.replacements]) (tallies_block ih 1)

theorem tallies_otherwise :
    Compile.Tallies [] (n.bodyNodes 0) (·.getD [])
      (otherwise parsers n (Fields.map c.part n.fields)) :=
  tallies_statement (fun _ => rfl) (tallies_block ih 0)

theorem tallies_loop :
    Compile.Tallies [] (n.argumentNodes 0 ++ n.argumentNodes 1 ++ n.bodyNodes 2) (·.getD [])
      (loop parsers n (Fields.map c.part n.fields)) := by
  rw [List.append_assoc]
  refine (tallies_required ih 0).bind fun target => ?_
  refine ((tallies_required ih 1).frame [target]).bind fun iterable => ?_
  exact tallies_statement (fun _ => by simp [Stmt.replacements]) (tallies_block ih 2)

/-! ### Functions -/

omit ih in
theorem tallies_declare (parameters : List Node) :
    Compile.Tallies [] [] (fun _ => [])
      (liftM ((parameters.map c.part).mapM declare : Drafting _)) := by
  rw [liftM_mapM]
  have hdeclared : Compile.Tallies [] ((parameters.map c.part).flatMap fun _ => [])
      (·.flatMap fun _ => [])
      ((parameters.map c.part).mapM fun p => (liftM (declare p) : Compile (Text × Bool))) := by
    refine .mapM _ _ fun p _ => ?_
    unfold declare
    split
    · have huse : Compile.Tallies [] [] (fun _ => []) (liftM (Drafting.use .missing)) :=
        .use .missing
      exact huse.bind fun _ => .pure fun _ => rfl
    · exact .pure fun _ => rfl
  have hnone {ι β : Type} (l : List ι) : (l.flatMap fun _ => ([] : List β)) = [] := by simp
  rw [hnone] at hdeclared
  exact hdeclared.mono fun declared => (hnone declared).symm

/-- The block for a parameter that was not given. -/
theorem tallies_supplyDefault (hm : m ∈ n.descendants) :
    Compile.Tallies [] (m.childNodes "default") (fun _ => []) (supplyDefault (c.part m)) := by
  have hdefault : parameterDefault (c.part m) = (m.child? (ascii "default")).map c.part := by
    rw [parameterDefault, c.fields_part, Fields.child?_map]
    rfl
  unfold supplyDefault
  rw [hdefault, Node.childNodes]
  cases hd : m.child? (ascii "default") with
  | none => exact .pure fun _ => rfl
  | some value =>
    have hvalue := ih value (Node.descendants_trans hm
      (Node.mem_descendants_of_mem_parts (Fields.mem_nodes_of_child? hd)))
    refine (Compile.Tallies.emit fun _ => rfl).bind fun _ => .inBlock ?_
    have hrequired : Compile.Tallies [] (some value).toList (fun e => [e])
        (required ((some value).map c.part)) := .required (by rintro _ ⟨⟩; exact hvalue)
    exact hrequired.next fun e => .emit fun _ => by simp [Stmt.replacements]

theorem tallies_function :
    Compile.Tallies []
      (((n.argumentNodes 0).flatMap (Node.sequenceNodes · "arguments")).flatMap
        (Node.childNodes · "default") ++ n.bodyNodes 1)
      (·.getD []) (function parsers n (Fields.map c.part n.fields)) := by
  have hsignature : Compile.Tallies [] [] (fun _ => [])
      (signatureOf n (Fields.map c.part n.fields)) := by
    unfold signatureOf
    split
    · split
      · exact .pure fun _ => rfl
      · exact .throw _
    · exact .throw _
  refine hsignature.andThen fun signature d d' hrun => ?_
  have hargument := argument_of_signatureOf hrun
  rw [argument_map] at hargument
  obtain ⟨m, hm, rfl⟩ := Option.map_eq_some_iff.1 hargument
  have hbelow := Node.mem_descendants_of_mem_parts (mem_nodes_of_argument hm)
  have hparameters : ∀ p ∈ m.sequenceNodes "arguments", p ∈ n.descendants := fun p hp =>
    Node.descendants_trans hbelow (Node.mem_descendants_of_sequenceNodes hp)
  simp only [parametersOf, c.fields_part, c.node_part, Fields.filterMap_children]
  refine (tallies_declare _).bind fun declared => tallies_statement (fun _ => rfl) ?_
  rw [Node.argumentNodes, hm, Option.toList_some, List.flatMap_singleton]
  refine (Compile.Tallies.bind ?_ fun _ => tallies_body ih 1).inBlock.next
    fun _ => .pure fun _ => rfl
  rw [List.forM_eq_forM, List.forM_map]
  exact .forM _ fun p hp => tallies_supplyDefault ih (hparameters p hp)

end Statements

/-! ### Imports -/

section Imports

variable (parts : Fields Part)

theorem tallies_importModule :
    Compile.Tallies [] [] (·.getD []) (importModule parsers n parts) := by
  refine (Compile.Tallies.read _).bind fun m => ?_
  simp only
  split
  · exact tallies_statement_use _ fun _ => rfl
  · exact tallies_statement (fun _ => rfl) (.pure fun _ => rfl)

theorem tallies_importAs : Compile.Tallies [] [] (·.getD []) (importAs parsers n parts) := by
  refine (Compile.Tallies.read _).bind fun m => ?_
  simp only
  split
  · exact .throw _
  · split
    · exact tallies_statement_use _ fun _ => rfl
    · exact tallies_statement (fun _ => rfl) (.pure fun _ => rfl)

theorem tallies_fromImport : Compile.Tallies [] [] (·.getD []) (fromImport parsers n parts) := by
  refine (Compile.Tallies.read _).bind fun m => (Compile.Tallies.read _).bind fun names => ?_
  split
  · exact tallies_statement_use _ fun _ => rfl
  · exact tallies_statement (fun _ => rfl) (.pure fun _ => rfl)

end Imports

/-! ### Rebuilding -/

/-- The new value of a field tallies. -/
theorem tallies_changedField (collection : Collection) {f : Field Node}
    (hparts : ∀ m ∈ f.value.nodes, c.Tallied m) :
    Compile.Tallies [] f.value.nodes (·.toList.map (·.2))
      (changedField collection (f.map c.part)) := by
  obtain ⟨name, value⟩ := f
  unfold changedField
  cases value with
  | leaf l => exact .pure fun _ => rfl
  | child child =>
    refine (Compile.Tallies.operand? fun m hm => hparts m ?_).next fun e => .pure fun _ => ?_
    · simp [hm, Value.nodes]
    · cases e <;> rfl
  | children cs =>
    refine (Compile.Tallies.splice collection cs fun m hm => hparts m ?_).next
      fun e => .pure fun _ => ?_
    · simpa [Value.nodes] using hm
    · cases e <;> rfl

/-- The new values of all fields tally. -/
theorem tallies_fields (collection : Collection) (hparts : ∀ m ∈ n.parts, c.Tallied m) :
    Compile.Tallies [] n.parts (fun changes => (changes.filterMap id).map (·.2))
      (List.mapM (changedField collection) (Fields.map c.part n.fields)) := by
  rw [Fields.map, List.mapM_map]
  refine (Compile.Tallies.mapM (·.toList.map (·.2)) n.fields fun f hf => ?_).mono
    fun changes => ?_
  · exact tallies_changedField collection fun m hm => hparts m (Fields.mem_nodes hf hm)
  · induction changes with
    | nil => rfl
    | cons change changes ih =>
      rw [List.flatMap_cons, ← ih]
      cases change <;> rfl

end Handler

/-- Of actions in a row that may give something, those give it that are to,
in order. -/
theorem Compile.Yields.mapM_names {ι α β : Type} {f : ι → Compile (Option α)} {name : α → β}
    {expected : ι → Option β} (l : List ι)
    (h : ∀ i ∈ l, Yields (f i) fun r => r.map name = expected i) :
    Yields (l.mapM f) fun rs => (rs.filterMap id).map name = l.filterMap expected := by
  induction l with
  | nil => exact .pure rfl
  | cons i l ih =>
    rw [List.mapM_cons]
    refine (h i List.mem_cons_self).bind fun r hr =>
      (ih fun j hj => h j (List.mem_cons_of_mem _ hj)).bind fun rs hrs => .pure ?_
    rw [List.filterMap_cons (f := expected), ← hr, ← hrs]
    cases r <;> rfl

namespace Compile

/-- **A field is named if something in it changes.** -/
theorem yields_changedField_name (collection : Collection) {f : Field Node}
    (h : ∀ m ∈ f.value.nodes, Yields (c.part m).run m.Gives) :
    Yields (changedField collection (f.map c.part)) fun r =>
      r.map (·.1) = if f.value.nodes.any Node.hasDynamic then some f.name else none := by
  have hname : Yields (changedField collection (f.map c.part)) fun r => ∀ p ∈ r, p.1 = f.name := by
    obtain ⟨name, value⟩ := f
    cases value with
    | leaf l => exact .pure nofun
    | child child => exact .last fun e => .pure (by cases e <;> simp [Field.map])
    | children cs => exact .last fun e => .pure (by cases e <;> simp [Field.map])
  intro d r d' hrun
  have hnone := yields_changedField collection h d r d' hrun
  cases r with
  | none =>
    have hstatic : f.value.nodes.any Node.hasDynamic = false := by
      simpa using hnone.1 rfl
    rw [hstatic]
    rfl
  | some p =>
    have hdynamic : f.value.nodes.any Node.hasDynamic = true := by
      simpa using mt hnone.2 (by simp)
    rw [hdynamic, Option.map_some, hname d _ d' hrun p rfl]
    rfl

theorem yields_fields (collection : Collection)
    (h : ∀ m ∈ n.parts, Yields (c.part m).run m.Gives) :
    Yields (List.mapM (changedField collection) (Fields.map c.part n.fields)) fun changes =>
      (changes.filterMap id).map (·.1) = n.changedFields.map (·.name) := by
  have hchanged : n.changedFields.map (·.name) = n.fields.filterMap fun f =>
      if f.value.nodes.any Node.hasDynamic then some f.name else none := by
    rw [Node.changedFields]
    generalize n.fields = fields
    induction fields with
    | nil => rfl
    | cons f fields ih =>
      rw [List.filter_cons, List.filterMap_cons, ← ih]
      split <;> rfl
  rw [hchanged, Fields.map, List.mapM_map]
  exact .mapM_names n.fields fun f hf =>
    yields_changedField_name collection fun m hm => h m (Fields.mem_nodes hf hm)

/-- **Rebuilding a node** is compiling its fields one after the other, and
then a call that replaces those that change, if there are any. -/
theorem exec_rebuild {collection : Collection}
    (h : ∀ m ∈ n.parts, Yields (c.part m).run m.Gives) {d d' : Draft} {r : Result}
    (hrun : exec (Handler.rebuild collection parsers n (Fields.map c.part n.fields)) d =
      (.ok r, d')) :
    ∃ changes d₁,
      exec (List.mapM (changedField collection) (Fields.map c.part n.fields)) d =
        (.ok changes, d₁) ∧
      (changes.filterMap id).map (·.1) = n.changedFields.map (·.name) ∧
      (n.changedFields = [] ∧ r = none ∧ d' = d₁ ∨
        n.changedFields ≠ [] ∧
        r = some [.apply .replace (.ref d₁.refs.length ::
          (changes.filterMap id).map fun f => .keyword f.1 f.2)] ∧
        d' = (Drafting.use .replace { d₁ with refs := d₁.refs ++ [some n] }).2) := by
  obtain ⟨e, d₂, he, hrun⟩ := exec_bind_eq_ok hrun
  cases hrun
  obtain ⟨changes, d₁, hchanges, hrun⟩ := exec_bind_eq_ok he
  have hnames : (changes.filterMap id).map (·.1) = n.changedFields.map (·.name) :=
    yields_fields collection h d changes d₁ hchanges
  refine ⟨changes, d₁, hchanges, hnames, ?_⟩
  cases hchanged : changes.filterMap id with
  | nil =>
    rw [hchanged] at hrun hnames
    cases hrun
    exact .inl ⟨by simpa using hnames.symm, rfl, rfl⟩
  | cons f fs =>
    rw [hchanged] at hrun hnames
    cases hrun
    refine .inr ⟨fun hnil => ?_, rfl, rfl⟩
    rw [hnil] at hnames
    cases hnames

end Compile

/-! ## Compiling a node -/

/-- **The handlers of expressions and statements tally.** -/
theorem Form.tallies (ih : ∀ m ∈ n.descendants, c.Tallied m) (hform : n.form.isDynamic = true) :
    Compile.Tallies [] (n.ahead ++ n.inside) (·.getD [])
      (n.form.handler parsers n (Fields.map c.part n.fields)) := by
  unfold Node.ahead Node.inside
  cases hcase : n.form <;>
    simp only [hcase, isDynamic, List.append_nil, List.nil_append, Bool.false_eq_true] at hform ⊢
  case interpolation => exact tallies_interpolation parsers ih
  case argumentInterpolation => exact tallies_argumentInterpolation parsers ih
  case binary => exact tallies_binary parsers ih
  case unary => exact tallies_unary parsers ih
  case value => exact .pure fun _ => rfl
  case identifier => exact tallies_bracket fun _ => rfl
  case targetIdentifier => exact .pure fun _ => rfl
  case formatString => exact tallies_formatString parsers ih
  case tuple => exact tallies_tuple parsers ih
  case list => exact tallies_list parsers ih
  case dict => exact tallies_dict parsers ih
  case attributeOf => exact tallies_attributeOf parsers ih
  case lookup => exact tallies_lookup parsers ih
  case call => exact tallies_call parsers ih
  case assignment => exact tallies_assignment parsers ih
  case statement => exact tallies_expressionStatement parsers ih
  case function => exact tallies_function parsers ih
  case control keyword => exact tallies_control parsers ih keyword
  case branch keyword => exact tallies_branch parsers ih keyword
  case otherwise => exact tallies_otherwise parsers ih
  case loop => exact tallies_loop parsers ih
  case importModule => exact tallies_importModule parsers (Fields.map c.part n.fields)
  case importAs => exact tallies_importAs parsers (Fields.map c.part n.fields)
  case fromImport => exact tallies_fromImport parsers (Fields.map c.part n.fields)

end ScriptSplice
