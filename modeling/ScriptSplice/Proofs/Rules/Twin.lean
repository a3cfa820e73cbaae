import ScriptSplice.Proofs.Compile.TwinSplicing
import ScriptSplice.Proofs.Rules.Trichotomy
import ScriptSplice.Proofs.Rules.Verbatims
/-!
# The rules in twin runs

Every standard handler runs alike on a node and on the node unlocated, if
the parts below the node do: what it gives is the same but for marks, and
what it writes is well nested. By induction over the tree so does
compiling a node (`Compiler.twin_part`), and so does compiling a tree
(`Compiler.twin_compileRoot`).
-/

namespace ScriptSplice

open Compile

variable {V : Vocabulary} {depth : Nat} {part part' : Node → Part} {n m : Node}

/-! ## What rules do with parts -/

namespace Compile.TwinParts

/-- The one fragment of a part. -/
theorem single? (h : TwinParts V part part' m) :
    Alike V depth (Option.Rel (Expr.Twin V)) (single? (part m)) (single? (part' m)) := by
  refine (h.run depth).bind fun _ r r' hr => ?_
  have hkind : (part' m).node.kind = (part m).node.kind := by
    rw [h.node, h.node', Node.kind_unlocated]
  cases hr with
  | none => exact .pure .none
  | @some es es' hes =>
    obtain ⟨hover, rfl⟩ := hes
    match es with
    | [e] => exact .pure (.some ⟨hover e (List.mem_singleton_self e), rfl⟩)
    | [] => exact .throw (by simp [hkind])
    | e :: f :: es => exact .throw (by simp [hkind])

/-- An operand that may be absent. -/
theorem operand? {o : Option Node} (h : ∀ m, o = some m → TwinParts V part part' m) :
    Alike V depth (Option.Rel (Expr.Twin V)) (operand? (o.map part)) (operand? (o.map part')) := by
  cases o with
  | none => exact .pure .none
  | some m => exact (h m rfl).single?

/-- An operand that has to be there. -/
theorem required {o : Option Node} (h : ∀ m, o = some m → TwinParts V part part' m) :
    Alike V depth (Expr.Twin V) (required (o.map part)) (required (o.map part')) := by
  cases o with
  | none => exact .throw rfl
  | some m =>
    have hm := h m rfl
    refine hm.single?.bind fun _ e e' he => ?_
    cases he with
    | none =>
      rw [hm.node, hm.node']
      exact .ref (some m)
    | some he => exact .pure he

/-- The commands of a body. Something is always written for it. -/
theorem body (hchildren : ∀ k ∈ m.descendants, TwinParts V part part' k) :
    Fills V depth (fun _ _ => True) (body .command m (Fields.map part m.fields))
      (body .command m.unlocated (Fields.map part' m.fields)) := by
  unfold Compile.body
  rw [Fields.children_map, Fields.children_map]
  refine (Writes.splice .command _ fun k hk => hchildren k
    (Node.mem_descendants_of_mem_children hk)).bind fun new r r' hr => ?_
  obtain ⟨hr, hnew⟩ := hr
  cases hr with
  | none =>
    have hemit : Fills V depth (fun _ _ => True)
        (do Drafting.emit (.extendBody (← Drafting.ref (some m))))
        (do Drafting.emit (.extendBody (← Drafting.ref (some m.unlocated)))) :=
      .of_next (.ref (some m)) fun e e' he =>
        Fills.emit (.extendBody he.isOver) rfl (by rw [he.eq]; rfl)
    refine hemit.mono fun more _ _ hmore => ⟨fun hnil => ?_, trivial⟩
    exact hmore.1 (List.append_eq_nil_iff.1 hnil).2
  | some =>
    refine .pure ⟨?_, trivial⟩
    rw [List.append_nil]
    exact hnew rfl (by simp)

end Compile.TwinParts

/-! ## The handlers -/

/-- A handler runs alike on a node and on the node unlocated. -/
def Handler.Twin (V : Vocabulary) (part part' : Node → Part) (n : Node) (h : Handler) : Prop :=
  ∀ parsers depth, Alike V depth (Result.Twin V) (h parsers n (Fields.map part n.fields))
    (h parsers n.unlocated (Fields.map part' n.fields))

namespace Handler

variable (ih : ∀ m ∈ n.descendants, TwinParts V part part' m)

include ih

theorem twin_child {name : Text} (h : n.child? name = some m) : TwinParts V part part' m :=
  ih m (Node.mem_descendants_of_mem_parts (Fields.mem_nodes_of_child? h))

theorem twin_argument {i : Nat} (h : argument n.fields i = some m) : TwinParts V part part' m :=
  ih m (Node.mem_descendants_of_mem_parts (mem_nodes_of_argument h))

/-- The operand under a name. -/
theorem twin_operand (name : String) :
    Alike V depth (Expr.Twin V) (operand (Fields.map part n.fields) name)
      (operand (Fields.map part' n.fields) name) := by
  unfold operand
  rw [Fields.child?_map, Fields.child?_map]
  exact TwinParts.required fun m hm => twin_child ih hm

/-- The operands of a sequence. -/
theorem twin_operands (name : String) :
    Alike V depth (Expr.Twins V) (operands (Fields.map part n.fields) name)
      (operands (Fields.map part' n.fields) name) := by
  unfold operands
  rw [Fields.children_map, Fields.children_map, List.mapM_map, List.mapM_map]
  refine Writes.mapM .nil (fun _ _ _ _ => .cons) _ fun o ho => TwinParts.required fun m hm => ?_
  exact ih m (Node.mem_descendants_of_mem_children (hm ▸ ho))

theorem twin_required (i : Nat) :
    Alike V depth (Expr.Twin V) (required (argument (Fields.map part n.fields) i))
      (required (argument (Fields.map part' n.fields) i)) := by
  rw [argument_map, argument_map]
  exact TwinParts.required fun m hm => twin_argument ih hm

/-- The body among the arguments. -/
theorem twin_body (i : Nat) :
    Fills V depth (fun _ _ => True) (bodyOf (argument (Fields.map part n.fields) i))
      (bodyOf (argument (Fields.map part' n.fields) i)) := by
  rw [argument_map, argument_map]
  cases hm : argument n.fields i with
  | none => exact .throw rfl
  | some m =>
    have hpart := twin_argument ih hm
    rw [Option.map_some, Option.map_some, bodyOf, bodyOf, hpart.node, hpart.node', hpart.fields,
      hpart.fields']
    exact TwinParts.body fun k hk => ih k (Node.descendants_trans
      (Node.mem_descendants_of_mem_parts (mem_nodes_of_argument hm)) hk)

omit ih in
/-- A fragment in brackets, behind the mark of the node. -/
theorem twin_bracket {e e' : Expr} (h : Expr.Twin V e e') :
    Alike V depth (Result.Twin V) (bracket n e) (bracket n.unlocated e') := by
  refine .pure (.some (.single ⟨.bracketed _ h.isOver, ?_⟩))
  rw [Node.location_unlocated, h.eq]
  rfl

/-! ### Expressions -/

theorem twin_interpolation : Handler.Twin V part part' n interpolation := by
  intro parsers depth
  simp only [interpolation, Node.text_unlocated]
  refine (twin_operand ih "value").bind fun _ value value' hvalue => ?_
  refine (Writes.ref (some n)).bind fun _ here here' hhere => ?_
  refine (Writes.apply _ (.cons hvalue (.single hhere))).bind fun _ e e' he => ?_
  exact twin_bracket he

theorem twin_argumentInterpolation : Handler.Twin V part part' n argumentInterpolation := by
  intro parsers depth
  simp only [argumentInterpolation, Node.text_unlocated]
  by_cases hparser : parsers.contains (n.text (ascii "parser"))
  · simp only [hparser]
    refine (twin_operand ih "value").bind fun _ value value' hvalue => ?_
    refine (Writes.ref (some n)).bind fun _ here here' hhere => ?_
    refine (Writes.apply _ (.cons hvalue (.single hhere))).bind fun _ e e' he => ?_
    refine (Writes.apply _ (.cons he (.single hhere))).bind fun _ f f' hf => ?_
    exact twin_bracket hf
  · simp only [hparser]
    exact .failAt _ _ _

omit ih in
/-- The operator of a node is what it takes over, with blanks for
underscores. -/
theorem word_operatorOf (h : V.Word (n.text (ascii "operator"))) : V.Word (operatorOf n) := by
  intro b hb
  obtain ⟨c, hc, rfl⟩ := List.mem_map.1 hb
  by_cases hunderscore : c = Byte.underscore
  · rw [if_pos hunderscore]
    exact V.byte_space
  · rw [if_neg hunderscore]
    exact h c hc

theorem twin_binary (h : V.Word (n.text (ascii "operator"))) :
    Handler.Twin V part part' n binary := by
  intro parsers depth
  refine (twin_operand ih "left").bind fun _ left left' hleft => ?_
  refine (twin_operand ih "right").bind fun _ right right' hright => ?_
  refine twin_bracket ⟨.binary hleft.isOver (word_operatorOf h) hright.isOver, ?_⟩
  rw [hleft.eq, hright.eq, operatorOf, Node.text_unlocated]
  rfl

theorem twin_unary (h : V.Word (n.text (ascii "operator"))) :
    Handler.Twin V part part' n unary := by
  intro parsers depth
  refine (twin_operand ih "value").bind fun _ value value' hvalue => ?_
  refine twin_bracket ⟨.unary (word_operatorOf h) hvalue.isOver, ?_⟩
  rw [hvalue.eq, operatorOf, Node.text_unlocated]
  rfl

omit ih in
theorem twin_value : Handler.Twin V part part' n value := by
  intro parsers depth
  unfold value
  rw [Node.leaf?_unlocated]
  exact .pure (.some (.single ⟨.literal _, rfl⟩))

omit ih in
theorem twin_identifier (h : V.Name (n.text (ascii "value"))) :
    Handler.Twin V part part' n identifier := by
  intro parsers depth
  unfold identifier
  rw [Node.text_unlocated]
  exact twin_bracket ⟨.verbatim h, rfl⟩

omit ih in
theorem twin_targetIdentifier (h : V.Name (n.text (ascii "value"))) :
    Handler.Twin V part part' n targetIdentifier := by
  intro parsers depth
  unfold targetIdentifier
  rw [Node.text_unlocated]
  exact .pure (.some (.single ⟨.verbatim h, rfl⟩))

theorem twin_formatString : Handler.Twin V part part' n formatString := by
  intro parsers depth
  refine (twin_operands ih "values").bind fun _ values values' hvalues => ?_
  refine twin_bracket ⟨.format _ hvalues.isOver, ?_⟩
  rw [hvalues.eq, Node.text_unlocated, Expr.unmarked, Expr.unmarkedAll_eq]

theorem twin_tuple : Handler.Twin V part part' n tuple := by
  intro parsers depth
  refine (twin_operands ih "items").bind fun _ items items' hitems => ?_
  refine twin_bracket ⟨.tuple hitems.isOver, ?_⟩
  rw [hitems.eq, Expr.unmarked, Expr.unmarkedAll_eq]

theorem twin_list : Handler.Twin V part part' n list := by
  intro parsers depth
  refine (twin_operands ih "items").bind fun _ items items' hitems => ?_
  refine twin_bracket ⟨.list hitems.isOver, ?_⟩
  rw [hitems.eq, Expr.unmarked, Expr.unmarkedAll_eq]

/-- An entry is not compiled itself; its operands are. -/
theorem twin_entry (hm : m ∈ n.descendants) :
    Alike V depth (Expr.Twin V) (entry (part m)) (entry (part' m)) := by
  have hitem := ih m hm
  have hparts : ∀ k ∈ m.descendants, TwinParts V part part' k := fun k hk =>
    ih k (Node.descendants_trans hm hk)
  unfold entry
  rw [hitem.fields, hitem.fields']
  refine (twin_operand hparts "key").bind fun _ key key' hkey => ?_
  refine (twin_operand hparts "value").bind fun _ value value' hvalue => ?_
  refine .pure ⟨.entry hkey.isOver hvalue.isOver, ?_⟩
  rw [hkey.eq, hvalue.eq]
  rfl

theorem twin_dict : Handler.Twin V part part' n dict := by
  intro parsers depth
  simp only [dict, Fields.filterMap_children, List.mapM_map]
  have hitems : Alike V depth (Expr.Twins V)
      (((Fields.children n.fields (ascii "items")).filterMap id).mapM (entry ∘ part))
      (((Fields.children n.fields (ascii "items")).filterMap id).mapM (entry ∘ part')) := by
    refine Writes.mapM .nil (fun _ _ _ _ => .cons) _ fun m hm => twin_entry ih ?_
    exact Node.mem_descendants_of_mem_children (by simpa [Node.children] using hm)
  refine hitems.bind fun _ items items' hitems => ?_
  refine twin_bracket ⟨.dict hitems.isOver, ?_⟩
  rw [hitems.eq, Expr.unmarked, Expr.unmarkedAll_eq]

theorem twin_attributeOf : Handler.Twin V part part' n attributeOf := by
  intro parsers depth
  simp only [attributeOf, Node.text_unlocated]
  refine (twin_operand ih "value").bind fun _ value value' hvalue => ?_
  refine (Writes.apply _ (.cons hvalue (.single ⟨.literal _, rfl⟩))).bind fun _ e e' he => ?_
  exact twin_bracket he

theorem twin_lookup : Handler.Twin V part part' n lookup := by
  intro parsers depth
  refine (twin_operand ih "value").bind fun _ base base' hbase => ?_
  refine (twin_operands ih "arguments").bind fun _ args args' hargs => ?_
  refine twin_bracket ⟨.lookup hbase.isOver hargs.isOver, ?_⟩
  rw [hbase.eq, hargs.eq, Expr.unmarked, Expr.unmarkedAll_eq]

theorem twin_call : Handler.Twin V part part' n call := by
  intro parsers depth
  refine (twin_operand ih "value").bind fun _ base base' hbase => ?_
  refine (twin_operands ih "arguments").bind fun _ args args' hargs => ?_
  refine twin_bracket ⟨.call hbase.isOver hargs.isOver, ?_⟩
  rw [hbase.eq, hargs.eq, Expr.unmarked, Expr.unmarkedAll_eq]

theorem twin_assignment (h : V.Word (n.text (ascii "operator"))) :
    Handler.Twin V part part' n assignment := by
  intro parsers depth
  simp only [assignment, Node.text_unlocated]
  refine (twin_operand ih "target").bind fun _ target target' htarget => ?_
  refine (twin_operand ih "value").bind fun _ value value' hvalue => ?_
  refine .pure (.some (.single ⟨.binary htarget.isOver h hvalue.isOver, ?_⟩))
  rw [htarget.eq, hvalue.eq]
  rfl

/-! ### Statements

A statement leaves no fragment. -/

section

variable {s s' : Stmt} (place : Location)

omit ih in
/-- A statement that opens no block. -/
theorem twin_statement (hs : s.Over V) (hheader : s.isHeader = false) (hs' : s' = s.unmarked) :
    Alike V depth (Result.Twin V)
      (do Drafting.mark place; Drafting.emit s; return some [])
      (do Drafting.mark .unknown; Drafting.emit s'; return some []) := by
  have hemit : Fills V depth _ _ _ := (Fills.emit hs hheader hs').bind (S := Result.Twin V)
    fun _ _ _ => .pure (.some .nil)
  exact (hemit.marked place).alike

omit ih in
/-- A statement and its block. -/
theorem twin_block (hs : s.Over V) (hheader : s.isHeader = true) (hs' : s' = s.unmarked)
    {act act' : Compile Unit} (h : Fills V (depth + 1) (fun _ _ => True) act act') :
    Alike V depth (Result.Twin V)
      (do Drafting.mark place; Drafting.emit s; inBlock act; return some [])
      (do Drafting.mark .unknown; Drafting.emit s'; inBlock act'; return some []) := by
  have hblock := (Fills.block hs hheader hs' h).bind (S := Result.Twin V)
    fun _ _ _ => .pure (.some .nil)
  rw [bind_assoc, bind_assoc] at hblock
  exact (hblock.marked place).alike

end

theorem twin_expressionStatement : Handler.Twin V part part' n expressionStatement := by
  intro parsers depth
  unfold expressionStatement
  rw [argument_map, argument_map, Node.location_unlocated]
  refine (TwinParts.operand? fun m hm => twin_argument ih hm).bind fun _ e e' he => ?_
  cases he with
  | none => exact .pure (.some .nil)
  | some he =>
    refine twin_statement n.location (.eval he.isOver) rfl ?_
    rw [he.eq]
    rfl

theorem twin_control {keyword : String} (hkeyword : (ascii keyword).isKeyword = true) :
    Handler.Twin V part part' n (control keyword) := by
  intro parsers depth
  unfold control
  rw [argument_map, argument_map, Node.location_unlocated]
  have hstatement {operand operand' : Option Expr}
      (h : Option.Rel (Expr.Twin V) operand operand') :
      Alike V depth (Result.Twin V)
        (do Drafting.mark n.location; Drafting.emit (.control (ascii keyword) operand)
            return some [])
        (do Drafting.mark .unknown; Drafting.emit (.control (ascii keyword) operand')
            return some []) := by
    cases h with
    | none => exact twin_statement n.location (.control hkeyword (by simp)) rfl rfl
    | some he =>
      refine twin_statement n.location (.control hkeyword ?_) rfl ?_
      · rintro _ ⟨⟩
        exact he.isOver
      · rw [he.eq]
        rfl
  cases hm : argument n.fields 0 with
  | none => exact hstatement .none
  | some m =>
    simp only [Option.map_some, map_eq_pure_bind, bind_assoc, pure_bind]
    refine (TwinParts.required (o := some m) fun k hk => ?_).bind fun _ e e' he =>
      hstatement (.some he)
    exact twin_argument ih (hm.trans hk)

theorem twin_branch {keyword : String} (hkeyword : (ascii keyword).isKeyword = true) :
    Handler.Twin V part part' n (branch keyword) := by
  intro parsers depth
  unfold branch
  rw [Node.location_unlocated]
  refine (twin_required ih 0).bind fun _ condition condition' hcondition => ?_
  refine twin_block n.location (.branch hkeyword hcondition.isOver) rfl ?_ (twin_body ih 1)
  rw [hcondition.eq]
  rfl

theorem twin_otherwise : Handler.Twin V part part' n otherwise := by
  intro parsers depth
  unfold otherwise
  rw [Node.location_unlocated]
  exact twin_block n.location .otherwise rfl rfl (twin_body ih 0)

theorem twin_loop : Handler.Twin V part part' n loop := by
  intro parsers depth
  unfold loop
  rw [Node.location_unlocated]
  refine (twin_required ih 0).bind fun _ target target' htarget => ?_
  refine (twin_required ih 1).bind fun _ iterable iterable' hiterable => ?_
  refine twin_block n.location (.loop htarget.isOver hiterable.isOver) rfl ?_ (twin_body ih 2)
  rw [htarget.eq, hiterable.eq]
  rfl

/-! ### Functions -/

omit ih in
/-- The parameter of a part. -/
theorem parameterName_part (h : TwinParts V part part' m) :
    parameterName (part m) = m.text (ascii "name") ∧
      parameterName (part' m) = m.text (ascii "name") := by
  rw [parameterName, h.node, parameterName, h.node', Node.text_unlocated]
  exact ⟨rfl, rfl⟩

omit ih in
theorem parameterDefault_part (h : TwinParts V part part' m) :
    parameterDefault (part m) = (m.child? (ascii "default")).map part ∧
      parameterDefault (part' m) = (m.child? (ascii "default")).map part' := by
  rw [parameterDefault, h.fields, parameterDefault, h.fields', Fields.child?_map,
    Fields.child?_map]
  exact ⟨rfl, rfl⟩

omit ih in
/-- The parameters are declared alike. -/
theorem twin_declare {parameters : List Node}
    (h : ∀ p ∈ parameters, TwinParts V part part' p ∧ V.Name (p.text (ascii "name"))) :
    Alike V depth (fun declared declared' => declared' = declared ∧ ∀ p ∈ declared, V.Name p.1)
      (liftM ((parameters.map part).mapM declare : Drafting _))
      (liftM ((parameters.map part').mapM declare : Drafting _)) := by
  rw [liftM_mapM, liftM_mapM, List.mapM_map, List.mapM_map]
  refine Writes.mapM (R := fun declared declared' => declared' = declared ∧ V.Name declared.1)
    ⟨rfl, by simp⟩ ?_ parameters fun p hp => ?_
  · rintro a _ as _ ⟨rfl, ha⟩ ⟨rfl, has⟩
    exact ⟨rfl, List.forall_mem_cons.2 ⟨ha, has⟩⟩
  · obtain ⟨hpart, hname⟩ := h p hp
    simp only [Function.comp_apply, declare, (parameterName_part hpart).1,
      (parameterName_part hpart).2, (parameterDefault_part hpart).1,
      (parameterDefault_part hpart).2, Option.isSome_map]
    -- a parameter that may be left out puts a helper to use
    cases (p.child? (ascii "default")).isSome with
    | true => exact (Writes.use .missing).bind fun _ _ _ _ => .pure ⟨rfl, hname⟩
    | false => exact .pure ⟨rfl, hname⟩

/-- The block for a parameter that was not given. -/
theorem twin_supplyDefault (hm : m ∈ n.descendants) (hname : V.Name (m.text (ascii "name"))) :
    Alike V depth (fun _ _ => True) (supplyDefault (part m)) (supplyDefault (part' m)) := by
  have hpart := ih m hm
  unfold supplyDefault
  rw [(parameterName_part hpart).1, (parameterName_part hpart).2, (parameterDefault_part hpart).1,
    (parameterDefault_part hpart).2]
  cases hd : m.child? (ascii "default") with
  | none => exact .pure trivial
  | some value =>
    have hvalue := ih value (Node.descendants_trans hm
      (Node.mem_descendants_of_mem_parts (Fields.mem_nodes_of_child? hd)))
    have hparts : ∀ k, some value = some k → TwinParts V part part' k := by
      rintro _ ⟨⟩
      exact hvalue
    refine (Fills.block (.default hname) rfl rfl
      (Fills.of_next (TwinParts.required hparts) fun e e' he => ?_)).alike
    exact .emit (.bind hname he.isOver) rfl (by rw [he.eq]; rfl)

omit ih in
/-- The signature of a function is its first argument. -/
theorem twin_signatureOf (h : ∀ m, argument n.fields 0 = some m → TwinParts V part part' m) :
    Alike V depth (fun p p' => ∃ m, argument n.fields 0 = some m ∧ p = part m ∧ p' = part' m)
      (signatureOf n (Fields.map part n.fields))
      (signatureOf n.unlocated (Fields.map part' n.fields)) := by
  unfold signatureOf
  rw [argument_map, argument_map]
  cases hm : argument n.fields 0 with
  | none => exact .failAt _ _ _
  | some m =>
    have hpart := h m hm
    simp only [Option.map_some, hpart.node, hpart.node', Node.kind_unlocated]
    split
    · exact .pure ⟨m, rfl, rfl, rfl⟩
    · exact .failAt _ _ _

theorem twin_function (hnames : ∀ t ∈ n.headNames, V.Name t) :
    Handler.Twin V part part' n function := by
  intro parsers depth
  unfold function
  rw [Node.location_unlocated]
  refine (twin_signatureOf fun m hm => twin_argument ih hm).bind fun _ p p' hsignature => ?_
  obtain ⟨m, hm, rfl, rfl⟩ := hsignature
  have hdescendant := Node.mem_descendants_of_mem_parts (mem_nodes_of_argument hm)
  have hpart := ih m hdescendant
  have hname : V.Name (m.text (ascii "name")) := hnames _ (Node.name_mem_headNames hm)
  have hparameters : ∀ p ∈ (m.children (ascii "arguments")).filterMap id,
      p ∈ n.descendants ∧ V.Name (p.text (ascii "name")) := fun p hp =>
    ⟨Node.descendants_trans hdescendant (Node.mem_descendants_of_mem_children (by simpa using hp)),
      hnames _ (Node.parameter_mem_headNames hm hp)⟩
  simp only [parametersOf, hpart.fields, hpart.fields', hpart.node, hpart.node',
    Fields.filterMap_children, Node.text_unlocated]
  refine (twin_declare fun p hp => ⟨ih p (hparameters p hp).1, (hparameters p hp).2⟩).bind
    fun _ declared declared' hdeclared => ?_
  obtain ⟨rfl, hover⟩ := hdeclared
  refine twin_block n.location (.define hname hover) rfl rfl ?_
  refine Fills.of_next (R := fun _ _ => True) ?_ fun _ _ _ => twin_body ih 1
  rw [List.forM_eq_forM, List.forM_map, List.forM_map]
  exact Writes.forM _ fun p hp =>
    twin_supplyDefault ih (hparameters p hp).1 (hparameters p hp).2

/-! ### Imports -/

section

variable {helper : Helper} {s s' : Stmt} (place : Location)

omit ih in
/-- A statement that uses a helper. -/
theorem twin_use_statement (hs : s.Over V) (hheader : s.isHeader = false)
    (hs' : s' = s.unmarked) :
    Fills V depth (Result.Twin V)
      (do Drafting.use helper; Drafting.emit s; return some [])
      (do Drafting.use helper; Drafting.emit s'; return some []) :=
  .of_next (.use helper) fun _ _ _ =>
    (Fills.emit hs hheader hs').bind fun _ _ _ => .pure (.some .nil)

end

omit ih in
theorem twin_importModule (hpath : V.Name n.importPath) :
    Handler.Twin V part part' n importModule := by
  intro parsers depth
  unfold importModule
  rw [moduleOf_unlocated, Node.location_unlocated]
  refine (Writes.read _).bind fun _ m _ hm => ?_
  obtain ⟨hm, rfl⟩ := hm
  rw [← path_of_moduleOf hm] at hpath
  refine (Fills.marked n.location ?_).alike
  split
  · exact twin_use_statement (.bindModule _ (word_lastPart hpath.1)) rfl rfl
  · exact (Fills.emit (.importNative hpath) rfl rfl).bind fun _ _ _ => .pure (.some .nil)

omit ih in
theorem twin_importAs (hpath : V.Name n.importPath)
    (hname : V.Name (importedName (argument n.fields 1))) :
    Handler.Twin V part part' n importAs := by
  intro parsers depth
  unfold importAs
  simp only [moduleOf_unlocated, Node.location_unlocated, Node.fields_unlocated, argument_map,
    importedName_unlocated]
  refine (Writes.read _).bind fun _ m _ hm => ?_
  obtain ⟨hm, rfl⟩ := hm
  rw [← path_of_moduleOf hm] at hpath
  split
  · exact .failAt _ _ _
  · refine (Fills.marked n.location ?_).alike
    split
    · exact twin_use_statement (.bindModule _ hname.1) rfl rfl
    · exact (Fills.emit (.importNativeAs hpath hname) rfl rfl).bind fun _ _ _ =>
        .pure (.some .nil)

omit ih in
theorem twin_fromImport (hpath : V.Name n.importPath)
    (hnames : ∀ t ∈ (importedNames n).toOption.getD [], V.Name t) :
    Handler.Twin V part part' n fromImport := by
  intro parsers depth
  unfold fromImport
  rw [moduleOf_unlocated, importedNames_unlocated, Node.location_unlocated]
  refine (Writes.read _).bind fun _ m _ hm => ?_
  obtain ⟨hm, rfl⟩ := hm
  refine (Writes.read _).bind fun _ names _ hread => ?_
  obtain ⟨hread, rfl⟩ := hread
  rw [← path_of_moduleOf hm] at hpath
  rw [hread] at hnames
  refine (Fills.marked n.location ?_).alike
  split
  · exact twin_use_statement (.bindNames _ hnames) rfl rfl
  · exact (Fills.emit (.fromNative hpath hnames) rfl rfl).bind fun _ _ _ => .pure (.some .nil)

/-! ### Rebuilding -/

/-- New values of fields, and what is left of them without marks. -/
structure Changes (V : Vocabulary) (changes changes' : List (Option (Text × Expr))) : Prop where
  isOver : ∀ f ∈ changes.filterMap id, V.field f.1 ∧ f.2.Over V
  eq : changes'.filterMap id = (changes.filterMap id).map fun f => (f.1, f.2.unmarked)

theorem twin_changedField (collection : Collection) {f : Field Node} (hf : f ∈ n.fields) :
    Alike V depth (Option.Rel fun c c' => c.1 = f.name ∧ c'.1 = f.name ∧ Expr.Twin V c.2 c'.2)
      (changedField collection (f.map part)) (changedField collection (f.map part')) := by
  have hparts : ∀ m ∈ f.value.nodes, TwinParts V part part' m := fun m hm =>
    ih m (Node.mem_descendants_of_mem_parts (Fields.mem_nodes hf hm))
  have hnamed {e e' : Option Expr} (h : Option.Rel (Expr.Twin V) e e') :
      Option.Rel (fun c c' : Text × Expr => c.1 = f.name ∧ c'.1 = f.name ∧ Expr.Twin V c.2 c'.2)
        (e.map (f.name, ·)) (e'.map (f.name, ·)) := by
    cases h with
    | none => exact .none
    | some he => exact .some ⟨rfl, rfl, he⟩
  obtain ⟨name, value⟩ := f
  unfold changedField
  cases value with
  | leaf l => exact .pure .none
  | child c =>
    refine (TwinParts.operand? fun m hm => hparts m ?_).bind fun _ _ _ h => .pure (hnamed h)
    simp [hm, Value.nodes]
  | children cs =>
    refine (Writes.splice collection cs fun m hm => hparts m ?_).bind
      fun _ _ _ h => .pure (hnamed h.1)
    simpa [Value.nodes] using hm

theorem twin_changes (hfields : ∀ f ∈ n.fields, V.field f.name) (collection : Collection) :
    Alike V depth (Changes V) ((Fields.map part n.fields).mapM (changedField collection))
      ((Fields.map part' n.fields).mapM (changedField collection)) := by
  rw [Fields.map, Fields.map, List.mapM_map, List.mapM_map]
  refine Writes.mapM (R := Option.Rel fun c c' => V.field c.1 ∧ c'.1 = c.1 ∧ Expr.Twin V c.2 c'.2)
    ⟨by simp, rfl⟩ ?_ n.fields fun f hf => ?_
  · rintro c c' cs cs' hc hcs
    cases hc with
    | none => exact ⟨hcs.isOver, hcs.eq⟩
    | @some c c' hc =>
      refine ⟨List.forall_mem_cons.2 ⟨⟨hc.1, hc.2.2.isOver⟩, hcs.isOver⟩, ?_⟩
      have hhead : c' = (c.1, c.2.unmarked) := Prod.ext hc.2.1 hc.2.2.eq
      change c' :: cs'.filterMap id = (c.1, c.2.unmarked) :: (cs.filterMap id).map _
      rw [hhead, hcs.eq]
  · refine (twin_changedField ih collection hf).mono fun _ _ _ h => ?_
    cases h with
    | none => exact .none
    | some h => exact .some ⟨h.1 ▸ hfields f hf, h.2.1.trans h.1.symm, h.2.2⟩

theorem twin_rebuild (hfields : ∀ f ∈ n.fields, V.field f.name) (collection : Collection) :
    Handler.Twin V part part' n (rebuild collection) := by
  intro parsers depth
  unfold rebuild Compile.rebuild
  rw [bind_assoc, bind_assoc]
  refine (twin_changes ih hfields collection).bind fun _ changes changes' h => ?_
  rw [h.eq]
  rcases hnew : changes.filterMap id with _ | ⟨f, fs⟩
  · exact .pure .none
  · have hover := h.isOver
    rw [hnew] at hover
    simp only [List.map_cons, bind_assoc, pure_bind]
    refine (Writes.ref (some n)).bind fun _ e e' he => ?_
    exact (Writes.replace he hover).bind fun _ x x' hx => .pure (.some (.single hx))

end Handler

/-! ## Compiling a tree -/

/-- **The standard handlers run alike** on a node and on the node
unlocated. -/
theorem Form.twin (hn : n.Borrows V) (ih : ∀ m ∈ n.descendants, TwinParts V part part' m) :
    n.form.handler.Twin V part part' n := by
  have hverbatims := hn.verbatims
  unfold Node.verbatims at hverbatims
  cases hform : n.form <;> simp only [hform] at hverbatims
  case generic => exact Handler.twin_rebuild ih hn.fields _
  case root => exact Handler.twin_rebuild ih hn.fields _
  case interpolation => exact Handler.twin_interpolation ih
  case argumentInterpolation => exact Handler.twin_argumentInterpolation ih
  case binary => exact Handler.twin_binary ih (hverbatims _ (List.mem_singleton_self _)).1
  case unary => exact Handler.twin_unary ih (hverbatims _ (List.mem_singleton_self _)).1
  case value => exact Handler.twin_value
  case identifier => exact Handler.twin_identifier (hverbatims _ (List.mem_singleton_self _))
  case targetIdentifier =>
    exact Handler.twin_targetIdentifier (hverbatims _ (List.mem_singleton_self _))
  case formatString => exact Handler.twin_formatString ih
  case tuple => exact Handler.twin_tuple ih
  case list => exact Handler.twin_list ih
  case dict => exact Handler.twin_dict ih
  case attributeOf => exact Handler.twin_attributeOf ih
  case lookup => exact Handler.twin_lookup ih
  case call => exact Handler.twin_call ih
  case assignment =>
    exact Handler.twin_assignment ih (hverbatims _ (List.mem_singleton_self _)).1
  case statement => exact Handler.twin_expressionStatement ih
  case function => exact Handler.twin_function ih hverbatims
  case control keyword => exact Handler.twin_control ih (Node.isKeyword (.inl hform))
  case branch keyword => exact Handler.twin_branch ih (Node.isKeyword (.inr hform))
  case otherwise => exact Handler.twin_otherwise ih
  case loop => exact Handler.twin_loop ih
  case importModule => exact Handler.twin_importModule (hverbatims _ List.mem_cons_self)
  case importAs =>
    exact Handler.twin_importAs (hverbatims _ List.mem_cons_self)
      (hverbatims _ (List.mem_cons_of_mem _ List.mem_cons_self))
  case fromImport =>
    exact Handler.twin_fromImport (hverbatims _ List.mem_cons_self)
      fun t ht => hverbatims t (List.mem_cons_of_mem _ ht)

namespace Compiler

variable (o : Options) (parsers : Parsers)

theorem map_part_unlocated (n : Node) : Fields.map (builtin o parsers).part n.unlocated.fields =
    Fields.map (fun k => (builtin o parsers).part k.unlocated) n.fields := by
  rw [Node.fields_unlocated, Fields.map_map]
  rfl

/-- The work on a node and on the node unlocated are twins if they run alike. -/
theorem twinParts (h : ∀ depth, Alike V depth (Result.Twin V) ((builtin o parsers).part n).run
    ((builtin o parsers).part n.unlocated).run) :
    TwinParts V (builtin o parsers).part (fun k => (builtin o parsers).part k.unlocated) n where
  node := node_part _ _
  node' := node_part _ _
  fields := fields_part _ _
  fields' := (fields_part _ _).trans (map_part_unlocated o parsers n)
  run := h
  appends := keeps_part Draft.Appends.frame (rulesKeep_builtin _ _ _) _
  appends' := keeps_part Draft.Appends.frame (rulesKeep_builtin _ _ _) _

/-- **Compiling a node in twin runs.** -/
theorem twin_part (h : n.Within V) (depth : Nat) :
    Alike V depth (Result.Twin V) ((builtin o parsers).part n).run
      ((builtin o parsers).part n.unlocated).run := by
  induction n using Node.induction_descendants generalizing depth with
  | step n ih =>
    have hparts : ∀ m ∈ n.descendants, TwinParts V (builtin o parsers).part
        (fun k => (builtin o parsers).part k.unlocated) m := fun m hm =>
      twinParts o parsers (ih m hm (h.of_descendants hm))
    obtain ⟨name, hrun⟩ := run_builtin o parsers n
    obtain ⟨name', hrun'⟩ := run_builtin o parsers n.unlocated
    rw [hrun, hrun', map_part_unlocated, Node.form_unlocated]
    exact (Writes.note _ _).bind fun _ _ _ _ => Form.twin h.borrows hparts parsers depth

/-- **Compiling a tree in twin runs.** The last line of a program binds its
variable. -/
theorem twin_compileRoot (h : n.Within V) :
    Compile.Outcome V .empty
      (fun new outcome outcome' => outcome' = outcome ∧
        ∀ i, outcome = some i → ∃ before e, new = before ++ [⟨0, .output i e⟩])
      (exec ((builtin o parsers).compileRoot n) .empty)
      (exec ((builtin o parsers).compileRoot n.unlocated) .empty) := by
  have hpart := twin_part o parsers h 0 .empty .empty rfl
    ⟨rfl, rfl, rfl, rfl, rfl⟩
  rw [exec_compileRoot, exec_compileRoot]
  generalize exec ((builtin o parsers).part n).run .empty = x,
    exec ((builtin o parsers).part n.unlocated).run .empty = y at hpart
  cases hpart with
  | error hcause => exact .error hcause
  | @ok r r' new d d' hlines hblocks hdepth htwin hr =>
    cases hr with
    | none =>
      exact .ok hlines hblocks hdepth
        ⟨htwin.depth, htwin.lines, htwin.refs, htwin.helpers, htwin.fresh⟩ ⟨rfl, by simp⟩
    | @some es es' hes =>
      obtain ⟨hover, rfl⟩ := hes
      match es with
      | [] => exact .error rfl
      | [e] =>
        have hs : (Stmt.output d.fresh e).Over V := .output _ (hover e (List.mem_singleton_self e))
        have hemit := htwin.emit hs.isMark
        refine .ok ?_ (hblocks.append (.single hs rfl)) hdepth
          ⟨htwin.depth, ?_, htwin.refs, htwin.helpers, by rw [htwin.fresh]⟩
          ⟨by rw [htwin.fresh], ?_⟩
        · rw [hlines, hdepth, List.append_assoc]
        · rw [htwin.fresh]
          exact hemit.lines
        · rintro _ ⟨⟩
          exact ⟨new, e, rfl⟩
      | e :: f :: es => exact .error (by simp)

/-- The statements of a compiled program are over the vocabulary of its
tree. -/
theorem over_compileRoot (h : n.Within V) {outcome : Option Nat} {draft : Draft}
    (hrun : exec ((builtin o parsers).compileRoot n) .empty = (.ok outcome, draft)) :
    ∀ l ∈ Line.statements draft.lines, l.stmt.Over V := by
  have htwin := twin_compileRoot o parsers h
  rw [hrun] at htwin
  generalize exec ((builtin o parsers).compileRoot n.unlocated) .empty = y at htwin
  cases htwin with
  | @ok _ _ new _ _ hlines hblocks =>
    have hnew : draft.lines = new := hlines
    exact hnew ▸ hblocks.isOver

end Compiler

end ScriptSplice
