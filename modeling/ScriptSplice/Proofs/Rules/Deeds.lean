import ScriptSplice.Proofs.Compile.Deeds
import ScriptSplice.Proofs.Rules.ImportChain
import ScriptSplice.Proofs.Rules.Tally
/-!
# What rules do

The deeds of a rule are plain from its node (`Node.deeds`): the operands
that it compiles, its statement behind a mark, and what goes into the block
of the statement. One lemma for each handler says that the handler does
them, and so does compiling a node (`Compiler.does_part`).
-/

namespace ScriptSplice

open Compile

namespace Node

variable (n : Node)

/-- The parameters of a function. -/
def parameters : List Node := (n.argumentNodes 0).flatMap (sequenceNodes · "arguments")

/-- A parameter that may be left out is declared so. -/
def declareDeeds : List Deed := (n.childNodes "default").map fun _ => .lack

/-- The default of a parameter is computed in a block of its own. -/
def guardDeeds : List Deed :=
  (n.childNodes "default").flatMap fun value => [.write, .compile value, .write]

/-- The body among the arguments. -/
def blockDeeds (i : Nat) : List Deed := (n.argumentNodes i).flatMap bodyDeeds

/-- **The deeds of the rule for a node.** -/
def deeds : List Deed :=
  match n.form with
  | .generic => n.fields.flatMap fun f => f.value.deeds .generic
  | .root => n.fields.flatMap fun f => f.value.deeds .rootCommand
  | .statement | .control _ | .importModule | .importAs | .fromImport =>
    n.ahead.map .compile ++ [.write, .write]
  | .function =>
    n.parameters.flatMap declareDeeds ++
      ([.write, .write] ++ (n.parameters.flatMap guardDeeds ++ n.blockDeeds 1))
  | .branch _ => n.ahead.map .compile ++ ([.write, .write] ++ n.blockDeeds 1)
  | .otherwise => [.write, .write] ++ n.blockDeeds 0
  | .loop => n.ahead.map .compile ++ ([.write, .write] ++ n.blockDeeds 2)
  | _ => n.ahead.map .compile

/-- **What the rule for a node cannot do without**: its operands and its
body. -/
def needs : List (Option Node) :=
  match n.form with
  | .interpolation | .argumentInterpolation | .unary | .attributeOf => [n.child? (ascii "value")]
  | .binary => [n.child? (ascii "left"), n.child? (ascii "right")]
  | .formatString => n.children (ascii "values")
  | .tuple | .list => n.children (ascii "items")
  | .dict => (n.sequenceNodes "items").flatMap fun item =>
      [item.child? (ascii "key"), item.child? (ascii "value")]
  | .lookup | .call => n.child? (ascii "value") :: n.children (ascii "arguments")
  | .assignment => [n.child? (ascii "target"), n.child? (ascii "value")]
  | .function => [Handler.argument n.fields 1]
  | .branch _ => [0, 1].map (Handler.argument n.fields)
  | .otherwise => [Handler.argument n.fields 0]
  | .loop => [0, 1, 2].map (Handler.argument n.fields)
  | _ => []

theorem nodes_blockDeeds (i : Nat) : (n.blockDeeds i).flatMap Deed.nodes = n.bodyNodes i := by
  rw [blockDeeds, bodyNodes, List.flatMap_assoc]
  exact List.flatMap_congr fun m _ => List.append_nil _

theorem nodes_guardDeeds : n.guardDeeds.flatMap Deed.nodes = n.childNodes "default" := by
  rw [guardDeeds, List.flatMap_assoc]
  exact List.flatMap_singleton' _

variable {n} in
theorem eq_lack_of_mem_declareDeeds {x : Deed} (h : x ∈ n.declareDeeds) : x = .lack := by
  obtain ⟨_, -, rfl⟩ := List.mem_map.1 h
  rfl

theorem nodes_declareDeeds : n.declareDeeds.flatMap Deed.nodes = [] := by
  rw [declareDeeds, List.flatMap_map]
  exact List.flatMap_eq_nil_iff.2 fun _ _ => rfl

/-- **The nodes that a rule compiles** are those ahead of its statement and
those inside. -/
theorem nodes_deeds : n.deeds.flatMap Deed.nodes = n.ahead ++ n.inside := by
  have hfields (collection : Collection) :
      (n.fields.flatMap fun f => f.value.deeds collection).flatMap Deed.nodes = n.parts := by
    rw [List.flatMap_assoc]
    exact List.flatMap_congr fun f _ => f.value.nodes_deeds collection
  unfold deeds ahead inside
  cases n.form <;>
    simp [hfields, Deed.nodes_compile, nodes_blockDeeds, nodes_guardDeeds, nodes_declareDeeds,
      Deed.nodes, parameters, List.flatMap_assoc]

/-- **What is compiled in a tree** is its root, and what is compiled in the
nodes of its deeds. -/
theorem mem_invocations_iff {n m : Node} : m ∈ n.invocations ↔
    m = n ∨ ∃ x ∈ n.deeds, ∃ k ∈ x.nodes, m ∈ k.invocations := by
  rw [invocations_eq, ← n.nodes_deeds, List.mem_cons, List.mem_flatMap]
  refine or_congr_right ⟨?_, ?_⟩
  · rintro ⟨k, hk, hm⟩
    obtain ⟨x, hx, hkx⟩ := List.mem_flatMap.1 hk
    exact ⟨x, hx, k, hkx, hm⟩
  · rintro ⟨x, hx, k, hkx, hm⟩
    exact ⟨k, List.mem_flatMap.2 ⟨x, hx, hkx⟩, hm⟩

/-- The nodes of deeds are below the node. -/
theorem mem_descendants_of_mem_nodes {n m : Node} {x : Deed} (hx : x ∈ n.deeds) (hm : m ∈ x.nodes) :
    m ∈ n.descendants := by
  have hmem : m ∈ n.ahead ++ n.inside := n.nodes_deeds ▸ List.mem_flatMap.2 ⟨x, hx, hm⟩
  exact (List.mem_append.1 hmem).elim mem_descendants_of_mem_ahead mem_descendants_of_mem_inside

end Node

namespace Handler

variable {c : Compiler} {P : Prop} {n : Node} (parsers : Parsers)

/-! ## Parts of the node -/

theorem does_operand (name : String) (h : n.child? (ascii name) = none → P) :
    Does c P ((n.childNodes name).map .compile) (operand (Fields.map c.part n.fields) name) := by
  unfold operand
  rw [Fields.child?_map]
  exact .required h

theorem does_operands (name : String) (h : none ∈ n.children (ascii name) → P) :
    Does c P ((n.sequenceNodes name).map .compile)
      (operands (Fields.map c.part n.fields) name) := by
  have hdeeds : (n.sequenceNodes name).map Deed.compile =
      (n.children (ascii name)).flatMap fun child => child.toList.map .compile := by
    rw [← List.map_flatMap, ← List.filterMap_eq_flatMap_toList]
    rfl
  unfold operands
  rw [Fields.children_map, List.mapM_map, hdeeds]
  exact .mapM _ fun child hchild => .required fun hnone => h (hnone ▸ hchild)

theorem does_required (i : Nat) (h : argument n.fields i = none → P) :
    Does c P ((n.argumentNodes i).map .compile)
      (required (argument (Fields.map c.part n.fields) i)) := by
  rw [argument_map]
  exact .required h

theorem does_bracket (e : Expr) : Does c P [] (bracket n e) := .pure _

/-! ## Expressions -/

theorem does_interpolation (h : n.child? (ascii "value") = none → P) :
    Does c P ((n.childNodes "value").map .compile)
      (interpolation parsers n (Fields.map c.part n.fields)) :=
  (does_operand "value" h).next fun _ => (Does.ref _).after fun _ =>
    (Does.apply (by simp) _).after fun _ => does_bracket _

theorem does_argumentInterpolation (h : n.child? (ascii "value") = none → P) :
    Does c P ((n.childNodes "value").map .compile)
      (argumentInterpolation parsers n (Fields.map c.part n.fields)) := by
  simp only [argumentInterpolation]
  split
  · exact .throw _ fun habsence => absurd habsence Bool.false_ne_true
  · exact (does_operand "value" h).next fun _ => (Does.ref _).after fun _ =>
      (Does.apply (by simp) _).after fun _ => (Does.apply (by simp) _).after fun _ =>
        does_bracket _

theorem does_binary :
    Does c (none ∈ [n.child? (ascii "left"), n.child? (ascii "right")])
      ((n.childNodes "left" ++ n.childNodes "right").map .compile)
      (binary parsers n (Fields.map c.part n.fields)) := by
  rw [List.map_append]
  exact (does_operand "left" (by simp +contextual)).bind fun _ =>
    (does_operand "right" (by simp +contextual)).next fun _ => does_bracket _

/-- An entry of a dictionary is not compiled itself; its key and its value
are. -/
theorem does_entry {m : Node} (hkey : m.child? (ascii "key") = none → P)
    (hvalue : m.child? (ascii "value") = none → P) :
    Does c P ((m.childNodes "key" ++ m.childNodes "value").map .compile) (entry (c.part m)) := by
  unfold entry
  rw [c.fields_part, List.map_append]
  exact (does_operand "key" hkey).bind fun _ =>
    (does_operand "value" hvalue).next fun _ => .pure _

theorem does_dict :
    Does c (none ∈ (n.sequenceNodes "items").flatMap fun item =>
        [item.child? (ascii "key"), item.child? (ascii "value")])
      (((n.sequenceNodes "items").flatMap fun item =>
      item.childNodes "key" ++ item.childNodes "value").map .compile)
      (dict parsers n (Fields.map c.part n.fields)) := by
  simp only [dict, Fields.filterMap_children, List.mapM_map, List.map_flatMap]
  refine (Does.mapM _ fun m hm => does_entry ?_ ?_).next fun _ => does_bracket _
  · exact fun hkey => List.mem_flatMap.2 ⟨m, hm, by simp [hkey]⟩
  · exact fun hvalue => List.mem_flatMap.2 ⟨m, hm, by simp [hvalue]⟩

theorem does_attributeOf (h : n.child? (ascii "value") = none → P) :
    Does c P ((n.childNodes "value").map .compile)
      (attributeOf parsers n (Fields.map c.part n.fields)) :=
  (does_operand "value" h).next fun _ => (Does.apply (by simp) _).after fun _ => does_bracket _

theorem does_lookup :
    Does c (none ∈ n.child? (ascii "value") :: n.children (ascii "arguments"))
      ((n.childNodes "value" ++ n.sequenceNodes "arguments").map .compile)
      (lookup parsers n (Fields.map c.part n.fields)) := by
  rw [List.map_append]
  exact (does_operand "value" (by simp +contextual)).bind fun _ =>
    (does_operands "arguments" (List.mem_cons_of_mem _)).next fun _ => does_bracket _

theorem does_call :
    Does c (none ∈ n.child? (ascii "value") :: n.children (ascii "arguments"))
      ((n.childNodes "value" ++ n.sequenceNodes "arguments").map .compile)
      (call parsers n (Fields.map c.part n.fields)) := by
  rw [List.map_append]
  exact (does_operand "value" (by simp +contextual)).bind fun _ =>
    (does_operands "arguments" (List.mem_cons_of_mem _)).next fun _ => does_bracket _

theorem does_assignment :
    Does c (none ∈ [n.child? (ascii "target"), n.child? (ascii "value")])
      ((n.childNodes "target" ++ n.childNodes "value").map .compile)
      (assignment parsers n (Fields.map c.part n.fields)) := by
  rw [List.map_append]
  exact (does_operand "target" (by simp +contextual)).bind fun _ =>
    (does_operand "value" (by simp +contextual)).next fun _ => .pure _

/-! ## Statements -/

/-- A statement behind its mark. -/
theorem does_statement {xs : List Deed} (s : Stmt) {next : Compile Result}
    (hnext : Does c P xs next) :
    Does c P ([.write, .write] ++ xs) (do Drafting.mark n.location; Drafting.emit s; next) :=
  (Does.mark _).bind fun _ => (Does.emit s).bind fun _ => hnext

theorem does_expressionStatement :
    Does c P ((n.argumentNodes 0).map .compile ++ [.write, .write])
      (expressionStatement parsers n (Fields.map c.part n.fields)) := by
  unfold expressionStatement
  rw [argument_map]
  refine (Does.operand? _).bind fun r => ?_
  cases r with
  | none => exact (Does.skip ()).bind fun _ => .skip _
  | some e => exact does_statement _ (.pure _)

theorem does_control (keyword : String) :
    Does c P ((n.argumentNodes 0).map .compile ++ [.write, .write])
      (control keyword parsers n (Fields.map c.part n.fields)) := by
  unfold control
  rw [argument_map, Node.argumentNodes]
  cases argument n.fields 0 with
  | none => exact (Does.pure none).bind fun _ => does_statement _ (.pure _)
  | some m =>
    have hsome : Does c P [.compile m] (some <$> required (some (c.part m))) :=
      (Does.required (o := some m) nofun).next fun _ => .pure _
    exact hsome.bind fun _ => does_statement _ (.pure _)

/-- The block of a statement is the body among the arguments. -/
theorem does_bodyOf (i : Nat) (h : argument n.fields i = none → P) :
    Does c P (n.blockDeeds i) (bodyOf (argument (Fields.map c.part n.fields) i)) := by
  rw [argument_map, Node.blockDeeds, Node.argumentNodes]
  cases hi : argument n.fields i with
  | none => exact .throw _ fun _ => h hi
  | some m =>
    rw [Option.map_some, bodyOf, c.node_part, c.fields_part, Option.toList_some,
      List.flatMap_singleton]
    exact .body m

theorem does_block (i : Nat) (h : argument n.fields i = none → P) :
    Does c P (n.blockDeeds i)
      (do inBlock (bodyOf (argument (Fields.map c.part n.fields) i)); return some [] :
        Compile Result) :=
  (does_bodyOf i h).inBlock.next fun _ => .pure _

theorem does_branch (keyword : String) :
    Does c (none ∈ [0, 1].map (argument n.fields))
      ((n.argumentNodes 0).map .compile ++ ([.write, .write] ++ n.blockDeeds 1))
      (branch keyword parsers n (Fields.map c.part n.fields)) :=
  (does_required 0 (by simp +contextual)).bind fun _ =>
    does_statement _ (does_block 1 (by simp +contextual))

theorem does_loop :
    Does c (none ∈ [0, 1, 2].map (argument n.fields))
      ((n.argumentNodes 0 ++ n.argumentNodes 1).map .compile ++
      ([.write, .write] ++ n.blockDeeds 2)) (loop parsers n (Fields.map c.part n.fields)) := by
  rw [List.map_append, List.append_assoc]
  exact (does_required 0 (by simp +contextual)).bind fun _ =>
    (does_required 1 (by simp +contextual)).bind fun _ =>
      does_statement _ (does_block 2 (by simp +contextual))

/-! ## Functions -/

theorem parameterDefault_eq (m : Node) :
    parameterDefault (c.part m) = (m.child? (ascii "default")).map c.part := by
  rw [parameterDefault, c.fields_part, Fields.child?_map]
  rfl

theorem does_declare (m : Node) :
    Does c P m.declareDeeds (liftM (declare (c.part m))) := by
  unfold declare Node.declareDeeds Node.childNodes
  rw [parameterDefault_eq]
  cases m.child? (ascii "default") with
  | none => exact .pure _
  | some value => exact Does.lack.next fun _ => .pure _

theorem does_supplyDefault (m : Node) :
    Does c P m.guardDeeds (supplyDefault (c.part m)) := by
  unfold supplyDefault Node.guardDeeds Node.childNodes
  rw [parameterDefault_eq]
  cases m.child? (ascii "default") with
  | none => exact .pure _
  | some value =>
    exact (Does.emit _).bind fun _ =>
      ((Does.required (o := some value) nofun).bind fun _ => .emit _).inBlock

theorem does_declares (ps : List Node) :
    Does c P (ps.flatMap Node.declareDeeds) (liftM (ps.mapM fun p => declare (c.part p))) := by
  rw [liftM_mapM]
  exact .mapM ps fun p _ => does_declare p

theorem does_supplyDefaults (ps : List Node) :
    Does c P (ps.flatMap Node.guardDeeds) (ps.forM fun p => supplyDefault (c.part p)) :=
  .forM ps fun p _ => does_supplyDefault p

/-- The signature of a function is its first argument. -/
theorem exec_signatureOf {signature : Part} {d d' : Draft}
    (hrun : exec (signatureOf n (Fields.map c.part n.fields)) d = (.ok signature, d')) :
    ∃ m, argument n.fields 0 = some m ∧ m.kind = .functionSignature ∧ signature = c.part m ∧
      d' = d := by
  unfold signatureOf at hrun
  rw [argument_map] at hrun
  cases hm : argument n.fields 0 with
  | none =>
    rw [hm] at hrun
    cases hrun
  | some m =>
    rw [hm] at hrun
    simp only [Option.map_some, c.node_part] at hrun
    split at hrun
    · cases hrun
      exact ⟨m, rfl, ‹_›, rfl, rfl⟩
    · cases hrun

/-- The parameters are those of the signature. -/
theorem parameters_of_signature {m : Node} (hm : argument n.fields 0 = some m) :
    parametersOf (c.part m) = n.parameters.map c.part := by
  rw [parametersOf, c.fields_part, Fields.filterMap_children, Node.parameters, Node.argumentNodes,
    hm, Option.toList_some, List.flatMap_singleton]
  rfl

theorem does_function :
    Does c (none ∈ [argument n.fields 1])
      (n.parameters.flatMap Node.declareDeeds ++
        ([.write, .write] ++ (n.parameters.flatMap Node.guardDeeds ++ n.blockDeeds 1)))
      (function parsers n (Fields.map c.part n.fields)) := by
  have hsignature : Does c (none ∈ [argument n.fields 1]) []
      (signatureOf n (Fields.map c.part n.fields)) := by
    unfold signatureOf
    split
    · split
      · exact .pure _
      · exact .throw _ nofun
    · exact .throw _ nofun
  refine hsignature.bind_of_ok fun signature d d' hrun => ?_
  obtain ⟨m, hm, -, rfl, -⟩ := exec_signatureOf hrun
  simp only [parameters_of_signature hm, List.mapM_map, List.forM_eq_forM, List.forM_map]
  exact (does_declares n.parameters).bind fun declared => does_statement _
    (((does_supplyDefaults n.parameters).bind fun _ =>
      does_bodyOf 1 (by simp +contextual)).inBlock.next fun _ => .pure _)

/-! ## Imports -/

/-- What is malformed is there. -/
private theorem isAbsence_of_code {cause : Cause} (h : cause.code = .malformedImport) :
    cause.isAbsence = false := by
  cases cause <;> first | rfl | cases h

theorem does_moduleOf : Does c P [] (liftExcept (moduleOf n)) :=
  .read fun _ h => isAbsence_of_code (code_of_moduleOf h)

theorem does_importedNames : Does c P [] (liftExcept (importedNames n)) :=
  .read fun _ h => isAbsence_of_code (code_of_importedNames h)

/-- A helper may be put to use behind the mark. -/
theorem does_import (script : Bool) {h : Helper} (hne : h ≠ .missing) (s t : Stmt) :
    Does c P [.write, .write]
      (do
        Drafting.mark n.location
        if script then
          Drafting.use h
          Drafting.emit s
        else Drafting.emit t
        return some [] : Compile Result) := by
  cases script with
  | true =>
    exact (Does.mark _).bind fun _ => (Does.use hne).after fun _ => (Does.emit s).next fun _ =>
      .pure _
  | false => exact does_statement t (.pure _)

variable (parts : Fields Part)

theorem does_importModule : Does c P [.write, .write] (importModule parsers n parts) :=
  does_moduleOf.after fun m => does_import m.isScript (by simp) _ _

theorem does_importAs : Does c P [.write, .write] (importAs parsers n parts) := by
  refine does_moduleOf.after fun m => ?_
  simp only
  split
  · exact .throw _ nofun
  · exact does_import m.isScript (by simp) _ _

theorem does_fromImport : Does c P [.write, .write] (fromImport parsers n parts) :=
  does_moduleOf.after fun m => does_importedNames.after fun _ =>
    does_import m.isScript (by simp) _ _

end Handler

/-! ## Nodes -/

/-- **Handlers do the deeds of their nodes.** -/
theorem Form.does (c : Compiler) (parsers : Parsers) (n : Node) :
    Does c (none ∈ n.needs) n.deeds (n.form.handler parsers n (Fields.map c.part n.fields)) := by
  unfold Node.deeds Node.ahead Node.needs
  cases n.form with
  | generic | root => exact (Does.rebuild _ n).next fun _ => .pure _
  | interpolation => exact Handler.does_interpolation parsers (by simp +contextual)
  | argumentInterpolation => exact Handler.does_argumentInterpolation parsers (by simp +contextual)
  | binary => exact Handler.does_binary parsers
  | unary =>
    exact (Handler.does_operand _ (by simp +contextual)).next fun _ => Handler.does_bracket _
  | value | identifier | targetIdentifier => exact .pure _
  | formatString | tuple | list =>
    exact (Handler.does_operands _ id).next fun _ => Handler.does_bracket _
  | dict => exact Handler.does_dict parsers
  | attributeOf => exact Handler.does_attributeOf parsers (by simp +contextual)
  | lookup => exact Handler.does_lookup parsers
  | call => exact Handler.does_call parsers
  | assignment => exact Handler.does_assignment parsers
  | statement => exact Handler.does_expressionStatement parsers
  | function => exact Handler.does_function parsers
  | control keyword => exact Handler.does_control parsers keyword
  | branch keyword => exact Handler.does_branch parsers keyword
  | otherwise =>
    exact Handler.does_statement _ (Handler.does_block 0 (by simp +contextual))
  | loop => exact Handler.does_loop parsers
  | importModule => exact Handler.does_importModule parsers (Fields.map c.part n.fields)
  | importAs => exact Handler.does_importAs parsers (Fields.map c.part n.fields)
  | fromImport => exact Handler.does_fromImport parsers (Fields.map c.part n.fields)

/-- **Compiling a node does the deeds of its rule**, and fails for want of
something only if the node has not all that it needs. -/
theorem Compiler.does_part (o : Options) (parsers : Parsers) (n : Node) :
    Does (builtin o parsers) (none ∈ n.needs) n.deeds ((builtin o parsers).part n).run := by
  obtain ⟨name, hrun⟩ := run_builtin o parsers n
  rw [hrun]
  exact (Does.note _).after fun _ => Form.does _ parsers n

end ScriptSplice
