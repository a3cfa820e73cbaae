import ScriptSplice.Proofs.Compile.Widening
import ScriptSplice.Proofs.Rules.ImportChain
import ScriptSplice.Proofs.Rules.Trichotomy
/-!
# More argument parsers

Adding argument parsers to a compiler changes nothing for a tree that it
does not refuse for want of one. A compilation that lacks a parser fails
at the first interpolation that asks for it, and goes on failing there
until it has that parser (`Compiler.parsers_monotone`).

The compilations with the parsers and with more of them go through the
tree together (`Compiler.widened`), and every failure on the way is about
a node of the tree or about something that is missing in it
(`Failure.Concerns`).
-/

namespace ScriptSplice

open Compile

variable {α : Type} {S T : Parsers} {root n m : Node}

/-! ## Failures -/

/-- **What a failure is about**, when a tree is compiled with some argument
parsers. -/
inductive Compile.Failure.Concerns (parsers : Parsers) (root : Node) : Failure → Prop
  /-- What is missing has no place. -/
  | absent {cause : Cause} : cause = .missingOperand ∨ cause = .missingBody →
    Concerns parsers root ⟨cause, .unknown⟩
  /-- A node of the tree is not as it should be. -/
  | node {m : Node} {cause : Cause} : m ∈ root.subtree → cause.code ≠ .unknownArgumentType →
    Concerns parsers root ⟨cause, m.location⟩
  /-- An interpolation asks for a parser that is not known. -/
  | parser {m : Node} : m ∈ root.subtree → m.kind = .argumentInterpolation →
    m.text (ascii "parser") ∉ parsers →
    Concerns parsers root ⟨.unknownParser (m.text (ascii "parser")), m.location⟩

namespace Compile.Failure

/-- Only an interpolation is refused for want of a parser. -/
theorem Concerns.exists_of_code {f : Failure} (h : f.Concerns S root)
    (hcode : f.cause.code = .unknownArgumentType) :
    ∃ m ∈ root.subtree, m.kind = .argumentInterpolation ∧ m.text (ascii "parser") ∉ S ∧
      f = ⟨.unknownParser (m.text (ascii "parser")), m.location⟩ := by
  cases h with
  | absent hcause => rcases hcause with rfl | rfl <;> cases hcode
  | node _ hne => exact absurd hcode hne
  | parser hm hkind hnot => exact ⟨_, hm, hkind, hnot, rfl⟩

end Compile.Failure

namespace Handler

/-- What is not a module is refused at the command or at its argument. -/
theorem concerns_moduleOf (hn : n ∈ root.subtree) {f : Failure} (h : moduleOf n = .error f) :
    f.Concerns S root := by
  have hnone : ∀ m, ¬NamesModule n m := fun m hm => by simp [moduleOf_ok hm] at h
  obtain ⟨g, hg, rfl | ⟨l, hl, rfl⟩⟩ := moduleOf_error hnone
  · obtain rfl := Except.error.inj (h.symm.trans hg)
    exact .node hn nofun
  · obtain rfl := Except.error.inj (h.symm.trans hg)
    exact .node (Node.subtree_trans hn (Node.mem_subtree_of_mem_parts (mem_nodes_of_argument hl)))
      nofun

/-- A from-import without names is refused there or at a link. -/
theorem concerns_importedNames (hn : n ∈ root.subtree) {f : Failure}
    (h : importedNames n = .error f) : f.Concerns S root := by
  obtain ⟨ls, hls⟩ := Chain.exists_links (argument n.fields 1)
  have hbad : (∃ l ∈ ls, l.kind ≠ .command) ∨ ls.filterMap carriedName = [] := by
    by_contra hgood
    push Not at hgood
    simp [hls.importedNames_ok hgood.1 hgood.2] at h
  obtain ⟨g, hg, rfl | ⟨l, hl, rfl⟩⟩ := hls.importedNames_error hbad
  · obtain rfl := Except.error.inj (h.symm.trans hg)
    exact .node hn nofun
  · obtain rfl := Except.error.inj (h.symm.trans hg)
    obtain ⟨m, hm, hlm⟩ := hls.mem_subtree hl
    have hmn := Node.mem_subtree_of_mem_parts (mem_nodes_of_argument hm)
    exact .node (Node.subtree_trans hn (Node.subtree_trans hmn hlm)) nofun

end Handler

/-! ## Parts -/

namespace Compiler

/-- A node of the tree, compiled with some argument parsers and with
more. -/
structure Widened (o : Options) (S T : Parsers) (root m : Node) : Prop where
  mem : m ∈ root.subtree
  run : Widens (Failure.Concerns S root) T ((builtin o S).part m).run ((builtin o T).part m).run

variable {o : Options}

theorem Widened.single? (h : Widened o S T root m) :
    Widens (Failure.Concerns S root) T (single? ((builtin o S).part m))
      (single? ((builtin o T).part m)) := by
  refine h.run.bind fun r => ?_
  match r with
  | none => exact .pure _
  | some [e] => exact .pure _
  | some [] | some (_ :: _ :: _) =>
    rw [node_part, node_part]
    exact .throw (.node h.mem nofun)

theorem widens_operand? {m : Option Node} (h : ∀ k ∈ m, Widened o S T root k) :
    Widens (Failure.Concerns S root) T (operand? (m.map (builtin o S).part))
      (operand? (m.map (builtin o T).part)) := by
  cases m with
  | none => exact .pure _
  | some m => exact (h m rfl).single?

theorem widens_required {m : Option Node} (h : ∀ k ∈ m, Widened o S T root k) :
    Widens (Failure.Concerns S root) T (required (m.map (builtin o S).part))
      (required (m.map (builtin o T).part)) := by
  cases m with
  | none => exact .throw (.absent (.inl rfl))
  | some m =>
    refine (h m rfl).single?.bind fun e => ?_
    cases e with
    | none =>
      rw [node_part, node_part]
      exact .lift _
    | some e => exact .pure _

/-- Both runs splice the fragments of a child alike. -/
theorem widens_step (collection : Collection) (count i : Nat) {m : Option Node}
    (h : ∀ k ∈ m, Widened o S T root k) (s : Splice) :
    Widens (Failure.Concerns S root) T
      (s.step collection count (m.map (builtin o S).part, i))
      (s.step collection count (m.map (builtin o T).part, i)) := by
  cases m with
  | none => exact .pure _
  | some m =>
    simp only [Option.map_some, Splice.step, node_part]
    refine (h m rfl).run.bind fun r => ?_
    cases r with
    | none => exact .pure _
    | some es => exact .after fun c => .lift _

theorem widens_splice (collection : Collection) {ms : List (Option Node)}
    (h : ∀ m, some m ∈ ms → Widened o S T root m) :
    Widens (Failure.Concerns S root) T (splice collection (ms.map (·.map (builtin o S).part)))
      (splice collection (ms.map (·.map (builtin o T).part))) := by
  unfold splice
  rw [List.zipIdx_map, List.zipIdx_map, List.length_map, List.length_map]
  refine .bind (.lift get) fun d => .bind ?_ fun s => .lift _
  rw [List.foldlM_map, List.foldlM_map]
  refine .foldlM _ (fun x hx s => ?_) _
  obtain ⟨m, i⟩ := x
  exact widens_step collection _ i
    (fun k hk => h k (hk ▸ (List.mem_zipIdx' hx).2 ▸ List.getElem_mem _)) s

/-- A field with a changed child changes alike. -/
theorem widens_changedField (collection : Collection) {f : Field Node}
    (h : ∀ m ∈ f.value.nodes, Widened o S T root m) :
    Widens (Failure.Concerns S root) T (changedField collection (f.map (builtin o S).part))
      (changedField collection (f.map (builtin o T).part)) := by
  obtain ⟨name, value⟩ := f
  cases value with
  | leaf l => exact .pure _
  | child m =>
    have hm : ∀ k ∈ m, Widened o S T root k := fun k hk => h k (by simpa [Value.nodes] using hk)
    exact (widens_operand? hm).bind fun _ => .pure _
  | children ms =>
    have hms : ∀ m, some m ∈ ms → Widened o S T root m :=
      fun m hm => h m (by simpa [Value.nodes] using hm)
    exact (widens_splice collection hms).bind fun _ => .pure _

theorem widens_rebuild (collection : Collection) (h : ∀ m ∈ n.parts, Widened o S T root m) :
    Widens (Failure.Concerns S root) T
      (Compile.rebuild collection n (Fields.map (builtin o S).part n.fields))
      (Compile.rebuild collection n (Fields.map (builtin o T).part n.fields)) := by
  unfold Compile.rebuild Fields.map
  rw [List.mapM_map, List.mapM_map]
  refine .bind (.mapM _ fun f hf =>
    widens_changedField collection fun m hm => h m (Fields.mem_nodes hf hm)) fun changes => ?_
  split
  · exact .pure _
  · exact .after fun _ => .after fun _ => .pure _

theorem widens_body (collection : Collection) (h : ∀ m ∈ n.parts, Widened o S T root m) :
    Widens (Failure.Concerns S root) T
      (body collection n (Fields.map (builtin o S).part n.fields))
      (body collection n (Fields.map (builtin o T).part n.fields)) := by
  unfold body
  rw [Fields.children_map, Fields.children_map]
  refine (widens_splice collection fun m hm => h m (Fields.mem_nodes_of_children hm)).bind
    fun r => ?_
  cases r with
  | none => exact .after fun _ => .lift _
  | some _ => exact .pure _

/-! ## Handlers -/

/-- The parameters of a signature. -/
theorem parametersOf_part (c : Compiler) (m : Node) :
    Handler.parametersOf (c.part m) =
      ((Fields.children m.fields (ascii "arguments")).filterMap id).map c.part := by
  rw [Handler.parametersOf, fields_part, Fields.filterMap_children]

/-- Parameters are declared alike, whatever the parsers are. -/
theorem declare_part (m : Node) :
    Handler.declare ((builtin o S).part m) = Handler.declare ((builtin o T).part m) := by
  unfold Handler.declare Handler.parameterDefault Handler.parameterName
  simp only [fields_part, node_part, Fields.child?_map, Option.isSome_map]

/-- Only nodes of one kind are compiled as interpolated arguments. -/
theorem kind_of_form_argumentInterpolation (h : n.form = .argumentInterpolation) :
    n.kind = .argumentInterpolation := by
  by_cases hk : n.kind = .command
  · have hform : n.form = .ofCommand (n.leaf? Handler.identifierField) := by
      rw [Node.form, hk]
    have hstatement := Form.isDynamic_ofCommand (n.leaf? Handler.identifierField)
    rw [← hform, h] at hstatement
    cases hstatement
  · obtain ⟨kind, fields, location⟩ := n
    cases kind <;> first | rfl | cases h | exact absurd rfl hk

section Handlers

variable (h : ∀ m ∈ n.descendants, Widened o S T root m)

include h

theorem widened_child {name : Text} (hm : Fields.child? n.fields name = some m) :
    Widened o S T root m :=
  h m (Node.mem_descendants_of_mem_parts (Fields.mem_nodes_of_child? hm))

theorem widened_argument {i : Nat} (hm : Handler.argument n.fields i = some m) :
    Widened o S T root m :=
  h m (Node.mem_descendants_of_mem_parts (Handler.mem_nodes_of_argument hm))

theorem widens_operand (name : String) :
    Widens (Failure.Concerns S root) T
      (Handler.operand (Fields.map (builtin o S).part n.fields) name)
      (Handler.operand (Fields.map (builtin o T).part n.fields) name) := by
  rw [Handler.operand, Handler.operand, Fields.child?_map, Fields.child?_map]
  exact widens_required fun m hm => widened_child h hm

theorem widens_operands (name : String) :
    Widens (Failure.Concerns S root) T
      (Handler.operands (Fields.map (builtin o S).part n.fields) name)
      (Handler.operands (Fields.map (builtin o T).part n.fields) name) := by
  rw [Handler.operands, Handler.operands, Fields.children_map, Fields.children_map,
    List.mapM_map, List.mapM_map]
  exact .mapM _ fun m hm => widens_required fun k hk =>
    h k (Node.mem_descendants_of_mem_children (hk ▸ hm))

theorem widens_argument (i : Nat) :
    Widens (Failure.Concerns S root) T
      (required (Handler.argument (Fields.map (builtin o S).part n.fields) i))
      (required (Handler.argument (Fields.map (builtin o T).part n.fields) i)) := by
  rw [Handler.argument_map, Handler.argument_map]
  exact widens_required fun m hm => widened_argument h hm

theorem widens_bodyOf (i : Nat) :
    Widens (Failure.Concerns S root) T
      (bodyOf (Handler.argument (Fields.map (builtin o S).part n.fields) i))
      (bodyOf (Handler.argument (Fields.map (builtin o T).part n.fields) i)) := by
  rw [Handler.argument_map, Handler.argument_map]
  cases hi : Handler.argument n.fields i with
  | none => exact .throw (.absent (.inr rfl))
  | some m =>
    have hm := Node.mem_descendants_of_mem_parts (Handler.mem_nodes_of_argument hi)
    rw [Option.map_some, Option.map_some, bodyOf, bodyOf, node_part, fields_part, node_part,
      fields_part]
    exact widens_body .command fun k hk =>
      h k (Node.descendants_trans hm (Node.mem_descendants_of_mem_parts hk))

theorem widens_entry :
    Widens (Failure.Concerns S root) T (Handler.entry ((builtin o S).part n))
      (Handler.entry ((builtin o T).part n)) := by
  rw [Handler.entry, Handler.entry, fields_part, fields_part]
  exact (widens_operand h "key").bind fun _ => (widens_operand h "value").bind fun _ => .pure _

theorem widens_dict :
    Widens (Failure.Concerns S root) T
      (Handler.dict S n (Fields.map (builtin o S).part n.fields))
      (Handler.dict T n (Fields.map (builtin o T).part n.fields)) := by
  unfold Handler.dict
  rw [Fields.filterMap_children, Fields.filterMap_children]
  refine .bind ?_ fun _ => .pure _
  rw [List.mapM_map, List.mapM_map]
  refine .mapM _ fun m hm => widens_entry fun k hk => h k ?_
  exact Node.descendants_trans (Node.mem_descendants_of_mem_filterMap hm) hk

theorem widens_statement :
    Widens (Failure.Concerns S root) T
      (Handler.expressionStatement S n (Fields.map (builtin o S).part n.fields))
      (Handler.expressionStatement T n (Fields.map (builtin o T).part n.fields)) := by
  unfold Handler.expressionStatement
  rw [Handler.argument_map, Handler.argument_map]
  refine (widens_operand? fun m hm => widened_argument h hm).bind fun e => ?_
  cases e with
  | none => exact .pure _
  | some e => exact .after fun _ => .after fun _ => .pure _

theorem widens_control (keyword : String) :
    Widens (Failure.Concerns S root) T
      (Handler.control keyword S n (Fields.map (builtin o S).part n.fields))
      (Handler.control keyword T n (Fields.map (builtin o T).part n.fields)) := by
  unfold Handler.control
  rw [Handler.argument_map, Handler.argument_map]
  cases hm : Handler.argument n.fields 0 with
  | none => exact .bind (.pure _) fun _ => .after fun _ => .after fun _ => .pure _
  | some m =>
    have hrequired := widens_required (m := some m) fun k hk => widened_argument h (hk ▸ hm)
    exact (hrequired.map some).bind fun _ => .after fun _ => .after fun _ => .pure _

theorem widens_supplyDefault :
    Widens (Failure.Concerns S root) T (Handler.supplyDefault ((builtin o S).part n))
      (Handler.supplyDefault ((builtin o T).part n)) := by
  unfold Handler.supplyDefault Handler.parameterDefault Handler.parameterName
  rw [fields_part, fields_part, Fields.child?_map, Fields.child?_map, node_part, node_part]
  cases hm : Fields.child? n.fields (ascii "default") with
  | none => exact .pure _
  | some m =>
    have hrequired := widens_required (m := some m) fun k hk => widened_child h (hk ▸ hm)
    exact .after fun _ => (hrequired.bind fun _ => .lift _).inBlock

/-- The default of a parameter is a part of the signature. -/
theorem widens_supplyDefaults :
    Widens (Failure.Concerns S root) T
      ((Handler.parametersOf ((builtin o S).part n)).forM Handler.supplyDefault)
      ((Handler.parametersOf ((builtin o T).part n)).forM Handler.supplyDefault) := by
  rw [parametersOf_part, parametersOf_part, List.forM_eq_forM, List.forM_map, List.forM_map]
  refine .forM _ fun m hm => widens_supplyDefault fun k hk => h k ?_
  exact Node.descendants_trans (Node.mem_descendants_of_mem_filterMap hm) hk

theorem widens_function (hn : n ∈ root.subtree) :
    Widens (Failure.Concerns S root) T
      (Handler.function S n (Fields.map (builtin o S).part n.fields))
      (Handler.function T n (Fields.map (builtin o T).part n.fields)) := by
  have hbody := widens_bodyOf h 1
  unfold Handler.function Handler.signatureOf
  rw [Handler.argument_map _ _ 0, Handler.argument_map _ _ 0]
  cases hm : Handler.argument n.fields 0 with
  | none => exact .throw (.node hn nofun)
  | some m =>
    have hmem := Node.mem_descendants_of_mem_parts (Handler.mem_nodes_of_argument hm)
    simp only [Option.map_some, node_part]
    by_cases hk : m.kind = .functionSignature
    · have hdeclare : (Handler.parametersOf ((builtin o S).part m)).mapM Handler.declare =
          (Handler.parametersOf ((builtin o T).part m)).mapM Handler.declare := by
        rw [parametersOf_part, parametersOf_part, List.mapM_map, List.mapM_map]
        exact congrArg (List.mapM · _) (funext declare_part)
      have hdefaults := widens_supplyDefaults (n := m) fun k hk =>
        h k (Node.descendants_trans hmem hk)
      simp only [hk, if_true, pure_bind, hdeclare, node_part]
      exact .after fun _ => .after fun _ => .after fun _ =>
        (hdefaults.bind fun _ => hbody).inBlock.bind fun _ => .pure _
    · rw [if_neg hk, if_neg hk]
      exact .throw (.node hn nofun)

/-- The only rule that looks parsers up. Without the one it asks for it fails
before anything else. -/
theorem widens_argumentInterpolation (hST : S ⊆ T) (hn : n ∈ root.subtree)
    (hform : n.form = .argumentInterpolation) :
    Widens (Failure.Concerns S root) T
      (Handler.argumentInterpolation S n (Fields.map (builtin o S).part n.fields))
      (Handler.argumentInterpolation T n (Fields.map (builtin o T).part n.fields)) := by
  simp only [Handler.argumentInterpolation]
  by_cases hS : n.text (ascii "parser") ∈ S
  · rw [if_neg (by simpa using hS), if_neg (by simpa using hST hS)]
    exact (widens_operand h "value").bind fun _ => .after fun _ => .after fun _ =>
      .after fun _ => .pure _
  · have hconcerns : Failure.Concerns S root
        ⟨.unknownParser (n.text (ascii "parser")), n.location⟩ :=
      .parser hn (kind_of_form_argumentInterpolation hform) hS
    rw [if_pos (by simpa using hS)]
    by_cases hT : n.text (ascii "parser") ∈ T
    · exact fun d => .admitted d _ hconcerns rfl hT
    · rw [if_pos (by simpa using hT)]
      exact .throw hconcerns

/-- **Every handler does more with more parsers.** -/
theorem widens_handler (hST : S ⊆ T) (hn : n ∈ root.subtree) :
    Widens (Failure.Concerns S root) T
      (n.form.handler S n (Fields.map (builtin o S).part n.fields))
      (n.form.handler T n (Fields.map (builtin o T).part n.fields)) := by
  have hparts : ∀ m ∈ n.parts, Widened o S T root m :=
    fun m hm => h m (Node.mem_descendants_of_mem_parts hm)
  cases hform : n.form with
  | generic | root => exact (widens_rebuild _ hparts).bind fun _ => .pure _
  | interpolation =>
    exact (widens_operand h "value").bind fun _ => .after fun _ => .after fun _ => .pure _
  | argumentInterpolation => exact widens_argumentInterpolation h hST hn hform
  | binary =>
    exact (widens_operand h "left").bind fun _ => (widens_operand h "right").bind fun _ => .pure _
  | unary => exact (widens_operand h "value").bind fun _ => .pure _
  | value | identifier | targetIdentifier => exact .pure _
  | formatString => exact (widens_operands h "values").bind fun _ => .pure _
  | tuple | list => exact (widens_operands h "items").bind fun _ => .pure _
  | dict => exact widens_dict h
  | attributeOf => exact (widens_operand h "value").bind fun _ => .after fun _ => .pure _
  | lookup | call =>
    exact (widens_operand h "value").bind fun _ =>
      (widens_operands h "arguments").bind fun _ => .pure _
  | assignment =>
    exact (widens_operand h "target").bind fun _ =>
      (widens_operand h "value").bind fun _ => .pure _
  | statement => exact widens_statement h
  | function => exact widens_function h hn
  | control keyword => exact widens_control h keyword
  | branch keyword =>
    exact (widens_argument h 0).bind fun _ => .after fun _ => .after fun _ =>
      (widens_bodyOf h 1).inBlock.bind fun _ => .pure _
  | otherwise =>
    exact .after fun _ => .after fun _ => (widens_bodyOf h 0).inBlock.bind fun _ => .pure _
  | loop =>
    exact (widens_argument h 0).bind fun _ => (widens_argument h 1).bind fun _ =>
      .after fun _ => .after fun _ => (widens_bodyOf h 2).inBlock.bind fun _ => .pure _
  | importModule =>
    refine (Widens.read fun f hf => Handler.concerns_moduleOf hn hf).bind fun m =>
      .after fun _ => ?_
    split
    · exact .after fun _ => .after fun _ => .pure _
    · exact .after fun _ => .pure _
  | importAs =>
    refine (Widens.read fun f hf => Handler.concerns_moduleOf hn hf).bind fun m => ?_
    simp only
    split
    · exact .throw (.node hn nofun)
    · refine .after fun _ => ?_
      split
      · exact .after fun _ => .after fun _ => .pure _
      · exact .after fun _ => .pure _
  | fromImport =>
    refine (Widens.read fun f hf => Handler.concerns_moduleOf hn hf).bind fun m =>
      (Widens.read fun f hf => Handler.concerns_importedNames hn hf).bind fun names =>
      .after fun _ => ?_
    split
    · exact .after fun _ => .after fun _ => .pure _
    · exact .after fun _ => .pure _

end Handlers

/-! ## Trees -/

/-- **More parsers, node by node.** -/
theorem widened (o : Options) (hST : S ⊆ T) (hn : n ∈ root.subtree) : Widened o S T root n := by
  induction n using Node.induction_descendants with
  | step n ih =>
    have hbelow : ∀ m ∈ n.descendants, Widened o S T root m :=
      fun m hm => ih m hm (Node.subtree_trans hn (Node.mem_subtree.2 (.inr hm)))
    refine ⟨hn, ?_⟩
    obtain ⟨name, hrun⟩ := exists_rule o n
    rw [hrun, hrun]
    exact .after fun _ => widens_handler hbelow hST hn

/-- **More parsers, for a whole tree.** -/
theorem widens_compileRoot (o : Options) (hST : S ⊆ T) (root : Node) :
    Widens (Failure.Concerns S root) T ((builtin o S).compileRoot root)
      ((builtin o T).compileRoot root) := by
  have hroot := Node.mem_subtree_self root
  refine (widened o hST hroot).run.bind fun r => ?_
  match r with
  | none => exact .bind (.lift get) fun d => .after fun _ => .pure _
  | some [e] =>
    exact .after fun n => .after fun _ => .bind (.lift get) fun d => .after fun _ => .pure _
  | some [] | some (_ :: _ :: _) => exact .throw (.node hroot nofun)

/-- Runs with one outcome are presented as one. -/
theorem compile_eq_of_exec {o : Options} {root : Node}
    (h : exec ((builtin o T).compileRoot root) .empty =
      exec ((builtin o S).compileRoot root) .empty) :
    (builtin o T).compile root = (builtin o S).compile root := by
  have hrun : (builtin o T).run root = (builtin o S).run root := h
  rw [compile, compile, hrun]
  rfl

/-- **Monotonicity in the argument parsers.** A tree that is not refused for
want of a parser compiles to the same with more parsers. One that is refused
so has an interpolation whose parser is not known, the error has its place,
and with more parsers, but not that one, the outcome is the same error. -/
theorem parsers_monotone (o : Options) (S : Parsers) (root : Node) :
    ((∀ e, ((builtin o S).compile root).1 = .error e → e.code ≠ .unknownArgumentType) →
      ∀ T, S ⊆ T → (builtin o T).compile root = (builtin o S).compile root) ∧
    ∀ e, ((builtin o S).compile root).1 = .error e → e.code = .unknownArgumentType →
      ∃ n ∈ root.subtree, n.kind = .argumentInterpolation ∧ n.text (ascii "parser") ∉ S ∧
        e.location = n.location ∧
        ∀ T, S ⊆ T → n.text (ascii "parser") ∉ T →
          (builtin o T).compile root = (builtin o S).compile root := by
  have hcode : ∀ f : Failure, f.diagnostic.code = f.cause.code := fun _ => rfl
  constructor
  · intro hknown T hST
    have hroot := widens_compileRoot o hST root .empty
    generalize hrun : exec ((builtin o S).compileRoot root) .empty = x,
      hmore : exec ((builtin o T).compileRoot root) .empty = y at hroot
    cases hroot with
    | given | failed => exact compile_eq_of_exec (hmore.trans hrun.symm)
    | admitted _ _ _ hcause =>
      refine absurd ?_ (hknown _ (compile_eq_error.2 ⟨_, _, hrun, rfl⟩))
      rw [hcode, hcause]
      rfl
  · intro e he hunknown
    obtain ⟨f, d, hrun, rfl⟩ := compile_eq_error.1 he
    -- the failure is known from the run with no more parsers
    have hconcerns : f.Concerns S root := by
      have hroot := widens_compileRoot o (List.Subset.refl S) root .empty
      rw [hrun] at hroot
      cases hroot <;> assumption
    obtain ⟨n, hn, hkind, hnot, rfl⟩ := hconcerns.exists_of_code hunknown
    refine ⟨n, hn, hkind, hnot, rfl, fun T hST hT => ?_⟩
    have hroot := widens_compileRoot o hST root .empty
    rw [hrun] at hroot
    generalize hmore : exec ((builtin o T).compileRoot root) .empty = y at hroot
    cases hroot with
    | failed => exact compile_eq_of_exec (hmore.trans hrun.symm)
    | admitted _ _ _ hcause hp =>
      cases hcause
      exact absurd hp hT

/-- Two interpolations ask for different parsers. With neither of them, or
with the second one alone, the first is what the tree is refused for; and
with both nothing else changes the outcome. -/
theorem parsers_monotone_interpolations :
    let value : Node := ⟨.identifier, [⟨ascii "value", .leaf (.str (ascii "x"))⟩], .unknown⟩
    let ask (parser : String) (line : Int) : Node := ⟨.argumentInterpolation,
      [⟨ascii "parser", .leaf (.str (ascii parser))⟩, ⟨ascii "value", .child (some value)⟩],
      ⟨line, 1⟩⟩
    let root : Node := ⟨.binary, [⟨ascii "left", .child (some (ask "a" 1))⟩,
      ⟨ascii "operator", .leaf (.str (ascii "+"))⟩,
      ⟨ascii "right", .child (some (ask "b" 2))⟩], ⟨1, 1⟩⟩
    (∃ e, ((builtin .standard []).compile root).1 = .error e ∧ e.code = .unknownArgumentType ∧
      e.location = ⟨1, 1⟩ ∧
      (builtin .standard [ascii "b"]).compile root = (builtin .standard []).compile root) ∧
    ((builtin .standard [ascii "a", ascii "b"]).compile root).1.isOk = true ∧
    (builtin .standard [ascii "c", ascii "a", ascii "b"]).compile root =
      (builtin .standard [ascii "a", ascii "b"]).compile root := by
  intro value ask root
  refine ⟨?_, ?_⟩
  · have hrefused : (match ((builtin .standard []).compile root).1 with
        | .error e => some (e.code, e.location)
        | .ok _ => none) = some (.unknownArgumentType, ⟨1, 1⟩) := by decide +kernel
    cases he : ((builtin .standard []).compile root).1 with
    | ok r =>
      rw [he] at hrefused
      cases hrefused
    | error e =>
      rw [he] at hrefused
      obtain ⟨hcode, hplace⟩ := Prod.mk.inj (Option.some.inj hrefused)
      obtain ⟨n, hn, hkind, -, hlocation, hmore⟩ :=
        (parsers_monotone .standard [] root).2 e he hcode
      have hfirst : ∀ m ∈ root.subtree, m.kind = .argumentInterpolation → m.location = ⟨1, 1⟩ →
          m.text (ascii "parser") ∉ [ascii "b"] := by decide
      exact ⟨e, rfl, hcode, hplace, hmore _ (List.nil_subset _)
        (hfirst n hn hkind (hlocation.symm.trans hplace))⟩
  · have hcompiles : ((builtin .standard [ascii "a", ascii "b"]).compile root).1.isOk = true := by
      decide +kernel
    refine ⟨hcompiles, (parsers_monotone .standard _ root).1 (fun e he => ?_) _
      (List.subset_cons_self _ _)⟩
    rw [he] at hcompiles
    cases hcompiles

end Compiler

end ScriptSplice
