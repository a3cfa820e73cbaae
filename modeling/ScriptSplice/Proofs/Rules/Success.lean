import ScriptSplice.Proofs.Rules.Trichotomy
import ScriptSplice.Proofs.Rules.WellFormed
/-!
# Which trees compile

A tree compiles exactly if it is well formed and not a statement. Each
handler decides what its node demands (`Compiler.decides_handler`), on
every draft, once the nodes below are decided; and operands that are
statements fail because these leave no fragment.
-/

namespace ScriptSplice

open Compile

namespace Compiler

/-- Compiling a node succeeds on every draft if the node is well formed,
and on none otherwise. -/
def Decided (o : Options) (parsers : Parsers) (m : Node) : Prop :=
  Decides ((builtin o parsers).part m).run (m.wellFormed parsers)

variable {o : Options} {parsers : Parsers}

/-! ## Parts -/

/-- A statement leaves no fragment to stand alone. -/
theorem decides_single? {m : Node} (h : Decided o parsers m) :
    Decides (single? ((builtin o parsers).part m)) (m.verdict parsers).isOperand := by
  rw [Verdict.isOperand, Node.ok_verdict, Node.node_verdict]
  refine Decides.bind h (gives_part o parsers m) fun r hr => ?_
  cases hr with
  | nothing h =>
    rw [Node.isStatement_eq_false h]
    exact .pure _
  | statement hs =>
    rw [hs]
    exact .throw _
  | fragment e _ hs =>
    rw [hs]
    exact .pure _

theorem decides_operand? {m : Option Node} (h : ∀ n ∈ m, Decided o parsers n) :
    Decides (operand? (m.map (builtin o parsers).part))
      ((m.map (Node.verdict parsers)).all Verdict.isOperand) := by
  cases m with
  | none => exact .pure _
  | some m => exact decides_single? (h m rfl)

theorem decides_required {m : Option Node} (h : ∀ n ∈ m, Decided o parsers n) :
    Decides (required (m.map (builtin o parsers).part))
      ((m.map (Node.verdict parsers)).any Verdict.isOperand) := by
  cases m with
  | none => exact .throw _
  | some m =>
    refine (decides_single? (h m rfl)).before fun e => ?_
    cases e with
    | none => exact .lift _
    | some e => exact .pure _

/-- A step of splicing cannot fail but by its child. -/
theorem decides_step (collection : Collection) (count : Nat) {child : Option Part × Nat}
    {m : Option Node} (hchild : child.1 = m.map (builtin o parsers).part)
    (h : ∀ n ∈ m, Decided o parsers n) (s : Splice) :
    Decides (s.step collection count child) (child.1.all fun p => p.node.wellFormed parsers) := by
  obtain ⟨child, i⟩ := child
  obtain rfl : child = _ := hchild
  cases m with
  | none => exact .pure _
  | some m =>
    simp only [Option.map_some, Option.all_some, node_part]
    refine Decides.before (h m rfl) fun r => ?_
    cases r with
    | none => exact .pure _
    | some es => exact (Decides.lift _).after fun c => .lift _

theorem decides_splice (collection : Collection) {ms : List (Option Node)}
    (h : ∀ m, some m ∈ ms → Decided o parsers m) :
    Decides (splice collection (ms.map (·.map (builtin o parsers).part)))
      (Verdict.areChildren (ms.map (·.map (Node.verdict parsers)))) := by
  have hsteps : ∀ child ∈ (ms.map (·.map (builtin o parsers).part)).zipIdx, ∀ s,
      Decides (Splice.step collection (ms.map (·.map (builtin o parsers).part)).length s child)
        (child.1.all fun p => p.node.wellFormed parsers) := by
    intro child hchild s
    have hmem := List.mem_map_of_mem (f := Prod.fst) hchild
    rw [List.zipIdx_map_fst] at hmem
    obtain ⟨m, hm, heq⟩ := List.mem_map.1 hmem
    exact decides_step collection _ heq.symm (fun n hn => h n (hn ▸ hm)) s
  have hall : ((ms.map (·.map (builtin o parsers).part)).zipIdx.all fun child =>
      child.1.all fun p => p.node.wellFormed parsers) =
      Verdict.areChildren (ms.map (·.map (Node.verdict parsers))) := by
    have hfst : ∀ l : List (Option Part × Nat), (l.all fun child => child.1.all fun p =>
        p.node.wellFormed parsers) = (l.map Prod.fst).all fun c => c.all fun p =>
          p.node.wellFormed parsers := fun l => by rw [List.all_map]; rfl
    rw [hfst, List.zipIdx_map_fst, Verdict.areChildren, List.all_map, List.all_map]
    congr 1
    funext m
    cases m <;> simp
  rw [← hall]
  exact Decides.after (fun _ => rfl) fun d => (Decides.foldlM _ hsteps _).before fun s => .lift _

/-- A field with a single child takes an operand, if there is one. -/
theorem decides_changedField (collection : Collection) {f : Field Node}
    (h : ∀ m ∈ f.value.nodes, Decided o parsers m) :
    Decides (changedField collection (f.map (builtin o parsers).part))
      (WellFormed.rebuilt [f.map (Node.verdict parsers)]) := by
  obtain ⟨name, value⟩ := f
  rw [WellFormed.rebuilt, List.all_cons, List.all_nil, Bool.and_true]
  cases value with
  | leaf l => exact .pure _
  | child m =>
    have hm : ∀ n ∈ m, Decided o parsers n := fun n hn => h n (by simpa [Value.nodes] using hn)
    exact (decides_operand? hm).before fun _ => .pure _
  | children ms =>
    have hms : ∀ m, some m ∈ ms → Decided o parsers m :=
      fun m hm => h m (by simpa [Value.nodes] using hm)
    exact (decides_splice collection hms).before fun _ => .pure _

theorem decides_rebuild (collection : Collection) {n : Node}
    (h : ∀ m ∈ n.parts, Decided o parsers m) :
    Decides (Compile.rebuild collection n (Fields.map (builtin o parsers).part n.fields))
      (WellFormed.rebuilt (Fields.map (Node.verdict parsers) n.fields)) := by
  unfold Fields.map
  rw [WellFormed.rebuilt_eq, List.all_map]
  refine Decides.before ?_ fun changes => ?_
  · rw [List.mapM_map]
    exact Decides.mapM _ fun f hf =>
      decides_changedField collection fun m hm => h m (Fields.mem_nodes hf hm)
  · split
    · exact .pure _
    · exact (Decides.lift _).after fun _ => (Decides.lift _).after fun _ => .pure _

theorem decides_body (collection : Collection) {m : Node}
    (h : ∀ k ∈ m.descendants, Decided o parsers k) :
    Decides (body collection m (Fields.map (builtin o parsers).part m.fields))
      (m.verdict parsers).isBody := by
  rw [Verdict.isBody, Node.fields_verdict, Fields.children_map]
  unfold body
  rw [Fields.children_map]
  refine (decides_splice collection fun k hk =>
    h k (Node.mem_descendants_of_mem_parts (Fields.mem_nodes_of_children hk))).before fun r => ?_
  cases r with
  | none => exact (Decides.lift _).after fun _ => .lift _
  | some _ => exact .pure _

/-! ## Handlers -/

private theorem all_map_verdict (ms : List (Option Node)) (p : Verdict → Bool) :
    ((ms.map (·.map (Node.verdict parsers))).all fun m => m.all p) =
      (ms.filterMap id).all fun m => p (m.verdict parsers) := by
  induction ms with
  | nil => rfl
  | cons m ms ih =>
    cases m with
    | none => exact ih
    | some m => exact congrArg (p (m.verdict parsers) && ·) ih

theorem decides_liftExcept {α : Type} (x : Except Failure α) :
    Decides (liftExcept x) x.isOk := fun d => by rw [exec_liftExcept]

section Handlers

variable {n : Node} (h : ∀ m ∈ n.descendants, Decided o parsers m)

include h

theorem decided_child {name : Text} {m : Node} (hm : Fields.child? n.fields name = some m) :
    Decided o parsers m :=
  h m (Node.mem_descendants_of_mem_parts (Fields.mem_nodes_of_child? hm))

theorem decided_argument {i : Nat} {m : Node} (hm : Handler.argument n.fields i = some m) :
    Decided o parsers m :=
  h m (Node.mem_descendants_of_mem_parts (Handler.mem_nodes_of_argument hm))

theorem decides_operand (name : String) :
    Decides (Handler.operand (Fields.map (builtin o parsers).part n.fields) name)
      (WellFormed.operand (Fields.map (Node.verdict parsers) n.fields) name) := by
  rw [Handler.operand, WellFormed.operand, Fields.child?_map, Fields.child?_map]
  exact decides_required fun m hm => decided_child h hm

theorem decides_operands (name : String) :
    Decides (Handler.operands (Fields.map (builtin o parsers).part n.fields) name)
      (WellFormed.operands (Fields.map (Node.verdict parsers) n.fields) name) := by
  rw [Handler.operands, WellFormed.operands, Fields.children_map, Fields.children_map,
    List.mapM_map, List.all_map]
  exact Decides.mapM _ fun m hm => decides_required fun k hk =>
    h k (Node.mem_descendants_of_mem_parts (Fields.mem_nodes_of_children (hk ▸ hm)))

theorem decides_argument (i : Nat) :
    Decides (required (Handler.argument (Fields.map (builtin o parsers).part n.fields) i))
      (WellFormed.argument (Fields.map (Node.verdict parsers) n.fields) i) := by
  rw [WellFormed.argument, Handler.argument_map, Handler.argument_map]
  exact decides_required fun m hm => decided_argument h hm

theorem decides_bodyOf (i : Nat) :
    Decides (bodyOf (Handler.argument (Fields.map (builtin o parsers).part n.fields) i))
      (WellFormed.body (Fields.map (Node.verdict parsers) n.fields) i) := by
  rw [WellFormed.body, Handler.argument_map, Handler.argument_map]
  cases hi : Handler.argument n.fields i with
  | none => exact .throw _
  | some m =>
    have hm := Node.mem_descendants_of_mem_parts (Handler.mem_nodes_of_argument hi)
    -- the body is not compiled as a node, so its commands are two levels down
    rw [Option.map_some, Option.map_some, Option.any_some, bodyOf, node_part, fields_part]
    exact decides_body .command fun k hk => h k (Node.descendants_trans hm hk)

theorem decides_entry :
    Decides (Handler.entry ((builtin o parsers).part n))
      (WellFormed.operand (Fields.map (Node.verdict parsers) n.fields) "key" &&
        WellFormed.operand (Fields.map (Node.verdict parsers) n.fields) "value") := by
  rw [Handler.entry, fields_part]
  exact (decides_operand h "key").seq fun _ => (decides_operand h "value").before fun _ => .pure _

/-- The entries of a dictionary are looked at, but not compiled
themselves. -/
theorem decides_dict :
    Decides (Handler.dict parsers n (Fields.map (builtin o parsers).part n.fields))
      (WellFormed.entries (Fields.map (Node.verdict parsers) n.fields)) := by
  unfold Handler.dict WellFormed.entries
  rw [Fields.filterMap_children, Fields.children_map, all_map_verdict]
  simp only [Node.fields_verdict]
  refine Decides.before ?_ fun _ => .pure _
  rw [List.mapM_map]
  refine Decides.mapM _ fun m hm => decides_entry fun k hk => h k ?_
  exact Node.descendants_trans (Node.mem_descendants_of_mem_filterMap hm) hk

theorem decides_statement :
    Decides (Handler.expressionStatement parsers n
        (Fields.map (builtin o parsers).part n.fields))
      ((Handler.argument (Fields.map (Node.verdict parsers) n.fields) 0).all
        Verdict.isOperand) := by
  unfold Handler.expressionStatement
  rw [Handler.argument_map, Handler.argument_map]
  refine (decides_operand? fun m hm => decided_argument h hm).before fun e => ?_
  cases e with
  | none => exact .pure _
  | some e => exact (Decides.lift _).after fun _ => (Decides.lift _).after fun _ => .pure _

theorem decides_control (keyword : String) :
    Decides (Handler.control keyword parsers n (Fields.map (builtin o parsers).part n.fields))
      ((Handler.argument (Fields.map (Node.verdict parsers) n.fields) 0).all
        Verdict.isOperand) := by
  unfold Handler.control
  rw [Handler.argument_map, Handler.argument_map]
  cases hm : Handler.argument n.fields 0 with
  | none =>
    exact (Decides.pure _).after fun _ => (Decides.lift _).after fun _ =>
      (Decides.lift _).after fun _ => .pure _
  | some m =>
    have hrequired := decides_required (m := some m) fun k hk => decided_argument h (hk ▸ hm)
    exact (hrequired.map some).before fun _ => (Decides.lift _).after fun _ =>
      (Decides.lift _).after fun _ => .pure _

/-- The default of a parameter is an operand, if there is one. -/
theorem decides_supplyDefault :
    Decides (Handler.supplyDefault ((builtin o parsers).part n))
      ((Fields.child? (Fields.map (Node.verdict parsers) n.fields) (ascii "default")).all
        Verdict.isOperand) := by
  unfold Handler.supplyDefault Handler.parameterDefault
  rw [fields_part, Fields.child?_map, Fields.child?_map]
  cases hm : Fields.child? n.fields (ascii "default") with
  | none => exact .pure _
  | some m =>
    have hrequired := decides_required (m := some m) fun k hk => decided_child h (hk ▸ hm)
    exact (Decides.lift _).after fun _ => (hrequired.before fun _ => .lift _).inBlock

theorem decides_supplyDefaults :
    Decides ((Handler.parametersOf ((builtin o parsers).part n)).forM Handler.supplyDefault)
      ((Fields.children (Fields.map (Node.verdict parsers) n.fields) (ascii "arguments")).all
        fun p => p.all fun v => (Fields.child? v.fields (ascii "default")).all
          Verdict.isOperand) := by
  unfold Handler.parametersOf
  rw [fields_part, Fields.filterMap_children, Fields.children_map, all_map_verdict,
    List.forM_eq_forM, List.forM_map]
  simp only [Node.fields_verdict]
  refine Decides.forM _ fun m hm => decides_supplyDefault fun k hk => h k ?_
  exact Node.descendants_trans (Node.mem_descendants_of_mem_filterMap hm) hk

theorem decides_function :
    Decides (Handler.function parsers n (Fields.map (builtin o parsers).part n.fields))
      ((Handler.argument (Fields.map (Node.verdict parsers) n.fields) 0).any
        WellFormed.isSignature &&
        WellFormed.body (Fields.map (Node.verdict parsers) n.fields) 1) := by
  have hbody := decides_bodyOf h 1
  unfold Handler.function Handler.signatureOf
  rw [Handler.argument_map _ _ 0, Handler.argument_map _ _ 0]
  cases hm : Handler.argument n.fields 0 with
  | none => exact fun _ => rfl
  | some m =>
    have hmem := Node.mem_descendants_of_mem_parts (Handler.mem_nodes_of_argument hm)
    simp only [Option.map_some, Option.any_some, node_part, WellFormed.isSignature,
      Node.node_verdict, Node.fields_verdict]
    by_cases hk : m.kind = .functionSignature
    · have hdefaults := decides_supplyDefaults (n := m) fun k hk =>
        h k (Node.descendants_trans hmem hk)
      simp only [hk, if_true, pure_bind, beq_self_eq_true, Bool.true_and]
      exact (Decides.lift _).after fun _ => (Decides.lift _).after fun _ =>
        (Decides.lift _).after fun _ =>
          (hdefaults.seq fun _ => hbody).inBlock.before fun _ => .pure _
    -- what is no signature is refused before anything is compiled
    · rw [if_neg hk, beq_false_of_ne hk, Bool.false_and, Bool.false_and]
      exact fun _ => rfl

/-- **A handler decides what the node demands.** -/
theorem decides_handler :
    Decides (n.form.handler parsers n (Fields.map (builtin o parsers).part n.fields))
      (n.wellFormed parsers) := by
  rw [Node.wellFormed_eq, WellFormed.check]
  have hparts : ∀ m ∈ n.parts, Decided o parsers m :=
    fun m hm => h m (Node.mem_descendants_of_mem_parts hm)
  cases n.form with
  | generic | root => exact (decides_rebuild _ hparts).before fun _ => .pure _
  | interpolation =>
    exact (decides_operand h "value").before fun _ =>
      (Decides.lift _).after fun _ => (Decides.lift _).after fun _ => .pure _
  | argumentInterpolation =>
    simp only [Form.handler, Handler.argumentInterpolation]
    cases parsers.contains (n.text (ascii "parser")) with
    | false => exact .throw _
    | true =>
      exact (decides_operand h "value").before fun _ => (Decides.lift _).after fun _ =>
        (Decides.lift _).after fun _ => (Decides.lift _).after fun _ => .pure _
  | binary =>
    exact (decides_operand h "left").seq fun _ =>
      (decides_operand h "right").before fun _ => .pure _
  | unary => exact (decides_operand h "value").before fun _ => .pure _
  | value | identifier | targetIdentifier => exact .pure _
  | formatString => exact (decides_operands h "values").before fun _ => .pure _
  | tuple | list => exact (decides_operands h "items").before fun _ => .pure _
  | dict => exact decides_dict h
  | attributeOf =>
    exact (decides_operand h "value").before fun _ => (Decides.lift _).after fun _ => .pure _
  | lookup | call =>
    exact (decides_operand h "value").seq fun _ =>
      (decides_operands h "arguments").before fun _ => .pure _
  | assignment =>
    exact (decides_operand h "target").seq fun _ =>
      (decides_operand h "value").before fun _ => .pure _
  | statement => exact decides_statement h
  | function => exact decides_function h
  | control keyword => exact decides_control h keyword
  | branch keyword =>
    exact (decides_argument h 0).seq fun _ => (Decides.lift _).after fun _ =>
      (Decides.lift _).after fun _ => (decides_bodyOf h 1).inBlock.before fun _ => .pure _
  | otherwise =>
    exact (Decides.lift _).after fun _ => (Decides.lift _).after fun _ =>
      (decides_bodyOf h 0).inBlock.before fun _ => .pure _
  | loop =>
    exact (decides_argument h 0).seq fun _ => (decides_argument h 1).seq fun _ =>
      (Decides.lift _).after fun _ => (Decides.lift _).after fun _ =>
        (decides_bodyOf h 2).inBlock.before fun _ => .pure _
  | importModule =>
    simp only [← WellFormed.isOk_moduleOf]
    refine (decides_liftExcept _).before fun m => (Decides.lift _).after fun _ => ?_
    split
    · exact (Decides.lift _).after fun _ => (Decides.lift _).after fun _ => .pure _
    · exact (Decides.lift _).after fun _ => .pure _
  | importAs =>
    simp only [← WellFormed.isOk_moduleOf, WellFormed.givesName]
    refine (decides_liftExcept _).seq fun m => ?_
    simp only
    cases (Handler.importedName (Handler.argument n.fields 1)).isEmpty with
    | true => exact .throw _
    | false =>
      refine (Decides.lift _).after fun _ => ?_
      split
      · exact (Decides.lift _).after fun _ => (Decides.lift _).after fun _ => .pure _
      · exact (Decides.lift _).after fun _ => .pure _
  | fromImport =>
    simp only [← WellFormed.isOk_moduleOf, ← WellFormed.isOk_importedNames]
    refine (decides_liftExcept _).seq fun m => (decides_liftExcept _).before fun names =>
      (Decides.lift _).after fun _ => ?_
    split
    · exact (Decides.lift _).after fun _ => (Decides.lift _).after fun _ => .pure _
    · exact (Decides.lift _).after fun _ => .pure _

end Handlers

/-- **Well-formed trees are those that compile**, as parts of any tree. -/
theorem decided (o : Options) (parsers : Parsers) (n : Node) : Decided o parsers n := by
  induction n using Node.induction_descendants with
  | step n ih =>
    obtain ⟨name, hrun⟩ := run_builtin o parsers n
    rw [Decided, hrun]
    exact (Decides.lift _).after fun _ => decides_handler ih

/-- **Compilation succeeds exactly on well-formed trees** that are not
statements. -/
theorem compile_isOk_iff (o : Options) (parsers : Parsers) (root : Node) :
    ((builtin o parsers).compile root).1.isOk = true ↔
      root.wellFormed parsers = true ∧ root.isStatement = false := by
  have hroot := decided o parsers root .empty
  have hcompile : ((builtin o parsers).compile root).1.isOk =
      (exec ((builtin o parsers).compileRoot root) .empty).1.isOk := by
    change (Except.map _ (Except.mapError _
      (exec ((builtin o parsers).compileRoot root) .empty).1)).isOk = _
    rcases exec ((builtin o parsers).compileRoot root) .empty with ⟨e | a, d⟩ <;> rfl
  rw [hcompile, exec_compileRoot]
  rcases hrun : exec ((builtin o parsers).part root).run .empty with ⟨e | r, d⟩ <;>
    rw [hrun] at hroot
  · have hnot : root.wellFormed parsers = false := hroot.symm
    simp [hnot, Except.isOk, Except.toBool]
  · have hok : root.wellFormed parsers = true := hroot.symm
    cases gives_part o parsers root _ _ _ hrun with
    | nothing h => simp [hok, Node.isStatement_eq_false h, Except.isOk, Except.toBool]
    | statement hs => simp [hs, Except.isOk, Except.toBool]
    | fragment e _ hs => simp [hok, hs, Except.isOk, Except.toBool]

end Compiler

end ScriptSplice
