import ScriptSplice.Proofs.Compile.Loop
import ScriptSplice.Proofs.Rules.Form
import ScriptSplice.Proofs.Tree.Subtree
/-!
# What nodes compile to

With the standard rules a node gives nothing, no fragment, or one
fragment, and which is plain from the tree (`Node.Gives`): nothing if no
rule for an expression or a statement is for any node of it, no fragment
if it is a statement, and one fragment otherwise. A tree that gives
nothing also leaves nothing: compiling it cannot fail, and the draft is as
before (`Compiler.silent_part`).

Statements and expressions give what they give whatever their parts do
(`Form.yields_statement`, `Form.yields_expression`); the rest is
rebuilding, by induction over the tree.
-/

namespace ScriptSplice

open Compile

namespace Node

/-- Whether an expression or a statement is anywhere in a tree. -/
def hasDynamic (n : Node) : Bool := n.subtree.any isDynamic

theorem hasDynamic_eq (n : Node) : n.hasDynamic = (n.isDynamic || n.parts.any hasDynamic) := by
  rw [hasDynamic, subtree_eq, List.any_cons, descendants, List.any_flatMap]
  rfl

theorem hasDynamic_eq_false {n : Node} :
    n.hasDynamic = false ↔ ∀ m ∈ n.subtree, m.isDynamic = false := by
  rw [hasDynamic, List.any_eq_false]
  simp only [Bool.not_eq_true]

/-- **What a node compiles to.** -/
inductive Gives (n : Node) : Result → Prop
  | nothing : n.hasDynamic = false → Gives n none
  | statement : n.isStatement = true → Gives n (some [])
  | fragment (e : Expr) : n.hasDynamic = true → n.isStatement = false → Gives n (some [e])

theorem hasDynamic_of_isStatement {n : Node} (h : n.isStatement = true) : n.hasDynamic = true := by
  rw [hasDynamic_eq, isDynamic, h, Bool.or_true, Bool.true_or]

theorem isStatement_eq_false {n : Node} (h : n.hasDynamic = false) : n.isStatement = false :=
  Bool.eq_false_iff.2 fun hs => Bool.eq_false_iff.1 h (hasDynamic_of_isStatement hs)

theorem Gives.eq_none_iff {n : Node} {r : Result} (h : n.Gives r) :
    r = none ↔ n.hasDynamic = false := by
  cases h with
  | nothing h => simpa using h
  | statement h => simp [hasDynamic_of_isStatement h]
  | fragment e h _ => simp [h]

theorem Gives.eq_some_nil_iff {n : Node} {r : Result} (h : n.Gives r) :
    r = some [] ↔ n.isStatement = true := by
  cases h with
  | nothing h => simp [isStatement_eq_false h]
  | statement h => simpa using h
  | fragment e _ h => simp [h]

end Node

namespace Form

open Handler

/-- **Statements leave no fragment.** -/
theorem yields_statement {f : Form} (hf : f.isStatement = true) (parsers : Parsers) (n : Node)
    (fields : Fields Part) : Yields (f.handler parsers n fields) (· = some []) := by
  cases f with
  | statement =>
    refine .last fun e => ?_
    cases e with
    | none => exact .pure rfl
    | some e => exact .last fun _ => .last fun _ => .pure rfl
  | function =>
    exact .last fun _ => .last fun _ => .last fun _ => .last fun _ => .last fun _ => .pure rfl
  | control keyword =>
    simp only [handler, Handler.control]
    split <;> exact .last fun _ => .last fun _ => .last fun _ => .pure rfl
  | branch keyword => exact .last fun _ => .last fun _ => .last fun _ => .last fun _ => .pure rfl
  | otherwise => exact .last fun _ => .last fun _ => .last fun _ => .pure rfl
  | loop =>
    exact .last fun _ => .last fun _ => .last fun _ => .last fun _ => .last fun _ => .pure rfl
  | importModule =>
    refine .last fun m => .last fun _ => ?_
    split
    · exact .last fun _ => .last fun _ => .pure rfl
    · exact .last fun _ => .pure rfl
  | importAs =>
    refine .last fun m => ?_
    simp only
    split
    · exact .throw _
    · refine .last fun _ => ?_
      split
      · exact .last fun _ => .last fun _ => .pure rfl
      · exact .last fun _ => .pure rfl
  | fromImport =>
    refine .last fun m => .last fun names => .last fun _ => ?_
    split
    · exact .last fun _ => .last fun _ => .pure rfl
    · exact .last fun _ => .pure rfl
  | _ => simp [isStatement] at hf

/-- What is put in brackets is one fragment. -/
private theorem yields_bracket (n : Node) (e : Expr) :
    Yields (bracket n e) fun r => ∃ e, r = some [e] := .pure ⟨_, rfl⟩

/-- **Expressions give one fragment.** -/
theorem yields_expression {f : Form} (hd : f.isDynamic = true) (hs : f.isStatement = false)
    (parsers : Parsers) (n : Node) (fields : Fields Part) :
    Yields (f.handler parsers n fields) fun r => ∃ e, r = some [e] := by
  cases f with
  | interpolation => exact .last fun _ => .last fun _ => .last fun _ => yields_bracket n _
  | argumentInterpolation =>
    simp only [handler, Handler.argumentInterpolation]
    split
    · exact .throw _
    · exact .last fun _ => .last fun _ => .last fun _ => .last fun _ => yields_bracket n _
  | binary => exact .last fun _ => .last fun _ => yields_bracket n _
  | unary => exact .last fun _ => yields_bracket n _
  | value => exact .pure ⟨_, rfl⟩
  | identifier => exact yields_bracket n _
  | targetIdentifier => exact .pure ⟨_, rfl⟩
  | formatString => exact .last fun _ => yields_bracket n _
  | tuple => exact .last fun _ => yields_bracket n _
  | list => exact .last fun _ => yields_bracket n _
  | dict => exact .last fun _ => yields_bracket n _
  | attributeOf => exact .last fun _ => .last fun _ => yields_bracket n _
  | lookup => exact .last fun _ => .last fun _ => yields_bracket n _
  | call => exact .last fun _ => .last fun _ => yields_bracket n _
  | assignment => exact .last fun _ => .last fun _ => .pure ⟨_, rfl⟩
  | _ => simp_all [isStatement, isDynamic]

end Form

/-! ## Rebuilding

Rebuilding gives something as soon as one of the nodes in the fields
does. -/

section Rebuild

variable {c : Compiler}

/-- A node that stays as it is can stand alone, and so can one fragment. -/
theorem yields_single? {m : Node} (h : Yields (c.part m).run m.Gives) :
    Yields (single? (c.part m)) fun r => r = none ↔ m.hasDynamic = false := by
  refine h.bind fun r hr => ?_
  cases hr with
  | nothing h => exact .pure (iff_of_true rfl h)
  | statement _ => exact .throw _
  | fragment e h _ => exact .pure (iff_of_false (by simp) (by simp [h]))

theorem yields_operand? {o : Option Node} (h : ∀ m ∈ o, Yields (c.part m).run m.Gives) :
    Yields (operand? (o.map c.part)) fun r => r = none ↔ ∀ m ∈ o, m.hasDynamic = false := by
  cases o with
  | none => exact .pure (by simp)
  | some m => exact (yields_single? (h m rfl)).mono fun r hr => by simpa using hr

theorem yields_children (collection : Collection) {cs : List (Option Node)}
    (h : ∀ m, some m ∈ cs → Yields (c.part m).run m.Gives) :
    Yields (splice collection (cs.map (·.map c.part))) fun r =>
      r = none ↔ ∀ m, some m ∈ cs → m.hasDynamic = false := by
  have hparts : ∀ p ∈ cs.map (·.map c.part), Yields (runChild p) fun r =>
      r = none ↔ ∀ q ∈ p, q.node.hasDynamic = false := by
    intro p hp
    obtain ⟨m, hm, rfl⟩ := List.mem_map.1 hp
    cases m with
    | none => exact .pure (by simp)
    | some m => exact (h m hm).mono fun r hr => by simp [hr.eq_none_iff]
  refine (yields_splice collection hparts).mono fun r hr => hr.trans ?_
  simp only [List.forall_mem_map, Option.mem_def, Option.map_eq_some_iff, forall_exists_index,
    and_imp]
  constructor
  · intro hall m hm
    simpa using hall (some m) hm _ m rfl rfl
  · rintro hall _ hm _ m rfl rfl
    simpa using hall m hm

/-- A field changes if one of its nodes does. -/
theorem yields_changedField (collection : Collection) {f : Field Node}
    (h : ∀ m ∈ f.value.nodes, Yields (c.part m).run m.Gives) :
    Yields (changedField collection (f.map c.part)) fun r =>
      r = none ↔ ∀ m ∈ f.value.nodes, m.hasDynamic = false := by
  obtain ⟨name, value⟩ := f
  cases value with
  | leaf l => exact .pure (by simp [Value.nodes])
  | child m =>
    have hm : ∀ m' ∈ m, Yields (c.part m').run m'.Gives :=
      fun m' hm => h m' (by simpa [Value.nodes] using hm)
    refine (yields_operand? hm).bind fun r hr => .pure ?_
    simpa [Value.nodes] using hr
  | children cs =>
    have hcs : ∀ m, some m ∈ cs → Yields (c.part m).run m.Gives := fun m hm =>
      h m (by simpa [Value.nodes] using hm)
    refine (yields_children collection hcs).bind fun r hr => .pure ?_
    simpa [Value.nodes] using hr

/-- **A node is rebuilt if one of its parts changes**, and then it is one
fragment. -/
theorem yields_rebuild (collection : Collection) (n : Node)
    (h : ∀ m ∈ n.parts, Yields (c.part m).run m.Gives) :
    Yields (Compile.rebuild collection n (Fields.map c.part n.fields)) fun r =>
      r = none ↔ ∀ m ∈ n.parts, m.hasDynamic = false := by
  have hfields : Yields (List.mapM (changedField collection) (Fields.map c.part n.fields))
      fun changes => changes.filterMap id = [] ↔ ∀ m ∈ n.parts, m.hasDynamic = false := by
    rw [Fields.map, List.mapM_map]
    refine (Yields.mapM_filterMap n.fields fun f hf => ?_).mono fun changes h => h.trans
      List.forall_mem_flatMap.symm
    exact yields_changedField collection fun m hm => h m (Fields.mem_nodes hf hm)
  refine hfields.bind fun changes hchanges => ?_
  split
  · rename_i hnil
    exact .pure (iff_of_true rfl (hchanges.1 hnil))
  · rename_i hcons
    exact .last fun _ => .last fun _ => .pure (iff_of_false (by simp) (mt hchanges.2 hcons))

/-- A sequence of children that leave nothing leaves nothing. -/
theorem silent_children (collection : Collection) {cs : List (Option Node)}
    (h : ∀ m, some m ∈ cs → Silent (c.part m).run none) :
    Silent (splice collection (cs.map (·.map c.part))) none := by
  refine silent_splice collection fun p hp => ?_
  obtain ⟨m, hm, rfl⟩ := List.mem_map.1 hp
  cases m with
  | none => exact .pure _
  | some m => exact h m hm

/-- Rebuilding leaves nothing if no part does. -/
theorem silent_rebuild (collection : Collection) (n : Node)
    (h : ∀ m ∈ n.parts, Silent (c.part m).run none) :
    Silent (Compile.rebuild collection n (Fields.map c.part n.fields)) none := by
  have hfield : ∀ f ∈ Fields.map c.part n.fields, Silent (changedField collection f) none := by
    rintro _ hmem
    obtain ⟨⟨name, value⟩, hf, rfl⟩ := List.mem_map.1 hmem
    have hvalue : ∀ m ∈ value.nodes, Silent (c.part m).run none :=
      fun m hm => h m (Fields.mem_nodes (f := ⟨name, value⟩) hf hm)
    cases value with
    | leaf l => exact .pure _
    | child m =>
      cases m with
      | none => exact .pure _
      | some m =>
        have hm := hvalue m (by simp [Value.nodes])
        exact Silent.bind (Silent.bind (a := none) hm (.pure _)) (.pure _)
    | children ms =>
      refine (silent_children collection fun m hm => ?_).bind (.pure _)
      exact hvalue m (by simpa [Value.nodes] using hm)
  have hnone : ∀ l : List (Field Part),
      (l.map fun _ => (none : Option (Text × Expr))).filterMap id = [] := fun l => by simp
  refine (Silent.mapM _ hfield).bind ?_
  simp only [hnone]
  exact .pure _

end Rebuild

/-! ## Nodes -/

namespace Form

/-- A form that never changes by itself is rebuilding, and sequences in it
become expressions. -/
theorem handler_of_not_dynamic {f : Form} (h : f.isDynamic = false) :
    ∃ collection, collection ≠ .command ∧ (f.handler : Handler) = Handler.rebuild collection := by
  cases f with
  | generic => exact ⟨.generic, nofun, rfl⟩
  | root => exact ⟨.rootCommand, nofun, rfl⟩
  | _ => simp [isDynamic] at h

end Form

namespace Compiler

variable (o : Options) (parsers : Parsers)

/-- **Every node gives what the tree says.** -/
theorem gives_part (n : Node) : Yields ((builtin o parsers).part n).run n.Gives := by
  induction n using Node.induction with
  | step n ih =>
    obtain ⟨name, hrun⟩ := run_builtin o parsers n
    rw [hrun]
    refine .last fun _ => ?_
    -- only for what is rebuilt does it matter what the parts give
    cases hs : n.form.isStatement with
    | true =>
      refine (n.form.yields_statement hs _ _ _).mono ?_
      rintro _ rfl
      exact .statement (n.isStatement_eq.trans hs)
    | false =>
      have hstatement : n.isStatement = false := n.isStatement_eq.trans hs
      cases hd : n.form.isDynamic with
      | true =>
        refine (n.form.yields_expression hd hs _ _ _).mono ?_
        rintro _ ⟨e, rfl⟩
        refine .fragment e ?_ hstatement
        rw [Node.hasDynamic_eq, n.isDynamic_eq, hd, Bool.true_or]
      | false =>
        obtain ⟨collection, -, hhandler⟩ := n.form.handler_of_not_dynamic hd
        rw [hhandler]
        have hparts : n.hasDynamic = false ↔ ∀ m ∈ n.parts, m.hasDynamic = false := by
          rw [Node.hasDynamic_eq, n.isDynamic_eq, hd, Bool.false_or, List.any_eq_false]
          simp
        refine (yields_rebuild collection n ih).bind fun r hr => .pure ?_
        cases r with
        | none => exact .nothing (hparts.2 (hr.1 rfl))
        | some e =>
          refine .fragment e (Bool.not_eq_false _ ▸ fun h => ?_) hstatement
          simpa using hr.2 (hparts.1 h)

/-- **A tree without expressions and statements leaves nothing.** -/
theorem silent_part {n : Node} (h : n.hasDynamic = false) :
    Silent ((builtin o parsers).part n).run none := by
  induction n using Node.induction with
  | step n ih =>
    rw [Node.hasDynamic_eq, Bool.or_eq_false_iff, n.isDynamic_eq, List.any_eq_false] at h
    obtain ⟨name, hrun⟩ := run_builtin o parsers n
    obtain ⟨collection, -, hhandler⟩ := n.form.handler_of_not_dynamic h.1
    rw [hrun, hhandler]
    have hparts : ∀ m ∈ n.parts, Silent ((builtin o parsers).part m).run none :=
      fun m hm => ih m hm (Bool.not_eq_true _ ▸ h.2 m hm)
    exact (Silent.note _).bind ((silent_rebuild collection n hparts).bind (.pure _))

/-! ## Whole trees -/

/-- What compiling a tree comes to, by what its root gives. -/
theorem exec_compileRoot (c : Compiler) (root : Node) (d : Draft) :
    exec (c.compileRoot root) d =
      match exec (c.part root).run d with
      | (.error e, d') => (.error e, d')
      | (.ok none, d') => (.ok none, { d' with events := d'.events ++ [.static d'.refs.length] })
      | (.ok (some [e]), d') =>
        (.ok (some d'.fresh), { d' with
          fresh := d'.fresh + 1
          lines := d'.lines ++ [⟨d'.depth, .output d'.fresh e⟩]
          events := d'.events ++ [.bound d'.fresh d'.refs.length] })
      | (.ok (some es), d') =>
        (.error ⟨.rootFragments es.length, root.location⟩, d') := by
  rw [compileRoot, exec_bind]
  rcases exec (c.part root).run d with ⟨_ | _ | _ | ⟨e, _ | _⟩, d'⟩ <;> rfl

/-- A tree is refused for what the work on its root failed for. -/
theorem compile_eq_error {c : Compiler} {root : Node} {e : Diagnostic} :
    (c.compile root).1 = .error e ↔
      ∃ f draft, exec (c.compileRoot root) .empty = (.error f, draft) ∧ e = f.diagnostic := by
  have hrun : c.run root = exec (c.compileRoot root) .empty := rfl
  unfold compile
  rw [hrun]
  rcases exec (c.compileRoot root) .empty with ⟨f | outcome, draft⟩
  · constructor
    · rintro ⟨⟩
      exact ⟨f, draft, rfl, rfl⟩
    · rintro ⟨_, _, ⟨⟩, rfl⟩
      rfl
  · refine iff_of_false (by rintro ⟨⟩) ?_
    rintro ⟨_, _, ⟨⟩, _⟩

/-- A tree has been compiled if the work on its root went well. -/
theorem compile_eq_ok {c : Compiler} {root : Node} {compiled : Compiled} :
    (c.compile root).1 = .ok compiled ↔
      ∃ outcome draft, exec (c.compileRoot root) .empty = (.ok outcome, draft) ∧
        compiled = c.present draft outcome := by
  have hrun : c.run root = exec (c.compileRoot root) .empty := rfl
  unfold compile
  rw [hrun]
  rcases exec (c.compileRoot root) .empty with ⟨e | outcome, draft⟩
  · refine iff_of_false (by rintro ⟨⟩) ?_
    rintro ⟨_, _, ⟨⟩, _⟩
  · constructor
    · rintro ⟨⟩
      exact ⟨outcome, draft, rfl, rfl⟩
    · rintro ⟨_, _, ⟨⟩, rfl⟩
      rfl

/-- A tree without a program is one whose root gives nothing. -/
theorem exec_part_of_program_eq_none {c : Compiler} {root : Node} {compiled : Compiled}
    (h : (c.compile root).1 = .ok compiled) (hprogram : compiled.program = none) :
    ∃ d, exec (c.part root).run .empty = (.ok none, d) ∧ compiled.refs = d.refs := by
  obtain ⟨outcome, draft, hrun, rfl⟩ := compile_eq_ok.1 h
  obtain rfl : outcome = none := by simpa [present] using hprogram
  rw [exec_compileRoot] at hrun
  rcases hpart : exec (c.part root).run .empty with ⟨_ | _ | _ | ⟨e, _ | _⟩, d⟩ <;>
    simp [hpart] at hrun
  exact ⟨d, rfl, by simp [present, ← hrun]⟩

/-- **Trichotomy.** Whatever the draft, a node gives nothing exactly if no
rule for an expression or a statement is for any node of its tree, and
then the draft is as before but for what was recorded; it gives no
fragment exactly if it is a statement; and otherwise it gives one. A tree
of the first sort cannot fail to compile. So a tree needs no program
exactly if it is of that sort, and then it refers to nothing. -/
theorem trichotomy (n : Node) :
    (∀ d r d', exec ((builtin o parsers).part n).run d = (.ok r, d') →
      (r = none ↔ ∀ m ∈ n.subtree, m.isDynamic = false) ∧
      (r = none → d' = { d with events := d'.events }) ∧
      (r = some [] ↔ n.isStatement = true) ∧
      (r ≠ none → r ≠ some [] → ∃ e, r = some [e])) ∧
    ((∀ m ∈ n.subtree, m.isDynamic = false) →
      ∀ d, ∃ d', exec ((builtin o parsers).part n).run d = (.ok none, d')) ∧
    ((∃ compiled, ((builtin o parsers).compile n).1 = .ok compiled ∧ compiled.program = none) ↔
      ∀ m ∈ n.subtree, m.isDynamic = false) ∧
    ∀ compiled, ((builtin o parsers).compile n).1 = .ok compiled →
      compiled.program = none → compiled.refs = [] := by
  rw [← Node.hasDynamic_eq_false]
  refine ⟨fun d r d' hrun => ?_, fun h d => ?_, ⟨?_, fun h => ?_⟩, ?_⟩
  -- a run that ends well
  · have hgives := gives_part o parsers n d r d' hrun
    refine ⟨hgives.eq_none_iff, ?_, hgives.eq_some_nil_iff, ?_⟩
    · rintro rfl
      obtain ⟨events, hsilent⟩ := silent_part o parsers (hgives.eq_none_iff.1 rfl) d
      rw [hrun, Prod.mk.injEq] at hsilent
      rw [hsilent.2]
    · intro hnone hnil
      cases hgives with
      | nothing _ => exact absurd rfl hnone
      | statement _ => exact absurd rfl hnil
      | fragment e _ _ => exact ⟨e, rfl⟩
  -- a tree that gives nothing does not fail
  · obtain ⟨events, hsilent⟩ := silent_part o parsers h d
    exact ⟨_, hsilent⟩
  -- a whole tree, by what its root gives
  · rintro ⟨compiled, hcompiled, hprogram⟩
    obtain ⟨d, hrun, -⟩ := exec_part_of_program_eq_none hcompiled hprogram
    exact (gives_part o parsers n _ _ _ hrun).eq_none_iff.1 rfl
  · obtain ⟨events, hsilent⟩ := silent_part o parsers h .empty
    have hrun : ∃ d, exec ((builtin o parsers).compileRoot n) .empty = (.ok none, d) := by
      rw [exec_compileRoot, hsilent]
      exact ⟨_, rfl⟩
    obtain ⟨d, hrun⟩ := hrun
    exact ⟨_, compile_eq_ok.2 ⟨none, d, hrun, rfl⟩, rfl⟩
  · intro compiled hcompiled hprogram
    obtain ⟨d, hrun, hrefs⟩ := exec_part_of_program_eq_none hcompiled hprogram
    have hstatic := (gives_part o parsers n _ _ _ hrun).eq_none_iff.1 rfl
    obtain ⟨events, hsilent⟩ := silent_part o parsers hstatic .empty
    rw [hrun, Prod.mk.injEq] at hsilent
    rw [hrefs, hsilent.2]
    rfl

end Compiler

end ScriptSplice
