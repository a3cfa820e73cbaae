import ScriptSplice.Proofs.Compile.Twin
import ScriptSplice.Proofs.Rules.WellFormed
/-!
# What the rules take over as it stands

Names, operators and the paths of imports come from the tree and go to the
program unchanged. `Node.verbatims` lists these texts for one node, by its
form, and a tree is within a vocabulary (`Node.Within`) if all of them, and
the names of all fields, are of it. Reading a node for what it imports
gives the same wherever the node was read from.
-/

namespace ScriptSplice

open Compile

namespace Node

/-- The path of the module that a command imports. -/
def importPath (n : Node) : Text :=
  ((Handler.argument n.fields 0).map (·.text (ascii "path"))).getD []

/-- The names that the head of a function is made of. -/
def headNames (n : Node) : List Text :=
  (Handler.argument n.fields 0).toList.flatMap fun signature =>
    signature.text (ascii "name") ::
      ((signature.children (ascii "arguments")).filterMap id).map (·.text (ascii "name"))

/-- **The texts that the rule for a node takes over.** -/
def verbatims (n : Node) : List Text :=
  match n.form with
  | .identifier | .targetIdentifier => [n.text (ascii "value")]
  | .binary | .unary | .assignment => [n.text (ascii "operator")]
  | .function => n.headNames
  | .importModule => [n.importPath]
  | .importAs => [n.importPath, Handler.importedName (Handler.argument n.fields 1)]
  | .fromImport => n.importPath :: (Handler.importedNames n).toOption.getD []
  | _ => []

/-- A node takes over texts of a vocabulary. -/
structure Borrows (V : Vocabulary) (n : Node) : Prop where
  verbatims : ∀ t ∈ n.verbatims, V.Name t
  fields : ∀ f ∈ n.fields, V.field f.name

/-- **Trees within a vocabulary.** -/
def Within (V : Vocabulary) (n : Node) : Prop := ∀ m ∈ n.subtree, m.Borrows V

variable {V : Vocabulary} {n : Node}

section

variable {signature p : Node} (h : Handler.argument n.fields 0 = some signature)

include h

theorem name_mem_headNames : signature.text (ascii "name") ∈ n.headNames := by
  rw [headNames, h]
  simp

theorem parameter_mem_headNames (hp : p ∈ (signature.children (ascii "arguments")).filterMap id) :
    p.text (ascii "name") ∈ n.headNames := by
  rw [headNames, h]
  simp only [Option.toList_some, List.flatMap_cons, List.flatMap_nil, List.append_nil]
  exact List.mem_cons_of_mem _ (List.mem_map_of_mem hp)

end

theorem Within.borrows (h : n.Within V) : n.Borrows V := h n (mem_subtree_self n)

theorem Within.of_descendants (h : n.Within V) {m : Node} (hm : m ∈ n.descendants) :
    m.Within V := by
  intro k hk
  rcases mem_subtree.1 hk with rfl | hk
  · exact h k (mem_subtree.2 (Or.inr hm))
  · exact h k (mem_subtree.2 (Or.inr (descendants_trans hm hk)))

end Node

/-! ## Imports -/

namespace Handler

variable {V : Vocabulary} {n : Node}

/-- What a command imports is named by its path. -/
theorem path_of_moduleOf {m : ModulePath} (h : moduleOf n = .ok m) : m.path = n.importPath := by
  unfold moduleOf at h
  unfold Node.importPath
  cases hl : argument n.fields 0 with
  | none =>
    rw [hl] at h
    cases h
  | some l =>
    rw [hl] at h
    by_cases hkind : l.kind = .resourceLocation
    · by_cases hpath : (l.text (ascii "path")).isEmpty
      · simp only [hkind, hpath] at h
        cases h
      · simp only [hkind, hpath] at h
        cases h
        rfl
    · simp only [ne_eq, hkind, not_false_eq_true, if_true] at h
      cases h

/-- The last part of a path is made of bytes of the path. -/
theorem word_lastPart {m : ModulePath} (h : V.Word m.path) : V.Word m.lastPart := by
  intro b hb
  rw [ModulePath.lastPart, List.mem_reverse] at hb
  exact h b (List.mem_reverse.1 ((List.takeWhile_prefix _).subset hb))

theorem importedName_unlocated (m : Option Node) :
    importedName (m.map Node.unlocated) = importedName m := by
  cases m with
  | none => rfl
  | some m => simp [importedName]

theorem continuesChain_unlocated (link : Node) :
    continuesChain link.unlocated = continuesChain link := by
  rw [continuesChain, Node.text_unlocated, continuesChain]

theorem moduleOf_unlocated (n : Node) :
    moduleOf n.unlocated = (moduleOf n).mapError Failure.unlocated := by
  unfold moduleOf
  rw [Node.fields_unlocated, argument_map, Node.location_unlocated]
  cases argument n.fields 0 with
  | none => rfl
  | some l =>
    simp only [Option.map_some, Node.kind_unlocated, Node.text_unlocated, Node.location_unlocated]
    split
    · rfl
    · split <;> rfl

/-- What is computed from a result does not matter to a failure. -/
private theorem mapError_map {α β : Type} (f : α → β) (g : Failure → Failure)
    (x : Except Failure α) : (x.map f).mapError g = (x.mapError g).map f := by
  cases x <;> rfl

theorem chainNames_unlocated (n : Node) :
    chainNames n.unlocated = (chainNames n).mapError Failure.unlocated := by
  induction n using Node.induction with
  | step n ih =>
    have hrest : WellFormed.namesAfter n.unlocated =
        (WellFormed.namesAfter n).mapError Failure.unlocated := by
      rw [WellFormed.namesAfter, WellFormed.namesAfter, continuesChain_unlocated,
        Node.fields_unlocated, argument_map]
      cases continuesChain n with
      | false => rfl
      | true =>
        cases hm : argument n.fields 1 with
        | none => rfl
        | some m => exact ih m (mem_nodes_of_argument hm)
    rw [WellFormed.chainNames_eq, WellFormed.chainNames_eq, Node.kind_unlocated, hrest,
      Node.fields_unlocated, argument_map, importedName_unlocated, Node.location_unlocated]
    split
    · rfl
    · rw [mapError_map]

theorem importedNames_unlocated (n : Node) :
    importedNames n.unlocated = (importedNames n).mapError Failure.unlocated := by
  unfold importedNames
  rw [Node.fields_unlocated, argument_map, Node.location_unlocated]
  have hnames : ((argument n.fields 1).map Node.unlocated).elim (pure []) chainNames =
      ((argument n.fields 1).elim (pure []) chainNames).mapError Failure.unlocated := by
    cases argument n.fields 1 with
    | none => rfl
    | some m => exact chainNames_unlocated m
  rw [hnames]
  rcases (argument n.fields 1).elim (pure []) chainNames with f | names
  · rfl
  · change (if names.isEmpty then _ else _) = Except.mapError _ (if names.isEmpty then _ else _)
    split <;> rfl

end Handler

/-! ## Forms -/

/-- The keyword of a statement is made of letters and blanks. -/
theorem Form.isKeyword_of_mem {c : Text × Form} (hc : c ∈ commands) {keyword : String}
    (h : c.2 = control keyword ∨ c.2 = branch keyword) : (ascii keyword).isKeyword = true := by
  have hall : commands.all (fun c => match c.2 with
      | control keyword | branch keyword => (ascii keyword).isKeyword
      | _ => true) = true := by decide
  have hc := List.all_eq_true.1 hall c hc
  rcases h with h | h <;> simpa only [h] using hc

theorem Node.isKeyword {n : Node} {keyword : String}
    (h : n.form = .control keyword ∨ n.form = .branch keyword) :
    (ascii keyword).isKeyword = true := by
  have hkind : n.kind = .command := by
    obtain ⟨kind, fields, location⟩ := n
    cases kind <;> first | rfl | simp [form] at h
  simp only [form, hkind] at h
  obtain ⟨c, hc, -, hform⟩ | ⟨-, hform⟩ := Form.ofCommand_cases (n.leaf? Handler.identifierField)
  · exact Form.isKeyword_of_mem hc (hform ▸ h)
  · simp [hform] at h

/-- The rule for a node does not depend on its place. -/
@[simp] theorem Node.form_unlocated (n : Node) : n.unlocated.form = n.form := by
  rw [form, form, kind_unlocated, leaf?_unlocated]

end ScriptSplice
