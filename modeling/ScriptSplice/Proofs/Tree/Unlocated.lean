import ScriptSplice.Proofs.Tree.Subtree
/-!
# Trees without places

A tree can be read with the place of every node or with none. The second
tree is the first one unlocated: the same but for the places, and so is
what is found in it under any name.
-/

namespace ScriptSplice

theorem Fields.map_map {μ ν ξ : Type} (g : ν → ξ) (f : μ → ν) (fields : Fields μ) :
    map g (map f fields) = map (g ∘ f) fields := by
  simp [map, Function.comp_def]

namespace Node

/-- The tree with every place unknown. -/
def unlocated : Node → Node := fold fun n fields => ⟨n.kind, fields, .unknown⟩

theorem unlocated_eq (n : Node) :
    n.unlocated = ⟨n.kind, Fields.map unlocated n.fields, .unknown⟩ := by
  rw [unlocated, fold_eq]

variable (n : Node) (name : Text)

@[simp] theorem kind_unlocated : n.unlocated.kind = n.kind := by rw [unlocated_eq]

@[simp] theorem fields_unlocated : n.unlocated.fields = Fields.map unlocated n.fields := by
  rw [unlocated_eq]

@[simp] theorem location_unlocated : n.unlocated.location = .unknown := by rw [unlocated_eq]

@[simp] theorem leaf?_unlocated : n.unlocated.leaf? name = n.leaf? name := by
  rw [leaf?, fields_unlocated, Fields.leaf?_map, leaf?]

@[simp] theorem text_unlocated : n.unlocated.text name = n.text name := by
  rw [text, fields_unlocated, Fields.text_map, text]

end Node

end ScriptSplice
