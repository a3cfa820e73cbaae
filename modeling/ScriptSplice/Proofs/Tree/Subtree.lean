import ScriptSplice.Tree.Node
/-!
# The nodes of a tree

What stands under a name in a node is among its parts. `Node.subtree`
lists the nodes of a tree, the root first, and `Node.descendants` those
under the root. What holds of a node when it holds of all nodes below it
holds of every node (`Node.induction_descendants`): rules that look two
levels down need this form of induction. `Node.leaves` lists the leaves
of all these nodes.
-/

namespace ScriptSplice

/-! ## Parts under a name -/

namespace Fields

variable {ν : Type} {fields : Fields ν} {name : Text}

theorem mem_nodes {f : Field ν} {v : ν} (hf : f ∈ fields) (hv : v ∈ f.value.nodes) :
    v ∈ nodes fields := List.mem_flatMap.2 ⟨f, hf, hv⟩

theorem exists_of_value? {v : Value ν} (h : value? fields name = some v) :
    ∃ f ∈ fields, f.value = v := by
  obtain ⟨f, hf, rfl⟩ := Option.map_eq_some_iff.1 h
  exact ⟨f, List.mem_of_find?_eq_some hf, rfl⟩

theorem mem_nodes_of_child? {v : ν} (h : child? fields name = some v) : v ∈ nodes fields := by
  unfold child? at h
  split at h
  · rename_i c hv
    obtain ⟨f, hf, hfv⟩ := exists_of_value? hv
    exact mem_nodes hf (by simp [hfv, Value.nodes, h])
  · simp at h

theorem mem_nodes_of_children {v : ν} (h : some v ∈ children fields name) : v ∈ nodes fields := by
  unfold children at h
  split at h
  · rename_i cs hv
    obtain ⟨f, hf, hfv⟩ := exists_of_value? hv
    exact mem_nodes hf (by simpa [hfv, Value.nodes] using h)
  · simp at h

/-- The nodes of a sequence that are there. -/
theorem filterMap_children {ξ : Type} (f : ν → ξ) (fields : Fields ν) (name : Text) :
    (children (map f fields) name).filterMap id = ((children fields name).filterMap id).map f := by
  rw [children_map, List.filterMap_map, List.map_filterMap]
  rfl

/-- Functions that agree on the nodes of some fields agree on the fields. -/
theorem map_congr {ξ : Type} {f g : ν → ξ} (h : ∀ v ∈ nodes fields, f v = g v) :
    map f fields = map g fields := by
  refine List.map_congr_left fun field hfield => ?_
  have hvalue : field.value.map f = field.value.map g := by
    have hnodes := fun v hv => h v (mem_nodes hfield hv)
    cases hv : field.value with
    | leaf l => rfl
    | child c =>
      refine congrArg Value.child (Option.map_congr fun v hc => hnodes v ?_)
      rw [hv, hc]
      exact List.mem_singleton_self v
    | children cs =>
      refine congrArg Value.children (List.map_congr_left fun c hc => ?_)
      refine Option.map_congr fun v hcv => hnodes v ?_
      rw [hv]
      exact List.mem_filterMap.2 ⟨c, hc, hcv⟩
  rw [Field.map, Field.map, hvalue]

end Fields

/-! ## All nodes -/

namespace Node

/-- The nodes of a tree, the root first. -/
def subtree : Node → List Node := fold fun n fields => n :: (Fields.nodes fields).flatten

/-- The nodes of a tree under its root. -/
def descendants (n : Node) : List Node := n.parts.flatMap subtree

variable {n m k : Node}

theorem subtree_eq (n : Node) : n.subtree = n :: n.descendants := by
  rw [subtree, fold_eq, Fields.nodes_map, descendants, List.flatMap_def]
  rfl

theorem mem_subtree_self (n : Node) : n ∈ n.subtree := by
  rw [subtree_eq]
  exact List.mem_cons_self

theorem mem_descendants : m ∈ n.descendants ↔ ∃ p ∈ n.parts, m ∈ p.subtree := List.mem_flatMap

theorem mem_descendants_of_mem_parts (h : m ∈ n.parts) : m ∈ n.descendants :=
  mem_descendants.2 ⟨m, h, mem_subtree_self m⟩

theorem mem_descendants_of_mem_children {name : Text} (h : some m ∈ n.children name) :
    m ∈ n.descendants :=
  mem_descendants_of_mem_parts (Fields.mem_nodes_of_children h)

theorem mem_descendants_of_mem_filterMap {name : Text}
    (h : m ∈ (Fields.children n.fields name).filterMap id) : m ∈ n.descendants :=
  mem_descendants_of_mem_parts (Fields.mem_nodes_of_children (by simpa using h))

theorem mem_subtree : m ∈ n.subtree ↔ m = n ∨ m ∈ n.descendants := by
  rw [subtree_eq, List.mem_cons]

/-- **Induction over trees, all levels down.** -/
theorem induction_descendants {motive : Node → Prop}
    (step : ∀ n, (∀ m ∈ n.descendants, motive m) → motive n) (n : Node) : motive n := by
  suffices ∀ m ∈ n.subtree, motive m from this n (mem_subtree_self n)
  induction n using Node.induction with
  | step n ih =>
    have hdescendants : ∀ m ∈ n.descendants, motive m := by
      intro m hm
      obtain ⟨p, hp, hm⟩ := mem_descendants.1 hm
      exact ih p hp m hm
    intro m hm
    rcases mem_subtree.1 hm with rfl | hm
    · exact step m hdescendants
    · exact hdescendants m hm

theorem descendants_trans (hm : m ∈ n.descendants) (hk : k ∈ m.descendants) :
    k ∈ n.descendants := by
  induction n using Node.induction with
  | step n ih =>
    obtain ⟨p, hp, hmp⟩ := mem_descendants.1 hm
    rcases mem_subtree.1 hmp with rfl | hmp
    · exact mem_descendants.2 ⟨m, hp, mem_subtree.2 (Or.inr hk)⟩
    · exact mem_descendants.2 ⟨p, hp, mem_subtree.2 (Or.inr (ih p hp hmp))⟩

/-- A node of a subtree is a node of the tree. -/
theorem subtree_trans (hm : m ∈ n.subtree) (hk : k ∈ m.subtree) : k ∈ n.subtree := by
  rcases mem_subtree.1 hm with rfl | hm
  · exact hk
  · rcases mem_subtree.1 hk with rfl | hk
    · exact mem_subtree.2 (Or.inr hm)
    · exact mem_subtree.2 (Or.inr (descendants_trans hm hk))

theorem mem_subtree_of_mem_parts (h : m ∈ n.parts) : m ∈ n.subtree :=
  mem_subtree.2 (Or.inr (mem_descendants_of_mem_parts h))

/-- A node is smaller than one it is below. -/
theorem size_lt_of_mem_descendants (h : m ∈ n.descendants) : m.size < n.size := by
  induction n using Node.induction with
  | step n ih =>
    obtain ⟨p, hp, hm⟩ := mem_descendants.1 h
    have hpart := size_lt_of_mem_parts hp
    rcases mem_subtree.1 hm with rfl | hm
    · exact hpart
    · exact Nat.lt_trans (ih p hp hm) hpart

theorem size_pos (n : Node) : 0 < n.size := by
  have hsum : ∀ sizes : List Nat, 0 < sizes.foldr (· + ·) 1 := by
    intro sizes
    induction sizes with
    | nil => exact Nat.one_pos
    | cons size sizes ih => exact Nat.add_pos_right size ih
  rw [size_eq]
  exact hsum _

end Node

/-! ## Leaves -/

/-- The leaf of a value that is one. -/
def Value.leaf? {ν : Type} : Value ν → Option Leaf
  | leaf l => some l
  | _ => none

namespace Node

/-- The leaves of a tree. -/
def leaves (n : Node) : List Leaf := n.subtree.flatMap fun m => m.fields.filterMap (·.value.leaf?)

variable {n m : Node} {l : Leaf}

theorem mem_leaves_of_mem_fields {f : Field Node} (hf : f ∈ n.fields)
    (hl : f.value.leaf? = some l) : l ∈ n.leaves :=
  List.mem_flatMap.2 ⟨n, mem_subtree_self n, List.mem_filterMap.2 ⟨f, hf, hl⟩⟩

theorem mem_leaves_of_mem_parts (hm : m ∈ n.parts) (hl : l ∈ m.leaves) : l ∈ n.leaves := by
  obtain ⟨k, hk, hl⟩ := List.mem_flatMap.1 hl
  exact List.mem_flatMap.2 ⟨k, mem_subtree.2 (Or.inr (mem_descendants.2 ⟨m, hm, hk⟩)), hl⟩

/-- The leaves of a tree are those of its fields and those of its parts. -/
theorem mem_leaves_iff : l ∈ n.leaves ↔
    (∃ f ∈ n.fields, f.value.leaf? = some l) ∨ ∃ m ∈ n.parts, l ∈ m.leaves := by
  constructor
  · intro h
    obtain ⟨k, hk, hl⟩ := List.mem_flatMap.1 h
    rcases mem_subtree.1 hk with rfl | hk
    · exact .inl (List.mem_filterMap.1 hl)
    · obtain ⟨m, hm, hk⟩ := mem_descendants.1 hk
      exact .inr ⟨m, hm, List.mem_flatMap.2 ⟨k, hk, hl⟩⟩
  · rintro (⟨f, hf, hl⟩ | ⟨m, hm, hl⟩)
    · exact mem_leaves_of_mem_fields hf hl
    · exact mem_leaves_of_mem_parts hm hl

theorem mem_leaves_of_leaf? {name : Text} (h : n.leaf? name = some l) : l ∈ n.leaves := by
  rw [leaf?, Fields.leaf?] at h
  split at h
  · rename_i hvalue
    cases h
    obtain ⟨f, hf, hfv⟩ := Fields.exists_of_value? hvalue
    exact mem_leaves_of_mem_fields hf (by rw [hfv, Value.leaf?])
  · cases h

end Node

end ScriptSplice
