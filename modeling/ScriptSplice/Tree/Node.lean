import ScriptSplice.Tree.Kind
import ScriptSplice.Tree.Leaf
/-!
# Syntax trees

A node has a kind, named fields in order, and the place it was read from.
A field holds a leaf, one child, or a sequence of children, and where a
child can stand there may be none. Field names may repeat; looking one up
finds the first.

Values and fields are parametric in what stands in for a node, so that
the same accessors read a tree, the results for its parts, or the work
still to be done on them. `Node.fold` is the one recursion over trees and
`Node.fold_eq` its equation; nothing else recurses on nodes.
-/

namespace ScriptSplice

/-- A place in a text: line and column, both counted from one. A negative
line stands for no place. -/
structure Location where
  line : Int
  col : Int
deriving DecidableEq, Inhabited, Repr

namespace Location

/-- No place. -/
def unknown : Location := ⟨-1, -1⟩

/-- Whether a place is none. -/
def isUnknown (l : Location) : Bool := l.line < 0

/-- The line as a mark gives it, a number of 32 bits, if the place is
known. -/
def line? (l : Location) : Option Int := if l.isUnknown then none else some (Text.word l.line)

end Location

/-- What a field holds, with `ν` for nodes. -/
inductive Value (ν : Type) where
  | leaf (l : Leaf)
  | child (c : Option ν)
  | children (cs : List (Option ν))

/-- A named value. -/
structure Field (ν : Type) where
  name : Text
  value : Value ν

/-- A node of a syntax tree. -/
structure Node where
  kind : Kind
  fields : List (Field Node)
  location : Location

instance : Inhabited Node := ⟨⟨.root, [], .unknown⟩⟩

variable {μ ν ξ : Type}

namespace Value

/-- Applies a function to every node of a value. -/
def map (f : ν → ξ) : Value ν → Value ξ
  | leaf l => leaf l
  | child c => child (c.map f)
  | children cs => children (cs.map (·.map f))

/-- The nodes of a value, in order, absent ones left out. -/
def nodes : Value ν → List ν
  | leaf _ => []
  | child c => c.toList
  | children cs => cs.filterMap id

@[simp] theorem map_map (g : ν → ξ) (f : μ → ν) (v : Value μ) :
    (v.map f).map g = v.map (g ∘ f) := by
  cases v <;> simp [map, Function.comp_def]

@[simp] theorem map_id (v : Value ν) : v.map id = v := by
  cases v <;> simp [map]

@[simp] theorem nodes_map (f : ν → ξ) (v : Value ν) : (v.map f).nodes = v.nodes.map f := by
  cases v with
  | leaf l => rfl
  | child c => cases c <;> rfl
  | children cs =>
    simp only [map, nodes]
    induction cs with
    | nil => rfl
    | cons c cs ih => cases c <;> simp_all

end Value

namespace Field

/-- Applies a function to every node of a field. -/
def map (f : ν → ξ) (field : Field ν) : Field ξ := ⟨field.name, field.value.map f⟩

@[simp] theorem name_map (f : ν → ξ) (field : Field ν) : (field.map f).name = field.name := rfl

@[simp] theorem value_map (f : ν → ξ) (field : Field ν) :
    (field.map f).value = field.value.map f := rfl

@[simp] theorem map_map (g : ν → ξ) (f : μ → ν) (field : Field μ) :
    (field.map f).map g = field.map (g ∘ f) := by simp [map]

@[simp] theorem map_id (field : Field ν) : field.map id = field := by simp [map]

end Field

/-! ## Looking fields up

The accessors are total: a name that is absent, or that names a value of
another sort, reads as nothing. -/

/-- The fields of a node, with `ν` for nodes. -/
abbrev Fields (ν : Type) := List (Field ν)

namespace Fields

/-- The value under a name. -/
def value? (fields : Fields ν) (name : Text) : Option (Value ν) :=
  (List.find? (fun f => f.name == name) fields).map (·.value)

/-- The leaf under a name. -/
def leaf? (fields : Fields ν) (name : Text) : Option Leaf :=
  match value? fields name with
  | some (.leaf l) => some l
  | _ => none

/-- The text of the string leaf under a name, empty if there is none. -/
def text (fields : Fields ν) (name : Text) : Text :=
  match leaf? fields name with
  | some l => l.text
  | none => []

/-- The single child under a name. -/
def child? (fields : Fields ν) (name : Text) : Option ν :=
  match value? fields name with
  | some (.child c) => c
  | _ => none

/-- The sequence of children under a name, empty if there is none. -/
def children (fields : Fields ν) (name : Text) : List (Option ν) :=
  match value? fields name with
  | some (.children cs) => cs
  | _ => []

/-- Every node of the fields, in order. -/
def nodes (fields : Fields ν) : List ν := fields.flatMap fun f => f.value.nodes

/-- Applies a function to every node of the fields. -/
def map (f : ν → ξ) (fields : Fields ν) : Fields ξ := List.map (Field.map f) fields

@[simp] theorem map_id (fields : Fields ν) : map id fields = fields :=
  (List.map_congr_left fun f _ => f.map_id).trans (List.map_id fields)

@[simp] theorem value?_map (f : ν → ξ) (fields : Fields ν) (name : Text) :
    value? (map f fields) name = (value? fields name).map (Value.map f) := by
  induction fields with
  | nil => rfl
  | cons x xs ih =>
    simp only [value?, map, List.map_cons, List.find?_cons, Field.name_map] at ih ⊢
    cases x.name == name with
    | true => rfl
    | false => exact ih

@[simp] theorem leaf?_map (f : ν → ξ) (fields : Fields ν) (name : Text) :
    leaf? (map f fields) name = leaf? fields name := by
  simp only [leaf?, value?_map]
  rcases value? fields name with _ | (_ | _ | _) <;> rfl

@[simp] theorem text_map (f : ν → ξ) (fields : Fields ν) (name : Text) :
    text (map f fields) name = text fields name := by simp [text]

@[simp] theorem child?_map (f : ν → ξ) (fields : Fields ν) (name : Text) :
    child? (map f fields) name = (child? fields name).map f := by
  simp only [child?, value?_map]
  rcases value? fields name with _ | (_ | _ | _) <;> rfl

@[simp] theorem children_map (f : ν → ξ) (fields : Fields ν) (name : Text) :
    children (map f fields) name = (children fields name).map (·.map f) := by
  simp only [children, value?_map]
  rcases value? fields name with _ | (_ | _ | _) <;> rfl

@[simp] theorem nodes_map (f : ν → ξ) (fields : Fields ν) :
    nodes (map f fields) = (nodes fields).map f := by
  simp [nodes, map, List.map_flatMap, List.flatMap_map]

end Fields

namespace Node

variable (n : Node) (name : Text)

/-- The value under a name. -/
def value? : Option (Value Node) := Fields.value? n.fields name

/-- The leaf under a name. -/
def leaf? : Option Leaf := Fields.leaf? n.fields name

/-- The text of the string leaf under a name. -/
def text : Text := Fields.text n.fields name

/-- The single child under a name. -/
def child? : Option Node := Fields.child? n.fields name

/-- The sequence of children under a name. -/
def children : List (Option Node) := Fields.children n.fields name

/-- The nodes directly below a node, in order. -/
def parts : List Node := Fields.nodes n.fields

/-! ## Recursion over trees -/

variable {β : Type}

mutual

/-- **Recursion over a tree.** The result for a node is made from the
node itself and its fields with every node replaced by its result. -/
def fold (f : Node → Fields β → β) : Node → β
  | ⟨kind, fields, location⟩ => f ⟨kind, fields, location⟩ (foldFields f fields)

/-- The fields of a node with every node replaced by its result. -/
def foldFields (f : Node → Fields β → β) : List (Field Node) → List (Field β)
  | [] => []
  | field :: fields => foldField f field :: foldFields f fields

/-- One field with every node replaced by its result. -/
def foldField (f : Node → Fields β → β) : Field Node → Field β
  | ⟨name, value⟩ => ⟨name, foldValue f value⟩

/-- One value with every node replaced by its result. -/
def foldValue (f : Node → Fields β → β) : Value Node → Value β
  | .leaf l => .leaf l
  | .child c => .child (foldOption f c)
  | .children cs => .children (foldOptions f cs)

/-- A node that may be absent, replaced by its result. -/
def foldOption (f : Node → Fields β → β) : Option Node → Option β
  | none => none
  | some n => some (fold f n)

/-- A sequence of nodes, each replaced by its result. -/
def foldOptions (f : Node → Fields β → β) : List (Option Node) → List (Option β)
  | [] => []
  | c :: cs => foldOption f c :: foldOptions f cs

end

section Equations

variable (f : Node → Fields β → β)

theorem foldOption_eq (c : Option Node) : foldOption f c = c.map (fold f) := by
  cases c <;> rfl

theorem foldOptions_eq (cs : List (Option Node)) :
    foldOptions f cs = cs.map (·.map (fold f)) := by
  induction cs with
  | nil => rfl
  | cons c cs ih => simp [foldOptions, foldOption_eq, ih]

theorem foldValue_eq (v : Value Node) : foldValue f v = v.map (fold f) := by
  cases v <;> simp [foldValue, Value.map, foldOption_eq, foldOptions_eq]

theorem foldFields_eq (fields : List (Field Node)) :
    foldFields f fields = Fields.map (fold f) fields := by
  induction fields with
  | nil => rfl
  | cons x xs ih =>
    cases x
    simp only [foldFields, ih, Fields.map, List.map_cons, foldField, Field.map, foldValue_eq]

/-- **The equation of the recursion.** -/
theorem fold_eq (n : Node) : fold f n = f n (Fields.map (fold f) n.fields) := by
  cases n
  simp only [fold, foldFields_eq]

end Equations

/-- The number of nodes of a tree. -/
def size : Node → Nat := fold fun _ fields => (Fields.nodes fields).foldr (· + ·) 1

theorem size_eq : n.size = (n.parts.map size).foldr (· + ·) 1 := by
  rw [size, fold_eq, Fields.nodes_map]
  rfl

/-- A node is smaller than one it is part of. -/
theorem size_lt_of_mem_parts {n c : Node} (h : c ∈ n.parts) : c.size < n.size := by
  have positive : ∀ l : List Nat, 0 < l.foldr (· + ·) 1 := by
    intro l
    induction l with
    | nil => simp
    | cons x xs ih => exact Nat.add_pos_right x ih
  have below : ∀ l : List Node, c ∈ l → c.size < (l.map size).foldr (· + ·) 1 := by
    intro l hc
    induction l with
    | nil => simp at hc
    | cons x xs ih =>
      rw [List.map_cons, List.foldr_cons]
      rcases List.mem_cons.1 hc with rfl | hc
      · have := positive (xs.map size)
        omega
      · have := ih hc
        omega
  rw [size_eq n]
  exact below _ h

/-- **Induction over trees.** What holds of a node when it holds of its
parts holds of every node. -/
theorem induction {motive : Node → Prop}
    (step : ∀ n, (∀ c ∈ n.parts, motive c) → motive n) (n : Node) : motive n :=
  step n fun c _ => induction step c
termination_by n.size
decreasing_by exact size_lt_of_mem_parts ‹_›

end Node

end ScriptSplice
