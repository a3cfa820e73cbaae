import Mathlib.Data.List.Nodup
import ScriptSplice.Proofs.Rules.Trichotomy
import ScriptSplice.Proofs.Target.Execution
/-!
# The tree that a program makes

A program is to make the tree it was compiled from, with what a converter
makes of a name in the place of every interpolation (`Node.reconstruct`).
This is so for trees in which only interpolations of names are expressions
(`Node.Reconstructible`): the other nodes are rebuilt, and rebuilding
overrides fields by their names.
-/

namespace ScriptSplice

open Compile

namespace Node

variable (convert : Text → Term → Node → Node)

/-- The name that an interpolation interpolates. -/
def interpolated (n : Node) : Text :=
  ((n.child? (ascii "value")).map (·.text (ascii "value"))).getD []

/-- **The tree with its interpolations replaced.** -/
def reconstruct : Node → Node := fold fun n fields =>
  if n.kind = .interpolation then
    convert (n.text (ascii "converter")) (.name n.interpolated) n
  else { n with fields }

/-- A tree in which only interpolations are expressions, and they are of
names. There are no marks in it, and its fields can be told apart. -/
inductive Reconstructible : Node → Prop
  | interpolation {n value : Node} :
    n.kind = .interpolation → n.location.isUnknown = true →
    Text.normalize (n.text (ascii "converter")) = n.text (ascii "converter") →
    n.text (ascii "converter") ≠ [] →
    n.child? (ascii "value") = some value →
    value.kind = .identifier → value.location.isUnknown = true →
    (value.text (ascii "value")).isName = true → Reconstructible n
  | plain {n : Node} :
    n.isDynamic = false → (n.fields.map (·.name)).Nodup →
    (∀ f ∈ n.fields, f.name.isName = true) →
    (∀ m ∈ n.parts, Reconstructible m) → Reconstructible n

theorem form_interpolation {n : Node} (h : n.kind = .interpolation) : n.form = .interpolation := by
  rw [form, h]

theorem form_identifier {n : Node} (h : n.kind = .identifier) : n.form = .identifier := by
  rw [form, h]

theorem kind_ne_of_not_dynamic {n : Node} (h : n.isDynamic = false) : n.kind ≠ .interpolation := by
  intro hkind
  rw [isDynamic_eq, form_interpolation hkind] at h
  cases h

/-- No reconstructible tree is a statement. -/
theorem Reconstructible.not_statement {n : Node} (h : n.Reconstructible) :
    n.isStatement = false := by
  cases h with
  | interpolation hkind => rw [isStatement_eq, form_interpolation hkind]; rfl
  | plain hdynamic =>
    rw [isDynamic, Bool.or_eq_false_iff] at hdynamic
    exact hdynamic.2

theorem reconstruct_interpolation {n : Node} (h : n.kind = .interpolation) :
    n.reconstruct convert =
      convert (n.text (ascii "converter")) (.name n.interpolated) n := by
  rw [reconstruct, fold_eq, if_pos h]

theorem reconstruct_plain {n : Node} (h : n.kind ≠ .interpolation) :
    n.reconstruct convert = { n with fields := Fields.map (reconstruct convert) n.fields } := by
  rw [reconstruct, fold_eq, if_neg h]

/-- A value stays as it is if its nodes do. -/
theorem map_value_eq {f : Node → Node} {v : Value Node} (h : ∀ m ∈ v.nodes, f m = m) :
    v.map f = v := by
  cases v with
  | leaf l => rfl
  | child c =>
    cases c with
    | none => rfl
    | some m => exact congrArg (Value.child ∘ some) (h m (List.mem_singleton_self m))
  | children cs =>
    refine congrArg Value.children ((List.map_congr_left fun c hc => ?_).trans (List.map_id cs))
    cases c with
    | none => rfl
    | some m => exact congrArg some (h m (by simpa [Value.nodes] using hc))

/-- **A tree without expressions and statements stays as it is.** -/
theorem reconstruct_eq_self {n : Node} (h : n.hasDynamic = false) : n.reconstruct convert = n := by
  induction n using Node.induction with
  | step n ih =>
    rw [hasDynamic_eq, Bool.or_eq_false_iff, List.any_eq_false] at h
    rw [reconstruct_plain convert (kind_ne_of_not_dynamic h.1)]
    have hfields : Fields.map (reconstruct convert) n.fields = n.fields := by
      refine (List.map_congr_left fun f hf => ?_).trans (List.map_id n.fields)
      have hvalue : f.value.map (reconstruct convert) = f.value := map_value_eq fun m hm => by
        have hpart : m ∈ n.parts := Fields.mem_nodes hf hm
        exact ih m hpart (Bool.not_eq_true _ ▸ h.2 m hpart)
      rw [Field.map, hvalue]
      rfl
    rw [hfields]
    cases n
    rfl

/-- **Overriding the fields that change** replaces all of them, as long as
their names are distinct. -/
theorem override_changed {n : Node} (hnodup : (n.fields.map (·.name)).Nodup)
    {g : Value Node → Value Node} {changed : List (Field Node)}
    (hchanged : changed.Sublist n.fields)
    (hsame : ∀ f ∈ n.fields, f ∈ changed ∨ g f.value = f.value) :
    n.override (changed.map fun f => (f.name, g f.value)) =
      some { n with fields := n.fields.map fun f => ⟨f.name, g f.value⟩ } := by
  have hnames : (changed.map fun f => (f.name, g f.value)).map (·.1) = changed.map (·.name) := by
    rw [List.map_map]
    rfl
  have hlookup : ∀ f ∈ n.fields,
      ((changed.map fun f => (f.name, g f.value)).lookup f.name).getD f.value = g f.value := by
    intro f hf
    cases hv : (changed.map fun f => (f.name, g f.value)).lookup f.name with
    | some v =>
      obtain ⟨before, after, hsplit, -⟩ := List.lookup_eq_some_iff.1 hv
      have hmem : (f.name, v) ∈ changed.map fun f => (f.name, g f.value) := by
        rw [hsplit]
        exact List.mem_append_right _ List.mem_cons_self
      obtain ⟨f', hf', heq⟩ := List.mem_map.1 hmem
      obtain ⟨hname, rfl⟩ := Prod.mk.inj heq
      -- names are distinct, so the change found is the one for this field
      rw [List.inj_on_of_nodup_map hnodup (hchanged.subset hf') hf hname]
      rfl
    | none =>
      refine ((hsame f hf).resolve_left fun hmem => ?_).symm
      have hne := List.lookup_eq_none_iff.1 hv _ (List.mem_map_of_mem hmem)
      simp at hne
  have hover : (changed.map (·.name)).Nodup ∧
      ∀ c ∈ changed.map fun f => (f.name, g f.value), c.1 ∈ n.fields.map (·.name) := by
    refine ⟨(hchanged.map _).nodup hnodup, List.forall_mem_map.2 fun f hf => ?_⟩
    exact List.mem_map_of_mem (hchanged.subset hf)
  have hfields : n.fields.map (fun f => Field.mk f.name
      (((changed.map fun f => (f.name, g f.value)).lookup f.name).getD f.value)) =
        n.fields.map fun f => Field.mk f.name (g f.value) :=
    List.map_congr_left fun f hf => congrArg (Field.mk f.name) (hlookup f hf)
  rw [override, hnames, if_pos hover, hfields]

end Node

end ScriptSplice
