import Mathlib.Data.List.Forall2
import ScriptSplice.Dispatch.Rule
import ScriptSplice.Proofs.Number.Exact
import ScriptSplice.Proofs.Tree.Subtree
import ScriptSplice.Tree.Equal
/-!
# What equality of trees compares

Trees are compared node by node: the same kind, the same fields in order,
values of the same sort, and leaves that are equal (`Node.same_iff`). So
what equality of trees means is decided by equality of leaves, and what a
constraint demands is as well. Exact equality of leaves is equality of
what they stand for as numbers. The program brings integers to the binary
format first, so its equality is exact equality after integers are rounded
to 53 binary digits. It never tells apart what is exactly equal, and it is
exact wherever no integer has more digits than these.
-/

namespace ScriptSplice

/-! ## Leaves -/

namespace Leaf

variable {a b : Leaf}

/-- Whether a leaf is of a type of numbers. -/
def isNumeric : Leaf → Bool
  | int _ | float _ => true
  | _ => false

/-- What a leaf stands for as a number. -/
def meaning? : Leaf → Option ExactNumber
  | int i => some (.finite i.toInt)
  | float x => x.meaning?
  | _ => none

/-- What a leaf stands for as a number when integers are rounded to 53
binary digits. -/
def rounded? : Leaf → Option ExactNumber
  | int i => some (.finite (nearest i.toInt))
  | l => l.meaning?

/-- Equality under a reading of leaves as numbers: numbers that are read
alike, or the same value of a type that is not one of numbers. -/
def EqualBy (number? : Leaf → Option ExactNumber) (a b : Leaf) : Prop :=
  (∃ v, number? a = some v ∧ number? b = some v) ∨ (a.isNumeric = false ∧ a = b)

/-- **Exact equality**: numbers that stand for the same, or the same value
of a type that is not one of numbers. -/
def Equal (a b : Leaf) : Prop := EqualBy meaning? a b

/-- Exact equality after integers are rounded. -/
def EqualRounded (a b : Leaf) : Prop := EqualBy rounded? a b

/-- Whether a leaf is not an integer that rounding changes. -/
def IsShort : Leaf → Prop
  | int i => nearest i.toInt = i.toInt
  | _ => True

theorem isShort_of_le {i : Int64} (h : i.toInt.natAbs ≤ twoTo 53) : (int i).IsShort :=
  nearest_of_le h

theorem rounded?_of_isShort (h : a.IsShort) : a.rounded? = a.meaning? := by
  cases a with
  | int i => exact congrArg (fun j : Int => some (ExactNumber.finite j)) h
  | _ => rfl

/-- What the program compares numbers by. -/
theorem number?_bind_meaning? (a : Leaf) : a.number?.bind Binary64.meaning? = a.rounded? := by
  cases a with
  | int i =>
    have hrange : i.toInt.natAbs < twoTo 64 := by
      have hle := i.le_toInt
      have hlt := i.toInt_lt
      rw [twoTo_64]
      omega
    rw [number?, Option.bind_some, Binary64.meaning?_ofInt hrange, rounded?]
  | _ => rfl

theorem isSome_number? (a : Leaf) : a.number?.isSome = a.isNumeric := by
  cases a <;> rfl

/-- **Sameness of leaves** is exact equality after integers are rounded. -/
theorem same_iff (a b : Leaf) : a.same b = true ↔ a.EqualRounded b := by
  have ha := number?_bind_meaning? a
  have hb := number?_bind_meaning? b
  have hnumeric := isSome_number? a
  rw [EqualRounded, EqualBy, ← ha, ← hb, ← hnumeric]
  unfold same
  split
  · rename_i x y hx hy
    rw [hx, hy, Binary64.sameNumber_iff]
    simp
  · rename_i hnone
    rw [beq_iff_eq]
    cases hx : a.number? with
    | none => simp
    | some x =>
      cases hy : b.number? with
      | none =>
        have hne : a ≠ b := by
          rintro rfl
          rw [hx] at hy
          cases hy
        simp [hne]
      | some y => exact absurd hy (hnone x y hx)

theorem equalRounded_iff_of_isShort (ha : a.IsShort) (hb : b.IsShort) :
    a.EqualRounded b ↔ a.Equal b := by
  rw [EqualRounded, EqualBy, rounded?_of_isShort ha, rounded?_of_isShort hb, Equal, EqualBy]

/-- **What is exactly equal** stays equal when integers are rounded: one
that a number of the format stands for is not changed. -/
theorem Equal.equalRounded (h : a.Equal b) : a.EqualRounded b := by
  rcases h with ⟨v, ha, hb⟩ | ⟨hnumeric, rfl⟩
  · refine .inl ?_
    cases a with
    | int i =>
      cases ha
      cases b with
      | int j =>
        rw [meaning?, Option.some.injEq, ExactNumber.finite.injEq, Rat.intCast_inj] at hb
        exact ⟨_, rfl, by rw [← hb, rounded?]⟩
      | float y =>
        have hnearest : nearest i.toInt = i.toInt := Binary64.nearest_of_meaning? hb
        exact ⟨_, rounded?_of_isShort hnearest, hb⟩
      | _ => cases hb
    | float x =>
      cases b with
      | int j =>
        cases hb
        have hnearest : nearest j.toInt = j.toInt := Binary64.nearest_of_meaning? ha
        exact ⟨_, ha, rounded?_of_isShort hnearest⟩
      | float y => exact ⟨v, ha, hb⟩
      | _ => cases hb
    | _ => cases ha
  · exact .inr ⟨hnumeric, rfl⟩

/-- Integers are exactly equal only to themselves. -/
theorem equal_int_iff {i j : Int64} : (int i).Equal (int j) ↔ i = j := by
  constructor
  · rintro (⟨v, hi, hj⟩ | ⟨hnumeric, -⟩)
    · cases hi
      rw [meaning?, Option.some.injEq, ExactNumber.finite.injEq, Rat.intCast_inj] at hj
      exact Int64.toInt_inj.1 hj.symm
    · cases hnumeric
  · rintro rfl
    exact .inl ⟨_, rfl, rfl⟩

theorem same_iff_of_isShort (ha : a.IsShort) (hb : b.IsShort) : a.same b = true ↔ a.Equal b :=
  (same_iff a b).trans (equalRounded_iff_of_isShort ha hb)

end Leaf

/-! ## Trees -/

variable {ν μ : Type}

/-- **Values alike**, their leaves by one relation and their nodes by
another: two leaves, two optional nodes, or two sequences of them. -/
inductive Value.Alike (r : Leaf → Leaf → Prop) (p : ν → μ → Prop) : Value ν → Value μ → Prop
  | leaf {a b : Leaf} : r a b → Alike r p (.leaf a) (.leaf b)
  | child {c : Option ν} {d : Option μ} : Option.Rel p c d → Alike r p (.child c) (.child d)
  | children {cs : List (Option ν)} {ds : List (Option μ)} :
      List.Forall₂ (Option.Rel p) cs ds → Alike r p (.children cs) (.children ds)

/-- **Fields alike**: one name and values alike. -/
inductive Field.Alike (r : Leaf → Leaf → Prop) (p : ν → μ → Prop) : Field ν → Field μ → Prop
  | mk {name : Text} {v : Value ν} {w : Value μ} : v.Alike r p w → Alike r p ⟨name, v⟩ ⟨name, w⟩

theorem Field.alike_iff {r : Leaf → Leaf → Prop} {p : ν → μ → Prop} {f : Field ν} {g : Field μ} :
    f.Alike r p g ↔ f.name = g.name ∧ f.value.Alike r p g.value := by
  constructor
  · rintro ⟨h⟩
    exact ⟨rfl, h⟩
  · obtain ⟨name, v⟩ := f
    obtain ⟨name', w⟩ := g
    rintro ⟨rfl, h⟩
    exact .mk h

/-- **Trees alike**: one kind, fields alike in order, and one place if
places count. -/
inductive Node.Alike (r : Leaf → Leaf → Prop) (located : Bool) : Node → Node → Prop
  | mk {kind : Kind} {fields fields' : List (Field Node)} {place place' : Location} :
      (located = true → place = place') →
      List.Forall₂ (Field.Alike r (Node.Alike r located)) fields fields' →
      Alike r located ⟨kind, fields, place⟩ ⟨kind, fields', place'⟩

/-! ### What the program checks -/

theorem agreeAll_iff {α β : Type} (p : α → β → Bool) (xs : List α) (ys : List β) :
    agreeAll p xs ys = true ↔ List.Forall₂ (fun x y => p x y = true) xs ys := by
  rw [agreeAll, Bool.and_eq_true, beq_iff_eq, List.all_eq_true, List.forall₂_iff_zip]
  exact and_congr_right fun _ => Prod.forall

theorem agreeOption_iff {α β : Type} (p : α → β → Bool) (x : Option α) (y : Option β) :
    agreeOption p x y = true ↔ Option.Rel (fun x y => p x y = true) x y := by
  cases x <;> cases y <;> simp [agreeOption]

theorem Value.agree_iff (p : ν → μ → Bool) (v : Value ν) (w : Value μ) :
    v.agree p w = true ↔
      v.Alike (fun a b => a.same b = true) (fun n m => p n m = true) w := by
  constructor
  · intro h
    cases v <;> cases w <;> first | exact absurd h Bool.false_ne_true | skip
    case leaf.leaf => exact .leaf h
    case child.child => exact .child ((agreeOption_iff ..).1 h)
    case children.children =>
      exact .children (((agreeAll_iff ..).1 h).imp fun _ _ => (agreeOption_iff ..).1)
  · rintro (h | h | h)
    · exact h
    · exact (agreeOption_iff ..).2 h
    · exact (agreeAll_iff ..).2 (h.imp fun _ _ => (agreeOption_iff ..).2)

theorem Field.agree_iff (p : ν → μ → Bool) (f : Field ν) (g : Field μ) :
    f.agree p g = true ↔
      f.Alike (fun a b => a.same b = true) (fun n m => p n m = true) g := by
  rw [Field.agree, Bool.and_eq_true, beq_iff_eq, Value.agree_iff, Field.alike_iff]

/-! ### Weakening -/

section

variable {r s : Leaf → Leaf → Prop} {p q : ν → μ → Prop}

theorem forall₂_imp {α β : Type} {R S : α → β → Prop} {xs : List α} {ys : List β}
    (h : List.Forall₂ R xs ys) (himp : ∀ x ∈ xs, ∀ y ∈ ys, R x y → S x y) :
    List.Forall₂ S xs ys := by
  induction h with
  | nil => exact .nil
  | cons hxy _ ih =>
    refine .cons (himp _ List.mem_cons_self _ List.mem_cons_self hxy) (ih ?_)
    exact fun x hx y hy => himp x (List.mem_cons_of_mem _ hx) y (List.mem_cons_of_mem _ hy)

theorem Option.rel_imp {c : Option ν} {d : Option μ} (h : Option.Rel p c d)
    (himp : ∀ n ∈ c, ∀ m ∈ d, p n m → q n m) : Option.Rel q c d := by
  cases h with
  | none => exact .none
  | some h => exact .some (himp _ rfl _ rfl h)

theorem Value.Alike.imp {v : Value ν} {w : Value μ} (h : v.Alike r p w)
    (hleaf : ∀ a ∈ v.leaf?, ∀ b ∈ w.leaf?, r a b → s a b)
    (hnode : ∀ n ∈ v.nodes, ∀ m ∈ w.nodes, p n m → q n m) : v.Alike s q w := by
  cases h with
  | leaf h => exact .leaf (hleaf _ rfl _ rfl h)
  | child h =>
    refine .child (Option.rel_imp h fun n hn m hm => hnode n ?_ m ?_)
    · exact Option.mem_toList.2 hn
    · exact Option.mem_toList.2 hm
  | children h =>
    refine .children (forall₂_imp h fun c hc d hd hcd => Option.rel_imp hcd ?_)
    intro n hn m hm
    exact hnode n (List.mem_filterMap.2 ⟨c, hc, hn⟩) m (List.mem_filterMap.2 ⟨d, hd, hm⟩)

theorem Field.Alike.imp {f : Field ν} {g : Field μ} (h : f.Alike r p g)
    (hleaf : ∀ a ∈ f.value.leaf?, ∀ b ∈ g.value.leaf?, r a b → s a b)
    (hnode : ∀ n ∈ f.value.nodes, ∀ m ∈ g.value.nodes, p n m → q n m) : f.Alike s q g := by
  cases h with
  | mk h => exact .mk (h.imp hleaf hnode)

end

namespace Node

variable {r s : Leaf → Leaf → Prop} {located : Bool}

theorem alike_iff {n m : Node} :
    n.Alike r located m ↔ n.kind = m.kind ∧ (located = true → n.location = m.location) ∧
      List.Forall₂ (Field.Alike r (Alike r located)) n.fields m.fields := by
  constructor
  · rintro ⟨hplace, hfields⟩
    exact ⟨rfl, hplace, hfields⟩
  · obtain ⟨kind, fields, place⟩ := n
    obtain ⟨kind', fields', place'⟩ := m
    rintro ⟨rfl, hplace, hfields⟩
    exact .mk hplace hfields

/-- Trees that are alike in one relation of leaves are alike in another
that holds of their leaves whenever the first does. -/
theorem Alike.imp {n m : Node} (h : n.Alike r located m)
    (himp : ∀ a ∈ n.leaves, ∀ b ∈ m.leaves, r a b → s a b) : n.Alike s located m := by
  induction n using Node.induction generalizing m with
  | step n ih =>
    obtain ⟨hkind, hplace, hfields⟩ := alike_iff.1 h
    refine alike_iff.2 ⟨hkind, hplace, forall₂_imp hfields fun f hf g hg hfg => hfg.imp ?_ ?_⟩
    · intro a ha b hb
      exact himp a (mem_leaves_of_mem_fields hf ha) b (mem_leaves_of_mem_fields hg hb)
    · intro c hc d hd hcd
      refine ih c (Fields.mem_nodes hf hc) hcd fun a ha b hb => ?_
      exact himp a (mem_leaves_of_mem_parts (Fields.mem_nodes hf hc) ha) b
        (mem_leaves_of_mem_parts (Fields.mem_nodes hg hd) hb)

end Node

/-! ### Equality of trees -/

theorem Value.agree_map {ξ : Type} (p : ξ → μ → Bool) (f : ν → ξ) (v : Value ν) (w : Value μ) :
    (v.map f).agree p w = v.agree (fun n m => p (f n) m) w := by
  have hoption (c : Option ν) (d : Option μ) :
      agreeOption p (c.map f) d = agreeOption (fun n m => p (f n) m) c d := by
    cases c <;> cases d <;> rfl
  cases v <;> cases w <;> simp [Value.map, Value.agree, agreeAll, List.zip_map_left, hoption,
    Function.comp_def]

namespace Node

/-- **Equality of trees** is likeness under sameness of leaves. -/
theorem same_iff_alike (located : Bool) (n m : Node) :
    n.same located m = true ↔ n.Alike (fun a b => a.same b = true) located m := by
  induction n using Node.induction generalizing m with
  | step n ih =>
    have hfield (f : Field Node) (g : Field Node) :
        Field.agree (fun p c => p c) (f.map (same located)) g =
          Field.agree (same located) f g := by
      rw [Field.agree, Field.agree, Field.name_map, Field.value_map, Value.agree_map]
    have hfields : agreeAll (Field.agree fun p c => p c) (Fields.map (same located) n.fields)
        m.fields = true ↔
        List.Forall₂ (Field.Alike (fun a b => a.same b = true) fun c d => c.same located d = true)
          n.fields m.fields := by
      rw [agreeAll_iff, Fields.map, List.forall₂_map_left_iff]
      simp only [hfield, Field.agree_iff]
    have hplace : (located = false ∨ n.location = m.location) ↔
        (located = true → n.location = m.location) := by
      cases located <;> simp
    rw [same, fold_eq, ← same, alike_iff]
    simp only [Bool.and_eq_true, beq_iff_eq, Bool.or_eq_true, Bool.not_eq_true', hfields, hplace,
      and_assoc]
    refine and_congr_right fun _ => and_congr_right fun _ => ⟨fun h => ?_, fun h => ?_⟩
    · refine forall₂_imp h fun f hf g _ hfg => hfg.imp (fun _ _ _ _ h => h) ?_
      exact fun c hc d _ hcd => (ih c (Fields.mem_nodes hf hc) d).1 hcd
    · refine forall₂_imp h fun f hf g _ hfg => hfg.imp (fun _ _ _ _ h => h) ?_
      exact fun c hc d _ hcd => (ih c (Fields.mem_nodes hf hc) d).2 hcd

theorem alike_congr {n m : Node} {located : Bool} {r s : Leaf → Leaf → Prop}
    (h : ∀ a ∈ n.leaves, ∀ b ∈ m.leaves, r a b ↔ s a b) :
    n.Alike r located m ↔ n.Alike s located m :=
  ⟨fun hr => hr.imp fun a ha b hb => (h a ha b hb).1,
    fun hs => hs.imp fun a ha b hb => (h a ha b hb).2⟩

/-- Equality of trees is likeness, their leaves equal after rounding. -/
theorem same_iff (located : Bool) (n m : Node) :
    n.same located m = true ↔ n.Alike Leaf.EqualRounded located m :=
  (same_iff_alike located n m).trans (alike_congr fun a _ b _ => Leaf.same_iff a b)

end Node

/-- Equality of trees that may be absent. -/
theorem Node.sameOption_iff (located : Bool) (x y : Option Node) :
    Node.sameOption located x y = true ↔
      Option.Rel (Node.Alike Leaf.EqualRounded located) x y := by
  rw [sameOption, agreeOption_iff]
  exact ⟨fun h => Option.rel_imp h fun n _ m _ => (same_iff located n m).1,
    fun h => Option.rel_imp h fun n _ m _ => (same_iff located n m).2⟩

/-- A constraint compares the leaf of its field. -/
theorem Constraint.holds_iff (c : Constraint) (n : Node) :
    c.holds n = true ↔ ∃ l, n.leaf? c.field = some l ∧ l.EqualRounded c.value := by
  simp only [holds, Option.any_eq_true, Leaf.same_iff]

/-- **Equality is exact up to 53 binary digits.** Leaves, trees and what a
constraint demands are compared exactly, but for integers, which are
rounded to 53 binary digits first. So all that is exactly equal is equal,
and where no integer has more digits nothing else is. -/
theorem equality_law (a b : Leaf) (located : Bool) (x y : Option Node) (c : Constraint)
    (n : Node) :
    (a.same b = true ↔ a.EqualRounded b) ∧
    (a.Equal b → a.same b = true) ∧
    (a.IsShort → b.IsShort → (a.same b = true ↔ a.Equal b)) ∧
    (∀ i : Int64, i.toInt.natAbs ≤ twoTo 53 → (Leaf.int i).IsShort) ∧
    (Node.sameOption located x y = true ↔
      Option.Rel (Node.Alike Leaf.EqualRounded located) x y) ∧
    ((∀ k ∈ x, ∀ l ∈ k.leaves, l.IsShort) → (∀ k ∈ y, ∀ l ∈ k.leaves, l.IsShort) →
      (Node.sameOption located x y = true ↔
        Option.Rel (Node.Alike Leaf.Equal located) x y)) ∧
    (c.holds n = true ↔ ∃ l, n.leaf? c.field = some l ∧ l.EqualRounded c.value) ∧
    (c.value.IsShort → (∀ l ∈ n.leaves, l.IsShort) →
      (c.holds n = true ↔ ∃ l, n.leaf? c.field = some l ∧ l.Equal c.value)) := by
  refine ⟨Leaf.same_iff a b, fun h => (Leaf.same_iff a b).2 h.equalRounded,
    Leaf.same_iff_of_isShort, fun i => Leaf.isShort_of_le, Node.sameOption_iff located x y, ?_,
    Constraint.holds_iff c n, ?_⟩
  · intro hx hy
    have hcongr : ∀ k ∈ x, ∀ m ∈ y,
        (k.Alike Leaf.EqualRounded located m ↔ k.Alike Leaf.Equal located m) := fun k hk m hm =>
      Node.alike_congr fun a ha b hb =>
        Leaf.equalRounded_iff_of_isShort (hx k hk a ha) (hy m hm b hb)
    rw [Node.sameOption_iff]
    exact ⟨fun h => Option.rel_imp h fun k hk m hm => (hcongr k hk m hm).1,
      fun h => Option.rel_imp h fun k hk m hm => (hcongr k hk m hm).2⟩
  · intro hc hn
    rw [Constraint.holds_iff]
    refine exists_congr fun l => and_congr_right fun hl => ?_
    exact Leaf.equalRounded_iff_of_isShort (hn l (Node.mem_leaves_of_leaf? hl)) hc

/-- Numbers written as an integer and as a floating point number, alone,
in trees and in a constraint: they are the same and so they are exactly
equal. -/
theorem equality_law_mixed :
    let a : Leaf := .int 9007199254740992
    let b : Leaf := .float ⟨0x4340000000000000⟩
    let m : Node := ⟨.value, [⟨ascii "value", .leaf a⟩], ⟨1, 1⟩⟩
    let n : Node := ⟨.value, [⟨ascii "value", .leaf b⟩], ⟨2, 1⟩⟩
    a.Equal b ∧ Option.Rel (Node.Alike Leaf.Equal false) (some m) (some n) ∧
      ∃ l, m.leaf? (ascii "value") = some l ∧ l.Equal b := by
  intro a b m n
  obtain ⟨-, -, hleaf, hshort, -, htree, -, hconstraint⟩ :=
    equality_law a b false (some m) (some n) ⟨ascii "value", b⟩ m
  have ha : a.IsShort := hshort _ (by decide +kernel)
  have hb : b.IsShort := trivial
  have hm : ∀ k ∈ some m, ∀ l ∈ k.leaves, l.IsShort := by
    rintro k ⟨⟩ l hl
    have hmem : l ∈ [a] := hl
    rwa [List.mem_singleton.1 hmem]
  have hn : ∀ k ∈ some n, ∀ l ∈ k.leaves, l.IsShort := by
    rintro k ⟨⟩ l hl
    have hmem : l ∈ [b] := hl
    rwa [List.mem_singleton.1 hmem]
  refine ⟨(hleaf ha hb).1 (by decide +kernel), (htree hm hn).1 (by decide +kernel), ?_⟩
  exact (hconstraint hb (hm m rfl)).1 (by decide +kernel)

/-- **Beyond, different integers are equal**: alone, in trees, and where a
constraint demands one of them. -/
theorem equality_not_exact :
    let a : Leaf := .int 9007199254740992
    let b : Leaf := .int 9007199254740993
    let m : Node := ⟨.value, [⟨ascii "value", .leaf a⟩], ⟨1, 1⟩⟩
    let n : Node := ⟨.value, [⟨ascii "value", .leaf b⟩], ⟨1, 1⟩⟩
    (a.same b = true ∧ ¬a.Equal b) ∧
      (m.same true n = true ∧ ¬m.Alike Leaf.Equal true n) ∧
      ((Constraint.mk (ascii "value") b).holds m = true ∧
        ∀ l, m.leaf? (ascii "value") = some l → ¬l.Equal b) := by
  intro a b m n
  have hne : ¬a.Equal b := fun h => absurd (Leaf.equal_int_iff.1 h) (by decide)
  refine ⟨⟨by decide +kernel, hne⟩, ⟨by decide +kernel, ?_⟩, ⟨by decide +kernel, ?_⟩⟩
  · intro h
    obtain ⟨-, -, hfields⟩ := Node.alike_iff.1 h
    cases (List.forall₂_cons.1 hfields).1 with
    | mk hvalue =>
      cases hvalue with
      | leaf hleaf => exact hne hleaf
  · rintro l hl
    cases hl
    exact hne

end ScriptSplice
