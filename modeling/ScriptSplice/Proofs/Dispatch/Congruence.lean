import ScriptSplice.Proofs.Tree.Rereading
/-!
# Equal trees are dispatched alike

Equality of trees is an equivalence on trees without NaN, with places
compared or not. Symmetry and transitivity hold of all trees, since
likeness inherits them from equality of leaves, however integers and
floating point numbers are mixed; only a NaN is not equal to itself.
A rule reads a node's kind and the first leaf under a name. Both are the
same in equal trees up to equality of leaves, so equal trees resolve to
one rule in every rule set (`same_congruence`).

Trees share nodes in memory, and a comparison that meets one node on both
sides is done with it at once. `Node.Judged` allows for this at any node:
what comes out is the same, as long as there is no NaN to hide.
-/

namespace ScriptSplice

/-! ## Leaves -/

namespace Leaf

variable {number? : Leaf → Option ExactNumber} {a b c : Leaf}

/-- Whether a leaf is a NaN. -/
def isNaN : Leaf → Bool
  | float x => x.isNaN
  | _ => false

theorem EqualBy.symm (h : a.EqualBy number? b) : b.EqualBy number? a := by
  rcases h with ⟨v, ha, hb⟩ | ⟨hnumeric, rfl⟩
  · exact .inl ⟨v, hb, ha⟩
  · exact .inr ⟨hnumeric, rfl⟩

theorem EqualBy.trans (hab : a.EqualBy number? b) (hbc : b.EqualBy number? c) :
    a.EqualBy number? c := by
  rcases hab with ⟨v, ha, hb⟩ | ⟨hnumeric, rfl⟩
  · rcases hbc with ⟨w, hb', hc⟩ | ⟨-, rfl⟩
    · obtain rfl : v = w := Option.some.inj (hb.symm.trans hb')
      exact .inl ⟨v, ha, hc⟩
    · exact .inl ⟨v, ha, hb⟩
  · exact hbc

/-- Only a NaN is not equal to itself. -/
theorem EqualRounded.refl (h : a.isNaN = false) : a.EqualRounded a := by
  cases a with
  | int i => exact .inl ⟨_, rfl, rfl⟩
  | float x =>
    obtain ⟨v, hv⟩ : ∃ v, x.meaning? = some v := by
      rcases Binary64.cases_of_isNaN h with hfinite | hinfinite
      · exact ⟨_, Binary64.meaning?_of_isFinite hfinite⟩
      · exact ⟨_, Binary64.meaning?_of_isInfinite hinfinite⟩
    exact .inl ⟨v, hv, hv⟩
  | _ => exact .inr ⟨rfl, rfl⟩

end Leaf

/-! ## Likeness -/

section

variable {r s : Leaf → Leaf → Prop} {ν μ ξ : Type} {p : ν → μ → Prop} {q : μ → ξ → Prop}

theorem Value.alike_self {t : ν → ν → Prop} {v : Value ν} :
    v.Alike r t v ↔ (∀ l ∈ v.leaf?, r l l) ∧ ∀ n ∈ v.nodes, t n n := by
  have hid : v.mapLeaf id = v := by cases v <;> rfl
  have h := Value.alike_mapLeaf (r := r) (g := id) (q := t) (v := v)
  rwa [hid] at h

theorem Option.rel_flip {c : Option ν} {d : Option μ} (h : Option.Rel p c d) :
    Option.Rel (flip p) d c := by
  cases h with
  | none => exact .none
  | some h => exact .some h

theorem Value.Alike.flip {v : Value ν} {w : Value μ} (h : v.Alike r p w) :
    w.Alike (flip r) (flip p) v := by
  cases h with
  | leaf h => exact .leaf h
  | child h => exact .child (Option.rel_flip h)
  | children h => exact .children (h.imp fun _ _ => Option.rel_flip).flip

theorem Option.rel_comp {c : Option ν} {d : Option μ} {e : Option ξ} (h : Option.Rel p c d)
    (h' : Option.Rel q d e) : Option.Rel (Relation.Comp p q) c e := by
  cases h with
  | none =>
    cases h'
    exact .none
  | some h =>
    cases h' with
    | some h' => exact .some ⟨_, h, h'⟩

theorem forall₂_comp {R : ν → μ → Prop} {S : μ → ξ → Prop} {xs : List ν} {ys : List μ}
    {zs : List ξ} (h : List.Forall₂ R xs ys) (h' : List.Forall₂ S ys zs) :
    List.Forall₂ (Relation.Comp R S) xs zs := by
  induction h generalizing zs with
  | nil =>
    cases h'
    exact .nil
  | cons hxy _ ih =>
    cases h' with
    | cons hyz h' => exact .cons ⟨_, hxy, hyz⟩ (ih h')

theorem Value.Alike.comp {v : Value ν} {w : Value μ} {u : Value ξ} (h : v.Alike r p w)
    (h' : w.Alike s q u) : v.Alike (Relation.Comp r s) (Relation.Comp p q) u := by
  cases h with
  | leaf h =>
    cases h' with
    | leaf h' => exact .leaf ⟨_, h, h'⟩
  | child h =>
    cases h' with
    | child h' => exact .child (Option.rel_comp h h')
  | children h =>
    cases h' with
    | children h' =>
      refine .children ((forall₂_comp h h').imp ?_)
      rintro c e ⟨d, hcd, hde⟩
      exact Option.rel_comp hcd hde

/-- Fields alike in order have values alike under each name. -/
theorem Fields.value?_alike {fields : Fields ν} {fields' : Fields μ}
    (h : List.Forall₂ (Field.Alike r p) fields fields') (name : Text) :
    Option.Rel (Value.Alike r p) (value? fields name) (value? fields' name) := by
  induction h with
  | nil => exact .none
  | cons hfield _ ih =>
    cases hfield with
    | @mk name' v w hvalue =>
      unfold value? at ih ⊢
      rw [List.find?_cons, List.find?_cons]
      cases name' == name with
      | true => exact .some hvalue
      | false => exact ih

/-- So they have leaves alike under each name, or none. -/
theorem Fields.leaf?_alike {fields : Fields ν} {fields' : Fields μ}
    (h : List.Forall₂ (Field.Alike r p) fields fields') (name : Text) :
    Option.Rel r (leaf? fields name) (leaf? fields' name) := by
  have hvalue := value?_alike h name
  unfold leaf?
  generalize value? fields name = v, value? fields' name = w at hvalue
  cases hvalue with
  | none => exact .none
  | some hvalue =>
    cases hvalue with
    | leaf hleaf => exact .some hleaf
    | child => exact .none
    | children => exact .none

end

namespace Node.Alike

variable {r : Leaf → Leaf → Prop} {located : Bool} {n m k : Node}

theorem refl (h : ∀ l ∈ n.leaves, r l l) : n.Alike r located n := by
  induction n using Node.induction with
  | step n ih =>
    refine alike_iff.2 ⟨rfl, fun _ => rfl, List.forall₂_same.2 fun f hf => ?_⟩
    refine Field.alike_iff.2 ⟨rfl, Value.alike_self.2 ⟨fun l hl => ?_, fun c hc => ?_⟩⟩
    · exact h l (mem_leaves_of_mem_fields hf hl)
    · have hpart : c ∈ n.parts := Fields.mem_nodes hf hc
      exact ih c hpart fun l hl => h l (mem_leaves_of_mem_parts hpart hl)

theorem symm (hr : ∀ a b, r a b → r b a) (h : n.Alike r located m) : m.Alike r located n := by
  induction n using Node.induction generalizing m with
  | step n ih =>
    obtain ⟨hkind, hplace, hfields⟩ := alike_iff.1 h
    refine alike_iff.2 ⟨hkind.symm, fun hl => (hplace hl).symm, List.Forall₂.flip ?_⟩
    refine forall₂_imp hfields fun f hf g _ hfg => Field.alike_iff.2 ?_
    obtain ⟨hname, hvalue⟩ := Field.alike_iff.1 hfg
    refine ⟨hname.symm, hvalue.flip.imp (fun a _ b _ => hr b a) fun d _ c hc => ?_⟩
    exact ih c (Fields.mem_nodes hf hc)

theorem trans (hr : ∀ a b c, r a b → r b c → r a c) (h : n.Alike r located m)
    (h' : m.Alike r located k) : n.Alike r located k := by
  induction n using Node.induction generalizing m k with
  | step n ih =>
    obtain ⟨hkind, hplace, hfields⟩ := alike_iff.1 h
    obtain ⟨hkind', hplace', hfields'⟩ := alike_iff.1 h'
    refine alike_iff.2 ⟨hkind.trans hkind', fun hl => (hplace hl).trans (hplace' hl), ?_⟩
    refine forall₂_imp (forall₂_comp hfields hfields') ?_
    rintro f hf e - ⟨g, hfg, hge⟩
    obtain ⟨hname, hvalue⟩ := Field.alike_iff.1 hfg
    obtain ⟨hname', hvalue'⟩ := Field.alike_iff.1 hge
    refine Field.alike_iff.2 ⟨hname.trans hname', (hvalue.comp hvalue').imp ?_ ?_⟩
    · rintro a - c - ⟨b, hab, hbc⟩
      exact hr a b c hab hbc
    · rintro x hx z - ⟨y, hxy, hyz⟩
      exact ih x (Fields.mem_nodes hf hx) hxy hyz

/-- Places need not count. -/
theorem unlocated (h : n.Alike r located m) : n.Alike r false m := by
  induction n using Node.induction generalizing m with
  | step n ih =>
    obtain ⟨hkind, -, hfields⟩ := alike_iff.1 h
    refine alike_iff.2 ⟨hkind, fun hl => absurd hl Bool.false_ne_true, ?_⟩
    refine forall₂_imp hfields fun f hf g _ hfg => hfg.imp (fun _ _ _ _ hab => hab) ?_
    exact fun c hc d _ => ih c (Fields.mem_nodes hf hc)

/-- Trees alike have leaves alike under each name. -/
theorem leaf? (h : n.Alike r located m) (name : Text) :
    Option.Rel r (n.leaf? name) (m.leaf? name) := Fields.leaf?_alike (alike_iff.1 h).2.2 name

end Node.Alike

/-! ## Dispatch -/

section

variable {n m : Node} {located : Bool}

theorem Constraint.holds_of_alike (h : n.Alike Leaf.EqualRounded located m) (c : Constraint)
    (hn : c.holds n = true) : c.holds m = true := by
  obtain ⟨l, hl, hvalue⟩ := (Constraint.holds_iff c n).1 hn
  have hleaf := h.leaf? c.field
  rw [hl] at hleaf
  cases hm : m.leaf? c.field with
  | none =>
    rw [hm] at hleaf
    cases hleaf
  | some k =>
    rw [hm] at hleaf
    cases hleaf with
    | some hlk => exact (Constraint.holds_iff c m).2 ⟨k, hm, hlk.symm.trans hvalue⟩

/-- **A constraint does not tell equal trees apart.** -/
theorem Constraint.holds_congr (h : n.Alike Leaf.EqualRounded located m) (c : Constraint) :
    c.holds n = c.holds m :=
  Bool.eq_iff_iff.2 ⟨holds_of_alike h c, holds_of_alike (h.symm fun _ _ => Leaf.EqualBy.symm) c⟩

/-- Nor does a rule. -/
theorem Rule.applies_congr {α : Type} (h : n.Alike Leaf.EqualRounded located m) (r : Rule α) :
    r.applies n = r.applies m := by
  have hkind : n.kind = m.kind := (Node.alike_iff.1 h).1
  have hholds : (fun c : Constraint => c.holds n) = fun c => c.holds m :=
    funext (Constraint.holds_congr h)
  rw [applies, applies, hkind, allHold, allHold, hholds]

/-- **Equal trees resolve to the same rule.** -/
theorem RuleSet.resolve_congr {α : Type} (h : n.Alike Leaf.EqualRounded located m)
    (rules : RuleSet α) : rules.resolve n = rules.resolve m := by
  have happlies : (fun r : RankedRule α => r.toRule.applies n) = fun r => r.toRule.applies m :=
    funext fun r => Rule.applies_congr h r.toRule
  rw [resolve, resolve, happlies]

end

/-! ## Shared nodes -/

namespace Node

/-- What a comparison finds at a node, by what it found for the nodes in
its fields. -/
def judge (located : Bool) (n : Node) (fields : Fields (Node → Bool)) (m : Node) : Bool :=
  n.kind == m.kind && (!located || n.location == m.location) &&
    agreeAll (Field.agree fun p c => p c) fields m.fields

/-- **What a comparison can find** where trees share nodes: at a node that
is the same in memory it stops, and at any other one it goes on with the
fields. Each node in a field comes with what is found for it. -/
inductive Judged (located : Bool) : Node → Node → Bool → Prop
  | shared (n : Node) : Judged located n n true
  | compared {n m : Node} (judged : Fields (Node × (Node → Bool))) :
      Fields.map Prod.fst judged = n.fields →
      (∀ j ∈ Fields.nodes judged, ∀ d ∈ m.parts, Judged located j.1 d (j.2 d)) →
      Judged located n m (n.judge located (Fields.map Prod.snd judged) m)

variable {located : Bool} {n m : Node}

theorem same_eq (n m : Node) :
    n.same located m = n.judge located (Fields.map (same located) n.fields) m := by
  rw [same, fold_eq]
  rfl

/-- Only the nodes in the fields of both count. -/
theorem judge_congr {ξ : Type} {f g : ξ → Node → Bool} {fields : Fields ξ}
    (h : ∀ x ∈ Fields.nodes fields, ∀ d ∈ m.parts, f x d = g x d) :
    n.judge located (Fields.map f fields) m = n.judge located (Fields.map g fields) m := by
  have hfield (f : ξ → Node → Bool) (x : Field ξ) (y : Field Node) :
      Field.agree (fun p c => p c) (x.map f) y = Field.agree f x y := by
    rw [Field.agree, Field.agree, Field.name_map, Field.value_map, Value.agree_map]
  have himp {f g : ξ → Node → Bool}
      (h : ∀ x ∈ Fields.nodes fields, ∀ d ∈ m.parts, f x d = true → g x d = true) :
      agreeAll (Field.agree fun p c => p c) (Fields.map f fields) m.fields = true →
        agreeAll (Field.agree fun p c => p c) (Fields.map g fields) m.fields = true := by
    rw [agreeAll_iff, agreeAll_iff, Fields.map, Fields.map, List.forall₂_map_left_iff,
      List.forall₂_map_left_iff]
    simp only [hfield, Field.agree_iff]
    refine fun hfields => forall₂_imp hfields fun x hx y hy hxy => hxy.imp ?_ ?_
    · exact fun _ _ _ _ hab => hab
    · exact fun a ha d hd => h a (Fields.mem_nodes hx ha) d (Fields.mem_nodes hy hd)
  have hfields : agreeAll (Field.agree fun p c => p c) (Fields.map f fields) m.fields =
      agreeAll (Field.agree fun p c => p c) (Fields.map g fields) m.fields := by
    refine Bool.eq_iff_iff.2 ⟨himp fun x hx d hd => ?_, himp fun x hx d hd => ?_⟩
    · rw [h x hx d hd]
      exact id
    · rw [h x hx d hd]
      exact id
  rw [judge, judge, hfields]

/-- **Without sharing**, equality of trees is what is found. -/
theorem judged_same (n m : Node) : n.Judged located m (n.same located m) := by
  induction n using Node.induction generalizing m with
  | step n ih =>
    have hfst : Fields.map Prod.fst (Fields.map (fun c => (c, c.same located)) n.fields) =
        n.fields := by
      rw [Fields.map_map]
      exact (List.map_congr_left fun f _ => Field.map_id f).trans (List.map_id _)
    have hsnd : Fields.map Prod.snd (Fields.map (fun c => (c, c.same located)) n.fields) =
        Fields.map (same located) n.fields := Fields.map_map _ _ _
    rw [same_eq, ← hsnd]
    refine .compared _ hfst fun j hj d _ => ?_
    rw [Fields.nodes_map] at hj
    obtain ⟨c, hc, rfl⟩ := List.mem_map.1 hj
    exact ih c hc d

/-- **Sharing makes no difference** on a tree without NaN. -/
theorem Judged.eq_same {o : Bool} (h : n.Judged located m o)
    (hn : ∀ l ∈ n.leaves, l.isNaN = false) : o = n.same located m := by
  induction h with
  | shared n => exact ((same_iff located n n).2 (.refl fun l hl => .refl (hn l hl))).symm
  | @compared n m judged hfields _ ih =>
    have hparts : ∀ j ∈ Fields.nodes judged, j.1 ∈ n.parts := by
      intro j hj
      rw [parts, ← hfields, Fields.nodes_map]
      exact List.mem_map_of_mem hj
    have hsame : Fields.map (same located) n.fields =
        Fields.map (fun j : Node × (Node → Bool) => j.1.same located) judged := by
      rw [← hfields, Fields.map_map]
      rfl
    rw [same_eq, hsame]
    refine judge_congr fun j hj d hd => ih j hj d hd fun l hl => ?_
    exact hn l (mem_leaves_of_mem_parts (hparts j hj) hl)

end Node

/-- **Equality is a congruence for dispatch.** On trees without NaN, absent
ones included, equality is an equivalence, with places compared or not,
and it is finer if they are compared. Equal nodes resolve to one rule in
every rule set. All this does not depend on which nodes are shared in
memory. -/
theorem same_congruence (located : Bool) (x y z : Option Node)
    (hx : ∀ n ∈ x, ∀ l ∈ n.leaves, l.isNaN = false) :
    Node.sameOption located x x = true ∧
    (Node.sameOption located x y = true → Node.sameOption located y x = true) ∧
    (Node.sameOption located x y = true → Node.sameOption located y z = true →
      Node.sameOption located x z = true) ∧
    (Node.sameOption true x y = true → Node.sameOption false x y = true) ∧
    (∀ n ∈ x, ∀ m ∈ y, Node.sameOption located x y = true →
      ∀ (α : Type) (rules : RuleSet α), rules.resolve n = rules.resolve m) ∧
    (∀ n ∈ x, ∀ m ∈ y, ∀ o, n.Judged located m o ↔ o = n.same located m) := by
  simp only [Node.sameOption_iff]
  refine ⟨?_, ?_, ?_, ?_, ?_, ?_⟩
  · exact Option.rel_self.2 fun n hn => .refl fun l hl => .refl (hx n hn l hl)
  · intro h
    exact Option.rel_imp (Option.rel_flip h) fun m _ n _ hnm =>
      Node.Alike.symm (fun _ _ => Leaf.EqualBy.symm) hnm
  · intro h h'
    refine Option.rel_imp (Option.rel_comp h h') ?_
    rintro n - k - ⟨m, hnm, hmk⟩
    exact Node.Alike.trans (fun _ _ _ => Leaf.EqualBy.trans) hnm hmk
  · exact fun h => Option.rel_imp h fun n _ m _ => Node.Alike.unlocated
  · rintro n rfl m rfl h α rules
    cases h with
    | some h => exact RuleSet.resolve_congr h rules
  · intro n hn m _ o
    constructor
    · exact fun h => h.eq_same (hx n hn)
    · rintro rfl
      exact Node.judged_same n m

/-- One number written in three ways, in nodes with an absent child. -/
theorem same_congruence_mixed :
    let node (l : Leaf) : Node :=
      ⟨.value, [⟨ascii "value", .leaf l⟩, ⟨ascii "note", .child none⟩], .unknown⟩
    let a := node (.int 9007199254740992)
    let b := node (.float ⟨0x4340000000000000⟩)
    let c := node (.int 9007199254740993)
    Node.sameOption false (some a) (some a) = true ∧
      Node.sameOption false (some b) (some a) = true ∧
      Node.sameOption false (some a) (some c) = true ∧
      ∀ (α : Type) (rules : RuleSet α), rules.resolve a = rules.resolve b := by
  intro node a b c
  have ha : ∀ n ∈ some a, ∀ l ∈ n.leaves, l.isNaN = false := by
    rintro n ⟨⟩ l hl
    have hmem : l ∈ [Leaf.int 9007199254740992] := hl
    rw [List.mem_singleton.1 hmem]
    rfl
  have hab : Node.sameOption false (some a) (some b) = true := by decide +kernel
  have hbc : Node.sameOption false (some b) (some c) = true := by decide +kernel
  obtain ⟨hrefl, hsymm, htrans, -, hresolve, -⟩ :=
    same_congruence false (some a) (some b) (some c) ha
  exact ⟨hrefl, hsymm hab, htrans hab hbc, hresolve a rfl b rfl hab⟩

end ScriptSplice
