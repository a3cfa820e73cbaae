import Mathlib.Data.List.Find
import ScriptSplice.Proofs.Dispatch.History
/-!
# The choice of a rule

The rule a rule set resolves a node to is the best one of its history that
applies (`Holds.resolve_eq_some_iff`), and there is none if no rule applies
(`Holds.resolve_eq_none_iff`). `best` finds that rule by going through the
history once, and forgets the numbers; so what rule sets with different
numbers resolve to can be compared, and the history of one can be split
(`best_append`).
-/

namespace ScriptSplice

variable {α : Type} {n : Node}

/-! ## The best of a list -/

/-- Of the rules in a list that apply to a node, the one of highest rank. -/
structure IsBest (l : List (RankedRule α)) (n : Node) (q : RankedRule α) : Prop where
  mem : q ∈ l
  applies : q.applies n = true
  rank_le : ∀ p ∈ l, p.applies n = true → p.rank ≤ q.rank

theorem isBest_congr {l l' : List (RankedRule α)} (hmem : ∀ p, p ∈ l ↔ p ∈ l')
    {q : RankedRule α} : IsBest l n q ↔ IsBest l' n q := by
  constructor
  · rintro ⟨hq, happlies, hle⟩
    exact ⟨(hmem q).1 hq, happlies, fun p hp => hle p ((hmem p).2 hp)⟩
  · rintro ⟨hq, happlies, hle⟩
    exact ⟨(hmem q).2 hq, happlies, fun p hp => hle p ((hmem p).1 hp)⟩

/-- The first rule of a list is the best if it applies and is of the
highest rank. -/
theorem isBest_cons_self {p : RankedRule α} {l : List (RankedRule α)}
    (happlies : p.applies n = true) (hle : ∀ q ∈ l, q.applies n = true → q.rank ≤ p.rank) :
    IsBest (p :: l) n p := by
  refine ⟨List.mem_cons_self, happlies, fun q hq hqn => ?_⟩
  rcases List.mem_cons.1 hq with rfl | hq
  · exact le_rfl
  · exact hle q hq hqn

/-- The best of the rest is the best unless the first rule is better. -/
theorem IsBest.cons {p q : RankedRule α} {l : List (RankedRule α)} (hq : IsBest l n q)
    (hle : p.applies n = true → p.rank ≤ q.rank) : IsBest (p :: l) n q := by
  refine ⟨List.mem_cons_of_mem _ hq.mem, hq.applies, fun r hr hrn => ?_⟩
  rcases List.mem_cons.1 hr with rfl | hr
  · exact hle hrn
  · exact hq.rank_le r hr hrn

/-- A rule that does not apply does not count. -/
theorem isBest_cons_of_not_applies {p q : RankedRule α} {l : List (RankedRule α)}
    (hp : ¬ p.applies n = true) : IsBest (p :: l) n q ↔ IsBest l n q := by
  constructor
  · rintro ⟨hq, happlies, hle⟩
    refine ⟨?_, happlies, fun r hr => hle r (List.mem_cons_of_mem _ hr)⟩
    rcases List.mem_cons.1 hq with rfl | hq
    · exact absurd happlies hp
    · exact hq
  · exact fun hq => hq.cons fun happlies => absurd happlies hp

/-- **In the order of rank the first rule that applies is the best.** -/
theorem find?_eq_some_iff_isBest {l : List (RankedRule α)} {q : RankedRule α}
    (hl : l.Pairwise fun p q => q.rank < p.rank) :
    l.find? (fun p => p.applies n) = some q ↔ IsBest l n q := by
  induction l with
  | nil =>
    have hnone : ¬ IsBest [] n q := fun hq => List.not_mem_nil hq.mem
    simpa using hnone
  | cons p l ih =>
    obtain ⟨hp, hl⟩ := List.pairwise_cons.1 hl
    by_cases happlies : p.applies n = true
    · have hfind : (p :: l).find? (fun p => p.applies n) = some p :=
        List.find?_cons_of_pos happlies
      rw [hfind, Option.some.injEq]
      constructor
      · rintro rfl
        exact isBest_cons_self happlies fun q hq _ => (hp q hq).le
      · intro hq
        have hle := hq.rank_le p List.mem_cons_self happlies
        rcases List.mem_cons.1 hq.mem with rfl | hmem
        · rfl
        · exact absurd (hp q hmem) (not_lt.2 hle)
    · have hfind : (p :: l).find? (fun p => p.applies n) = l.find? fun p => p.applies n :=
        List.find?_cons_of_neg happlies
      rw [hfind, ih hl, isBest_cons_of_not_applies happlies]

/-! ## The best of a history -/

namespace Rule

/-- The choice between an earlier rule and a later one, if there are such.
The later one has to be at least as specific. -/
def prefer : Option (Rule α) → Option (Rule α) → Option (Rule α)
  | none, later => later
  | some r, none => some r
  | some r, some s => if r.specificity ≤ s.specificity then some s else some r

variable (r s t : Option (Rule α))

@[simp] theorem prefer_none_left : prefer none s = s := rfl

@[simp] theorem prefer_none_right : prefer r none = r := by cases r <;> rfl

@[simp] theorem prefer_self : prefer r r = r := by
  cases r with
  | none => rfl
  | some r => rw [prefer, if_pos le_rfl]

/-- Whether the first two or the last two are compared first makes no
difference. -/
theorem prefer_assoc : prefer (prefer r s) t = prefer r (prefer s t) := by
  cases r with
  | none => rfl
  | some r => ?_
  cases s with
  | none => rw [prefer_none_right, prefer_none_left]
  | some s => ?_
  cases t with
  | none => rw [prefer_none_right, prefer_none_right]
  | some t => ?_
  by_cases hrs : r.specificity ≤ s.specificity <;> by_cases hst : s.specificity ≤ t.specificity
  · simp [prefer, hrs, hst, hrs.trans hst]
  · simp [prefer, hrs, hst]
  · simp [prefer, hrs, hst]
  · have hrt : ¬ r.specificity ≤ t.specificity :=
      not_le.2 ((not_le.1 hst).trans (not_le.1 hrs))
    simp [prefer, hrs, hst, hrt]

/-- A rule that applies is for any kind or for the kind of the node. -/
theorem kind_of_applies {r : Rule α} (hr : r.applies n = true) :
    r.kind = none ∨ r.kind = some n.kind := by
  have hkind : (r.kind.all fun k => k == n.kind) = true := (Bool.and_eq_true_iff.1 hr).1
  cases hr : r.kind with
  | none => exact .inl rfl
  | some k =>
    rw [hr, Option.all_some, beq_iff_eq] at hkind
    exact .inr (congrArg some hkind)

/-- A rule, if it applies to a node. -/
def onNode (n : Node) (r : Rule α) : Option (Rule α) := if r.applies n then some r else none

end Rule

/-- The best rule of a history for a node. -/
def best (n : Node) : List (Rule α) → Option (Rule α)
  | [] => none
  | r :: h => Rule.prefer (r.onNode n) (best n h)

theorem best_append (n : Node) (h k : List (Rule α)) :
    best n (h ++ k) = Rule.prefer (best n h) (best n k) := by
  induction h with
  | nil => rfl
  | cons r h ih => rw [List.cons_append, best, best, ih, Rule.prefer_assoc]

/-- The choice does not depend on what the rules do. -/
theorem best_map {β : Type} (f : Rule α → Rule β)
    (happlies : ∀ r, (f r).applies n = r.applies n)
    (hspecificity : ∀ r, (f r).specificity = r.specificity) (h : List (Rule α)) :
    best n (h.map f) = (best n h).map f := by
  induction h with
  | nil => rfl
  | cons r h ih =>
    rw [List.map_cons, best, best, ih, Rule.onNode, Rule.onNode, happlies]
    cases r.applies n with
    | false => rfl
    | true =>
      cases best n h with
      | none => rfl
      | some s =>
        simp only [if_true, Option.map_some, Rule.prefer, hspecificity]
        split <;> rfl

theorem best_eq_none_iff {h : List (Rule α)} :
    best n h = none ↔ ∀ r ∈ h, ¬ r.applies n = true := by
  induction h with
  | nil => simp [best]
  | cons r h ih =>
    rw [List.forall_mem_cons, ← ih, best, Rule.onNode]
    by_cases hr : r.applies n = true
    · rw [if_pos hr]
      cases best n h with
      | none => simp [hr, Rule.prefer]
      | some s => simp [hr, Rule.prefer, ite_eq_iff]
    · simp [hr]

/-- **What `best` finds is the best**, where numbers grow along the list. -/
theorem exists_isBest_of_best_eq_some {l : List (RankedRule α)} {r : Rule α}
    (hl : l.Pairwise fun p q => p.number < q.number)
    (hr : best n (l.map RankedRule.toRule) = some r) : ∃ q, q.toRule = r ∧ IsBest l n q := by
  induction l generalizing r with
  | nil => cases hr
  | cons p l ih =>
    obtain ⟨hp, hl⟩ := List.pairwise_cons.1 hl
    rw [List.map_cons, best, Rule.onNode] at hr
    by_cases happlies : p.applies n = true
    · rw [if_pos happlies] at hr
      cases hrest : best n (l.map RankedRule.toRule) with
      | none =>
        rw [hrest, Rule.prefer_none_right] at hr
        refine ⟨p, Option.some.inj hr, isBest_cons_self happlies fun q hq hqn => ?_⟩
        exact absurd hqn (best_eq_none_iff.1 hrest _ (List.mem_map_of_mem hq))
      | some s =>
        obtain ⟨q, rfl, hq⟩ := ih hl hrest
        rw [hrest, Rule.prefer] at hr
        split at hr
        · -- the best of the rest is at least as specific, and later
          rename_i hle
          have hpq : p.rank ≤ q.rank :=
            RankedRule.rank_le_iff.2 (hle.lt_or_eq.imp_right fun heq => ⟨heq, (hp q hq.mem).le⟩)
          exact ⟨q, Option.some.inj hr, hq.cons fun _ => hpq⟩
        · rename_i hlt
          have hqp : q.rank ≤ p.rank := RankedRule.rank_le_iff.2 (.inl (not_le.1 hlt))
          refine ⟨p, Option.some.inj hr, isBest_cons_self happlies fun u hu hun => ?_⟩
          exact (hq.rank_le u hu hun).trans hqp
    · rw [if_neg happlies, Rule.prefer_none_left] at hr
      obtain ⟨q, rfl, hq⟩ := ih hl hr
      exact ⟨q, rfl, (isBest_cons_of_not_applies happlies).2 hq⟩

/-- And the only one. -/
theorem IsBest.best_eq {l : List (RankedRule α)} {q : RankedRule α}
    (hl : l.Pairwise fun p q => p.number < q.number) (hq : IsBest l n q) :
    best n (l.map RankedRule.toRule) = some q.toRule := by
  cases hr : best n (l.map RankedRule.toRule) with
  | none => exact absurd hq.applies (best_eq_none_iff.1 hr _ (List.mem_map_of_mem hq.mem))
  | some r =>
    obtain ⟨p, rfl, hp⟩ := exists_isBest_of_best_eq_some hl hr
    have hrank : p.rank = q.rank :=
      le_antisymm (hq.rank_le p hp.mem hp.applies) (hp.rank_le q hq.mem hq.applies)
    have hnodup : (l.map fun u => u.number).Nodup := List.pairwise_map.2 (hl.imp ne_of_lt)
    have hpq : p = q := List.inj_on_of_nodup_map hnodup hp.mem hq.mem
      (RankedRule.number_eq_of_rank_eq hrank)
    rw [hpq]

namespace RuleSet

variable {rules other : RuleSet α} {h k : List (Rule α)} {q : RankedRule α}

/-! ## Resolution -/

theorem mem_of_resolve (hq : rules.resolve n = some q) : q ∈ rules.ranked :=
  List.mem_of_find?_eq_some hq

theorem applies_of_resolve (hq : rules.resolve n = some q) : q.applies n = true :=
  List.find?_some (p := fun p : RankedRule α => p.applies n) hq

/-- Where what two rule sets choose for a node is alike, neither has a rule
for it, or both do. -/
theorem resolve_cases {β γ : Type} {rules' : RuleSet β} {f : RankedRule α → γ}
    {g : RankedRule β → γ} (h : (rules'.resolve n).map g = (rules.resolve n).map f) :
    (rules.resolve n = none ∧ rules'.resolve n = none) ∨
      ∃ r r', rules.resolve n = some r ∧ rules'.resolve n = some r' ∧ g r' = f r := by
  cases hr : rules.resolve n with
  | none =>
    rw [hr, Option.map_none, Option.map_eq_none_iff] at h
    exact .inl ⟨rfl, h⟩
  | some r =>
    rw [hr, Option.map_some, Option.map_eq_some_iff] at h
    obtain ⟨r', hr', heq⟩ := h
    exact .inr ⟨r, r', rfl, hr', heq⟩

namespace Holds

/-- **Resolution finds the best rule of the history.** -/
theorem resolve_eq_some_iff (hrules : rules.Holds h) :
    rules.resolve n = some q ↔ IsBest (numbered h) n q := by
  rw [resolve, find?_eq_some_iff_isBest hrules.sorted]
  exact isBest_congr fun p => hrules.mem_iff

/-- **There is none if no rule of the history applies.** -/
theorem resolve_eq_none_iff (hrules : rules.Holds h) :
    rules.resolve n = none ↔ ∀ r ∈ h, ¬ r.applies n = true := by
  rw [resolve, List.find?_eq_none, ← map_toRule_numbered h, List.forall_mem_map]
  exact forall_congr' fun p => by rw [hrules.mem_iff]

/-- **Without the numbers** it is the best rule of the history. -/
theorem resolve_toRule (hrules : rules.Holds h) (n : Node) :
    (rules.resolve n).map RankedRule.toRule = best n h := by
  cases hq : rules.resolve n with
  | none =>
    have hnone := best_eq_none_iff.2 (hrules.resolve_eq_none_iff.1 hq)
    rw [hnone, Option.map_none]
  | some q =>
    have hbest := (hrules.resolve_eq_some_iff.1 hq).best_eq (pairwise_numbered h)
    rw [map_toRule_numbered] at hbest
    rw [hbest, Option.map_some]

end Holds

/-! ## Buckets -/

/-- The rules for one kind, or those for any kind, in the order of rank. -/
def bucket (rules : RuleSet α) (kind : Option Kind) : List (RankedRule α) :=
  rules.ranked.filter fun q => q.kind == kind

theorem mem_bucket {kind : Option Kind} :
    q ∈ rules.bucket kind ↔ q ∈ rules.ranked ∧ q.kind = kind := by
  rw [bucket, List.mem_filter, beq_iff_eq]

namespace Holds

theorem pairwise_bucket (hrules : rules.Holds h) (kind : Option Kind) :
    (rules.bucket kind).Pairwise fun p q => q.rank < p.rank := hrules.sorted.filter _

/-- **A bucket is strictly sorted**: more constraints first, and then
later rules first. -/
theorem bucket_sorted (hrules : rules.Holds h) (kind : Option Kind) :
    (rules.bucket kind).Pairwise fun p q => q.constraints.length < p.constraints.length ∨
      q.constraints.length = p.constraints.length ∧ q.number < p.number := by
  refine (hrules.pairwise_bucket kind).imp_of_mem fun {p q} hp hq hlt => ?_
  have hkind : q.kind.isSome = p.kind.isSome := by rw [(mem_bucket.1 hp).2, (mem_bucket.1 hq).2]
  rcases RankedRule.rank_lt_iff.1 hlt with hlt | ⟨heq, hnumber⟩
  · rcases Rule.specificity_lt_iff.1 hlt with ⟨hnone, hsome⟩ | ⟨-, hconstraints⟩
    · rw [← hkind, hnone] at hsome
      cases hsome
    · exact .inl hconstraints
  · have hconstraints : q.constraints.length = p.constraints.length :=
      congrArg (fun x => (ofLex x).2) heq
    exact .inr ⟨hconstraints, hnumber⟩

/-- **Resolution searches two buckets**, the one for the kind of the node
first. -/
theorem resolve_eq_buckets (hrules : rules.Holds h) (n : Node) :
    rules.resolve n = ((rules.bucket (some n.kind)).find? fun q => q.applies n).or
      ((rules.bucket none).find? fun q => q.applies n) := by
  cases hexact : (rules.bucket (some n.kind)).find? fun q => q.applies n with
  | some q =>
    have hq := (find?_eq_some_iff_isBest (hrules.pairwise_bucket _)).1 hexact
    obtain ⟨hmem, hkind⟩ := mem_bucket.1 hq.mem
    refine (find?_eq_some_iff_isBest hrules.sorted).2 ⟨hmem, hq.applies, fun p hp hpn => ?_⟩
    rcases Rule.kind_of_applies hpn with hnone | hsome
    · have hlt : p.specificity < q.specificity :=
        Rule.specificity_lt_iff.2 (.inl ⟨by rw [hnone]; rfl, by rw [hkind]; rfl⟩)
      exact RankedRule.rank_le_iff.2 (.inl hlt)
    · exact hq.rank_le p (mem_bucket.2 ⟨hp, hsome⟩) hpn
  | none =>
    rw [Option.none_or, bucket, List.find?_filter, resolve]
    refine List.find?_congr fun p hp => ?_
    by_cases hpn : p.applies n = true
    · have hnone : p.kind = none := by
        refine (Rule.kind_of_applies hpn).resolve_right fun hsome => ?_
        exact List.find?_eq_none.1 hexact p (mem_bucket.2 ⟨hp, hsome⟩) hpn
      simp [hpn, hnone]
    · simp [hpn]

end Holds

end RuleSet

end ScriptSplice
