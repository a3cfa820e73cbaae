import ScriptSplice.Proofs.Dispatch.Choice
/-!
# The algebra of composition

Taking over a rule set appends the rules it passes on to a history, and a
history determines its rule set (`Holds.unique`). So the laws of
composition are laws of appending: it is associative, and rules taken over
a second time change no choice, because they win over nothing but
themselves (`Founded.best_append_passedOn`).
-/

namespace ScriptSplice

namespace RuleSet

variable {α : Type} {rules other : RuleSet α} {h k : List (Rule α)} {n : Node} {q : RankedRule α}

/-- **A history determines its rule set.** -/
theorem Holds.unique (hrules : rules.Holds h) (hother : other.Holds h) : rules = other := by
  have hperm : rules.ranked.Perm other.ranked := hrules.perm.trans hother.perm.symm
  have hranked : rules.ranked = other.ranked :=
    hperm.eq_of_pairwise (fun p q _ _ hpq hqp => absurd hpq hqp.asymm) hrules.sorted hother.sorted
  cases rules
  cases other
  exact congrArg RuleSet.mk hranked

/-! ## The rules passed on -/

/-- Of the rules of a rule set that are not built-in, the best for a
node. -/
def IsBestPassedOn (rules : RuleSet α) (n : Node) (q : RankedRule α) : Prop :=
  IsBest (rules.ranked.filter fun p => !p.builtin) n q

theorem Holds.isBestPassedOn_iff (hrules : rules.Holds h) :
    rules.IsBestPassedOn n q ↔ IsBest ((numbered h).filter fun p => !p.builtin) n q := by
  refine isBest_congr fun p => ?_
  rw [List.mem_filter, List.mem_filter, hrules.mem_iff]

theorem map_toRule_filter_numbered (h : List (Rule α)) :
    ((numbered h).filter fun p => !p.builtin).map RankedRule.toRule = passedOn h := by
  conv_rhs => rw [passedOn, ← map_toRule_numbered h, List.filter_map]
  rfl

/-- It is the best of what is passed on of the history. -/
theorem Holds.best_passedOn (hrules : rules.Holds h) (hq : rules.IsBestPassedOn n q) :
    best n (passedOn h) = some q.toRule := by
  have hbest := (hrules.isBestPassedOn_iff.1 hq).best_eq ((pairwise_numbered h).filter _)
  rwa [map_toRule_filter_numbered] at hbest

theorem Holds.exists_isBestPassedOn (hrules : rules.Holds h) {r : Rule α}
    (hr : best n (passedOn h) = some r) : ∃ q, q.toRule = r ∧ rules.IsBestPassedOn n q := by
  rw [← map_toRule_filter_numbered] at hr
  obtain ⟨q, hqr, hq⟩ := exists_isBest_of_best_eq_some ((pairwise_numbered h).filter _) hr
  exact ⟨q, hqr, hrules.isBestPassedOn_iff.2 hq⟩

/-! ## Taking over -/

namespace Reached

/-- **The choice after taking over a rule set** is between the choice
before and the best rule passed on. -/
theorem resolve_extend (hrules : Reached rules h) (hother : Reached other k) (n : Node) :
    ((rules.extend other).resolve n).map RankedRule.toRule =
      Rule.prefer ((rules.resolve n).map RankedRule.toRule) (best n (passedOn k)) := by
  rw [(hrules.extend hother).holds.resolve_toRule, hrules.holds.resolve_toRule, best_append]

/-- A rule passed on wins if it is at least as specific as the choice
before. -/
theorem resolve_extend_of_le (hrules : Reached rules h) (hother : Reached other k)
    (hq : other.IsBestPassedOn n q)
    (hle : ∀ p, rules.resolve n = some p → p.specificity ≤ q.specificity) :
    ((rules.extend other).resolve n).map RankedRule.toRule = some q.toRule := by
  rw [hrules.resolve_extend hother, hother.holds.best_passedOn hq]
  cases hp : rules.resolve n with
  | none => rfl
  | some p => rw [Option.map_some, Rule.prefer, if_pos (hle p hp)]

/-- Otherwise the choice stays. -/
theorem resolve_extend_of_lt (hrules : Reached rules h) (hother : Reached other k)
    (hlt : ∀ q, other.IsBestPassedOn n q →
      ∃ p, rules.resolve n = some p ∧ q.specificity < p.specificity) :
    ((rules.extend other).resolve n).map RankedRule.toRule =
      (rules.resolve n).map RankedRule.toRule := by
  rw [hrules.resolve_extend hother]
  cases hr : best n (passedOn k) with
  | none => rw [Rule.prefer_none_right]
  | some r =>
    obtain ⟨q, rfl, hq⟩ := hother.holds.exists_isBestPassedOn hr
    obtain ⟨p, hp, hqp⟩ := hlt q hq
    rw [hp, Option.map_some, Rule.prefer, if_neg (not_le.2 hqp)]

/-- **Rules that are not chosen change nothing**: if the choice afterwards
was there before, it is the choice before. -/
theorem resolve_extend_of_mem (hrules : Reached rules h) (hother : Reached other k)
    (hmem : ∀ q, (rules.extend other).resolve n = some q → q ∈ rules.ranked) :
    (rules.extend other).resolve n = rules.resolve n := by
  have hextended := (hrules.extend hother).holds
  cases hq : (rules.extend other).resolve n with
  | none =>
    have hnone := hextended.resolve_eq_none_iff.1 hq
    refine (hrules.holds.resolve_eq_none_iff.2 fun r hr => ?_).symm
    exact hnone r (List.mem_append_left _ hr)
  | some q =>
    have hbest := hextended.resolve_eq_some_iff.1 hq
    have hqh : q ∈ numbered h := hrules.holds.mem_iff.1 (hmem q hq)
    refine (hrules.holds.resolve_eq_some_iff.2 ⟨hqh, hbest.applies, fun p hp hpn => ?_⟩).symm
    exact hbest.rank_le p (mem_numbered_append hp _) hpn

/-- **Built-in rules are not passed on.** -/
theorem builtin_extend (hrules : Reached rules h) (hother : Reached other k) :
    (rules.extend other).history.filter (·.builtin) = rules.history.filter (·.builtin) := by
  have hnone : (passedOn k).filter (·.builtin) = [] := by
    refine List.filter_eq_nil_iff.2 fun r hr => ?_
    simpa using (List.mem_filter.1 hr).2
  rw [(hrules.extend hother).holds.history_eq, hrules.holds.history_eq, List.filter_append, hnone,
    List.append_nil]

/-- **Composition is associative.** -/
theorem extend_extend {third : RuleSet α} {l : List (Rule α)} (hrules : Reached rules h)
    (hother : Reached other k) (hthird : Reached third l) :
    (rules.extend other).extend third = rules.extend (other.extend third) := by
  have hleft := ((hrules.extend hother).extend hthird).holds
  have hright := (hrules.extend (hother.extend hthird)).holds
  rw [passedOn_append, passedOn_passedOn, ← List.append_assoc] at hright
  exact hleft.unique hright

end Reached

/-- Several rule sets are taken over one after another. -/
theorem extendAll_append (rules : RuleSet α) (others more : List (Option (RuleSet α))) :
    rules.extendAll (others ++ more) = (rules.extendAll others).extendAll more :=
  List.foldl_append

/-! ## Taking over again -/

/-- **Rules taken over a second time change no choice.** -/
theorem Founded.best_append_passedOn (hh : Founded h) (n : Node) :
    best n (h ++ passedOn h) = best n h := by
  obtain ⟨action, hh⟩ := hh
  have hsplit : best n h =
      Rule.prefer (best n (action.map Rule.passing).toList) (best n (passedOn h)) := by
    conv_lhs => rw [hh, best_append]
  rw [best_append, hsplit, Rule.prefer_assoc, Rule.prefer_self]

/-- A rule set that took over its own rules any number of times is still
one there can be, and its history makes the same choices. -/
theorem Reached.iterate_extend_self (hrules : Reached rules h) (m : ℕ) :
    ∃ k, Reached ((fun rules => rules.extend rules)^[m] rules) k ∧ ∀ n, best n k = best n h := by
  induction m with
  | zero => exact ⟨h, hrules, fun _ => rfl⟩
  | succ m ih =>
    obtain ⟨k, hk, hbest⟩ := ih
    refine ⟨k ++ passedOn k, ?_, fun n => ?_⟩
    · rw [Function.iterate_succ_apply']
      exact hk.extend hk
    · rw [hk.founded.best_append_passedOn, hbest]

/-- **Taking over its own rules** changes no choice of a rule set. -/
theorem Reached.resolve_iterate_extend_self (hrules : Reached rules h) (m : ℕ) (n : Node) :
    (((fun rules => rules.extend rules)^[m] rules).resolve n).map RankedRule.toRule =
      (rules.resolve n).map RankedRule.toRule := by
  obtain ⟨k, hk, hbest⟩ := hrules.iterate_extend_self m
  rw [hk.holds.resolve_toRule, hrules.holds.resolve_toRule, hbest]

/-- **The algebra of composition.** Of the choice before and the best rule
passed on, the more specific wins, and the one passed on wins over equals;
built-in rules are never passed on; several rule sets are taken over one
after another; composition is associative; and a rule set that takes over
its own rules makes the same choices as before. -/
theorem extend_algebra {first second third : RuleSet α} {h₁ h₂ h₃ : List (Rule α)}
    (hfirst : Reached first h₁) (hsecond : Reached second h₂) (hthird : Reached third h₃) :
    (∀ n r, third.IsBestPassedOn n r →
      (∀ v, second.resolve n = some v → v.specificity ≤ r.specificity) →
      ((second.extend third).resolve n).map RankedRule.toRule = some r.toRule) ∧
    (∀ n, (∀ r, third.IsBestPassedOn n r →
        ∃ v, second.resolve n = some v ∧ r.specificity < v.specificity) →
      ((second.extend third).resolve n).map RankedRule.toRule =
        (second.resolve n).map RankedRule.toRule) ∧
    (second.extend third).history.filter (·.builtin) = second.history.filter (·.builtin) ∧
    (∀ a b, first.extendAll [a, b] = (first.extendAll [a]).extendAll [b]) ∧
    (first.extendAll [some second, some third] = (first.extend second).extend third) ∧
    (∀ n, ((first.extend second).extend third).resolve n =
      (first.extend (second.extend third)).resolve n) ∧
    ∀ m n, (((fun rules => rules.extend rules)^[m] second).resolve n).map RankedRule.toRule =
      (second.resolve n).map RankedRule.toRule := by
  refine ⟨fun n r => hsecond.resolve_extend_of_le hthird,
    fun n => hsecond.resolve_extend_of_lt hthird, hsecond.builtin_extend hthird,
    fun a b => extendAll_append first [a] [b], rfl, fun n => ?_,
    hsecond.resolve_iterate_extend_self⟩
  rw [hfirst.extend_extend hsecond hthird]

/-- A rule for words. -/
private def forWords (action : ℕ) : Rule ℕ := ⟨some .word, [], action, [], false⟩

/-- The algebra for two rule sets with a built-in rule and a rule for words:
the second rule for words wins, and the first built-in rule stays. -/
theorem extend_words :
    let rules := (RuleSet.empty.add (.passing 0)).add (forWords 1)
    let other := (RuleSet.empty.add (.passing 2)).add (forWords 3)
    let word : Node := ⟨.word, [], .unknown⟩
    let number : Node := ⟨.number, [], .unknown⟩
    Reached rules [.passing 0, forWords 1] ∧ Reached other [.passing 2, forWords 3] ∧
      ((rules.extend other).resolve word).map RankedRule.toRule = some (forWords 3) ∧
      ((rules.extend other).resolve number).map RankedRule.toRule = some (.passing 0) := by
  intro rules other word number
  have hrules : Reached rules [.passing 0, forWords 1] := .add (.passing 0) rfl
  have hother : Reached other [.passing 2, forWords 3] := .add (.passing 2) rfl
  have hsorted : (other.ranked.filter fun p => !p.builtin).Pairwise fun p q => q.rank < p.rank :=
    hother.holds.sorted.filter _
  obtain ⟨hwins, hstays, -⟩ := extend_algebra Reached.empty hrules hother
  refine ⟨hrules, hother, hwins word ⟨forWords 3, 2⟩ ?_ ?_, hstays number ?_⟩
  · exact (find?_eq_some_iff_isBest hsorted).1 rfl
  · intro v hv
    obtain rfl : ⟨forWords 1, 2⟩ = v := Option.some.inj hv
    exact le_rfl
  · intro r hr
    cases (find?_eq_some_iff_isBest hsorted).2 hr

end RuleSet

end ScriptSplice
