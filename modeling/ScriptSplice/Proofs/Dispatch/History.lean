import Mathlib.Data.List.Induction
import Mathlib.Data.List.Sort
import Mathlib.Data.Prod.Lex
import ScriptSplice.Dispatch.Rule
/-!
# The history of a rule set

`RuleSet.Reached` says which rule sets there can be, and keeps the rules
that were added to each in a flat list, its history. A rule set holds the
rules of its history, each with its place there as its number, and nothing
else, in the order of rank (`Reached.holds`), and the history can be read
off it again (`Holds.history_eq`).

Rank is an order on three numbers, compared one after another, so the
facts about sorted lists are those of a linear order.
-/

namespace ScriptSplice

variable {α : Type}

/-! ## Rank as an order -/

/-- How specific a rule is: one for a kind comes before one for any kind,
and then the number of constraints decides. -/
def Rule.specificity (r : Rule α) : ℕ ×ₗ ℕ :=
  toLex (if r.kind.isSome then 1 else 0, r.constraints.length)

/-- The rank of a rule: the more specific, and then the later one. -/
def RankedRule.rank (r : RankedRule α) : (ℕ ×ₗ ℕ) ×ₗ ℕ := toLex (r.specificity, r.number)

theorem RankedRule.rank_lt_iff {r s : RankedRule α} :
    r.rank < s.rank ↔ r.specificity < s.specificity ∨
      r.specificity = s.specificity ∧ r.number < s.number := Prod.Lex.toLex_lt_toLex

theorem RankedRule.rank_le_iff {r s : RankedRule α} :
    r.rank ≤ s.rank ↔ r.specificity < s.specificity ∨
      r.specificity = s.specificity ∧ r.number ≤ s.number := Prod.Lex.toLex_le_toLex

theorem RankedRule.number_eq_of_rank_eq {r s : RankedRule α} (h : r.rank = s.rank) :
    r.number = s.number := congrArg (fun x => (ofLex x).2) h

theorem Rule.specificity_lt_iff {r s : Rule α} :
    r.specificity < s.specificity ↔ (r.kind.isSome = false ∧ s.kind.isSome = true) ∨
      r.kind.isSome = s.kind.isSome ∧ r.constraints.length < s.constraints.length := by
  unfold specificity
  rw [Prod.Lex.toLex_lt_toLex]
  cases r.kind <;> cases s.kind <;> simp

/-- **To outrank is to be of higher rank.** -/
theorem RankedRule.outranks_iff {r s : RankedRule α} : r.outranks s = true ↔ s.rank < r.rank := by
  have heq : s.specificity = r.specificity ↔ s.kind.isSome = r.kind.isSome ∧
      s.constraints.length = r.constraints.length := by
    unfold Rule.specificity
    cases s.kind <;> cases r.kind <;> simp
  rw [rank_lt_iff, Rule.specificity_lt_iff, heq, outranks, priority, priority]
  cases r.kind <;> cases s.kind <;> simp <;> grind

/-! ## Histories -/

/-- The rules of a history with their numbers, counted from one. -/
def numbered (h : List (Rule α)) : List (RankedRule α) := h.zipIdx.map fun p => ⟨p.1, p.2 + 1⟩

@[simp] theorem length_numbered (h : List (Rule α)) : (numbered h).length = h.length := by
  simp [numbered]

theorem numbered_concat (h : List (Rule α)) (r : Rule α) :
    numbered (h ++ [r]) = numbered h ++ [⟨r, h.length + 1⟩] := by
  simp [numbered, List.zipIdx_append]

@[simp] theorem map_toRule_numbered (h : List (Rule α)) :
    (numbered h).map RankedRule.toRule = h := by
  rw [numbered, List.map_map]
  exact List.zipIdx_map_fst 0 h

/-- A rule is in a history under the number of its place. -/
theorem mem_numbered {h : List (Rule α)} {q : RankedRule α} :
    q ∈ numbered h ↔ ∃ i, h[i]? = some q.toRule ∧ q.number = i + 1 := by
  simp only [numbered, List.mem_map, Prod.exists, List.mem_zipIdx_iff_getElem?]
  constructor
  · rintro ⟨r, i, hi, rfl⟩
    exact ⟨i, hi, rfl⟩
  · rintro ⟨i, hi, hnumber⟩
    exact ⟨q.toRule, i, hi, by rw [← hnumber]⟩

/-- A rule keeps its number in a longer history. -/
theorem mem_numbered_append {h : List (Rule α)} {q : RankedRule α} (hq : q ∈ numbered h)
    (k : List (Rule α)) : q ∈ numbered (h ++ k) := by
  obtain ⟨i, hi, hnumber⟩ := mem_numbered.1 hq
  refine mem_numbered.2 ⟨i, ?_, hnumber⟩
  rw [List.getElem?_append_left (List.getElem?_eq_some_iff.1 hi).1, hi]

theorem number_le_of_mem_numbered {h : List (Rule α)} {q : RankedRule α} (hq : q ∈ numbered h) :
    q.number ≤ h.length := by
  obtain ⟨i, hi, hnumber⟩ := mem_numbered.1 hq
  have := (List.getElem?_eq_some_iff.1 hi).1
  omega

/-- Two rules of a history under one number are the same. -/
theorem eq_of_mem_numbered {h : List (Rule α)} {p q : RankedRule α} (hp : p ∈ numbered h)
    (hq : q ∈ numbered h) (hnumber : p.number = q.number) : p = q := by
  obtain ⟨i, hi, hpi⟩ := mem_numbered.1 hp
  obtain ⟨j, hj, hqj⟩ := mem_numbered.1 hq
  obtain rfl : i = j := by omega
  have hrule : p.toRule = q.toRule := Option.some.inj (hi.symm.trans hj)
  obtain ⟨r, m⟩ := p
  obtain ⟨s, k⟩ := q
  simp_all

/-- Numbers grow along a history. -/
theorem pairwise_numbered (h : List (Rule α)) :
    (numbered h).Pairwise fun p q => p.number < q.number := by
  induction h using List.reverseRecOn with
  | nil => exact .nil
  | append_singleton h r ih =>
    rw [numbered_concat, List.pairwise_append]
    refine ⟨ih, List.pairwise_singleton _ _, fun p hp q hq => ?_⟩
    obtain rfl := List.mem_singleton.1 hq
    exact Nat.lt_succ_of_le (number_le_of_mem_numbered hp)

/-- What a rule set passes on of its history: all but the built-in rule. -/
def passedOn (h : List (Rule α)) : List (Rule α) := h.filter fun r => !r.builtin

@[simp] theorem passedOn_append (h k : List (Rule α)) :
    passedOn (h ++ k) = passedOn h ++ passedOn k := List.filter_append _ _

@[simp] theorem passedOn_passedOn (h : List (Rule α)) : passedOn (passedOn h) = passedOn h := by
  simp [passedOn]

/-- A history after the rules of others were taken over. None stands for
the history itself, as it is by then. -/
def takeOver (h : List (Rule α)) (others : List (Option (List (Rule α)))) : List (Rule α) :=
  others.foldl (fun h other => h ++ passedOn (other.getD h)) h

/-- The built-in rule of a rule set, which is for every node. -/
def Rule.passing (action : α) : Rule α := ⟨none, [], action, ascii "generic", true⟩

/-- **The rule sets there can be**, each with the rules that were added to
it, in order. One begins empty or with its built-in rule. Rules are added
to it, by the handlers of its rules too, and those of others, several at
once, or its own are taken over. A copy is the same rule set. -/
inductive RuleSet.Reached : RuleSet α → List (Rule α) → Prop
  | empty : Reached .empty []
  | passing (action : α) : Reached (RuleSet.empty.add (.passing action)) [.passing action]
  | add {rules : RuleSet α} {h : List (Rule α)} {r : Rule α} (hrules : Reached rules h)
      (hr : r.builtin = false) : Reached (rules.add r) (h ++ [r])
  | extendAll {rules : RuleSet α} {h : List (Rule α)}
      (others : List (Option (RuleSet α × List (Rule α)))) (hrules : Reached rules h)
      (hothers : ∀ other k, some (other, k) ∈ others → Reached other k) :
      Reached (rules.extendAll (others.map (·.map Prod.fst)))
        (takeOver h (others.map (·.map Prod.snd)))

namespace RuleSet

variable {rules other : RuleSet α} {h k : List (Rule α)}

/-! ## What a rule set holds -/

/-- A rule set holds the rules of a history in the order of rank. -/
structure Holds (rules : RuleSet α) (h : List (Rule α)) : Prop where
  perm : rules.ranked.Perm (numbered h)
  sorted : rules.ranked.Pairwise fun p q => q.rank < p.rank

/-- Insertion by rank, in terms of the order. -/
theorem insertRanked_eq (r : RankedRule α) (l : List (RankedRule α)) :
    insertRanked r l = l.orderedInsert (fun p q => q.rank ≤ p.rank) r := by
  induction l with
  | nil => rfl
  | cons s l ih =>
    rw [insertRanked, List.orderedInsert_cons, ih]
    by_cases hs : s.outranks r = true
    · have hlt := RankedRule.outranks_iff.1 hs
      rw [if_pos hs, if_neg (not_le.2 hlt)]
    · have hle := not_lt.1 (mt RankedRule.outranks_iff.2 hs)
      rw [if_neg hs, if_pos hle]

/-- Insertion by number, in terms of the order. -/
theorem insertNumbered_eq (r : RankedRule α) (l : List (RankedRule α)) :
    insertNumbered r l = l.orderedInsert (fun p q => p.number ≤ q.number) r := by
  induction l with
  | nil => rfl
  | cons s l ih =>
    rw [insertNumbered, List.orderedInsert_cons, ih]
    by_cases hs : s.number < r.number
    · rw [if_pos hs, if_neg (by omega)]
    · rw [if_neg hs, if_pos (by omega)]

/-- The rules by number are those by rank in another order. -/
theorem foldr_insertNumbered (l : List (RankedRule α)) :
    l.foldr insertNumbered [] = l.insertionSort fun p q => p.number ≤ q.number := by
  induction l with
  | nil => rfl
  | cons r l ih => rw [List.foldr_cons, ih, insertNumbered_eq, List.insertionSort_cons]

/-- A rule of a rule set was added to it, or was there before. -/
theorem mem_addAll {rs : List (Rule α)} {q : RankedRule α} (hq : q ∈ (rules.addAll rs).ranked) :
    q ∈ rules.ranked ∨ q.toRule ∈ rs := by
  induction rs generalizing rules with
  | nil => exact .inl hq
  | cons r rs ih =>
    rcases ih hq with hq | hq
    · rw [add, insertRanked_eq, List.mem_orderedInsert] at hq
      rcases hq with rfl | hq
      · exact .inr List.mem_cons_self
      · exact .inl hq
    · exact .inr (List.mem_cons_of_mem _ hq)

theorem mem_history {r : Rule α} : r ∈ rules.history ↔ ∃ q ∈ rules.ranked, q.toRule = r := by
  simp only [history, foldr_insertNumbered, List.mem_map, List.mem_insertionSort]

/-- A rule of a rule set that took over another one was there before, or
is one of the other's. -/
theorem mem_extend {q : RankedRule α} (hq : q ∈ (rules.extend other).ranked) :
    q ∈ rules.ranked ∨ ∃ p ∈ other.ranked, p.toRule = q.toRule :=
  (mem_addAll hq).imp_right fun hq => mem_history.1 (List.mem_filter.1 hq).1

namespace Holds

theorem mem_iff (hrules : rules.Holds h) {q : RankedRule α} :
    q ∈ rules.ranked ↔ q ∈ numbered h := hrules.perm.mem_iff

theorem count_eq (hrules : rules.Holds h) : rules.count = h.length := by
  rw [count, hrules.perm.length_eq, length_numbered]

theorem empty : (RuleSet.empty : RuleSet α).Holds [] := ⟨.refl _, .nil⟩

/-- **Adding a rule** gives it the next number and keeps the order. -/
theorem add (hrules : rules.Holds h) (r : Rule α) : (rules.add r).Holds (h ++ [r]) := by
  have hranked : (rules.add r).ranked =
      rules.ranked.orderedInsert (fun p q => q.rank ≤ p.rank) ⟨r, h.length + 1⟩ := by
    rw [RuleSet.add, hrules.count_eq, insertRanked_eq]
  have hperm : (rules.add r).ranked.Perm (⟨r, h.length + 1⟩ :: rules.ranked) := by
    rw [hranked]
    exact List.perm_orderedInsert _ _ _
  have hfresh : ∀ q ∈ rules.ranked, q.rank ≠ (⟨r, h.length + 1⟩ : RankedRule α).rank := by
    intro q hq heq
    have hle := number_le_of_mem_numbered (hrules.mem_iff.1 hq)
    have hnumber : q.number = h.length + 1 := RankedRule.number_eq_of_rank_eq heq
    omega
  refine ⟨?_, ?_⟩
  · rw [numbered_concat]
    exact (hperm.trans (hrules.perm.cons _)).trans (List.perm_append_singleton _ _).symm
  -- the order is weak after insertion, and strict because no two ranks are equal
  · have hweak : (rules.add r).ranked.Pairwise fun p q => q.rank ≤ p.rank := by
      have : IsTrans (RankedRule α) fun p q => q.rank ≤ p.rank := ⟨fun _ _ _ h h' => h'.trans h⟩
      have : Std.Total fun p q : RankedRule α => q.rank ≤ p.rank := ⟨fun p q => le_total _ _⟩
      rw [hranked]
      exact (hrules.sorted.imp le_of_lt).orderedInsert _ _
    have hne : (rules.add r).ranked.Pairwise fun p q => p.rank ≠ q.rank := by
      refine (hperm.pairwise_iff Ne.symm).2 (List.pairwise_cons.2 ⟨?_, ?_⟩)
      · exact fun q hq => (hfresh q hq).symm
      · exact hrules.sorted.imp fun hlt => hlt.ne'
    exact hweak.imp₂ (fun _ _ hle hne => lt_of_le_of_ne hle hne.symm) hne

theorem addAll (hrules : rules.Holds h) (rs : List (Rule α)) :
    (rules.addAll rs).Holds (h ++ rs) := by
  induction rs generalizing rules h with
  | nil => simpa [RuleSet.addAll] using hrules
  | cons r rs ih =>
    have hrest := ih (hrules.add r)
    rwa [List.append_assoc, List.singleton_append] at hrest

/-- **The history can be read off a rule set.** -/
theorem history_eq (hrules : rules.Holds h) : rules.history = h := by
  have hnumbered : rules.ranked.foldr insertNumbered [] = numbered h := by
    have : IsTrans (RankedRule α) fun p q => p.number ≤ q.number := ⟨fun _ _ _ => le_trans⟩
    have : Std.Total fun p q : RankedRule α => p.number ≤ q.number := ⟨fun p q => le_total _ _⟩
    rw [foldr_insertNumbered]
    have hperm := (List.perm_insertionSort (fun p q => p.number ≤ q.number) rules.ranked).trans
      hrules.perm
    refine hperm.eq_of_pairwise (fun p q hp hq hpq hqp => ?_)
      (List.pairwise_insertionSort _ _) ((pairwise_numbered h).imp le_of_lt)
    exact eq_of_mem_numbered (hperm.mem_iff.1 hp) hq (le_antisymm hpq hqp)
  rw [history, hnumbered, map_toRule_numbered]

end Holds

/-! ## What can be reached -/

/-- At most the first rule of a history is built-in, and it is for every
node. -/
def Founded (h : List (Rule α)) : Prop :=
  ∃ action : Option α, h = (action.map Rule.passing).toList ++ passedOn h

theorem Founded.append (hh : Founded h) (k : List (Rule α)) : Founded (h ++ passedOn k) := by
  obtain ⟨action, hh⟩ := hh
  refine ⟨action, ?_⟩
  rw [passedOn_append, passedOn_passedOn, ← List.append_assoc, ← hh]

/-- So what is passed on is what the rule set transfers. -/
theorem Founded.filter_isTransferable (hh : Founded h) :
    h.filter Rule.isTransferable = passedOn h := by
  obtain ⟨action, hh⟩ := hh
  have hfirst : (action.map Rule.passing).toList.filter Rule.isTransferable = [] := by
    cases action <;> rfl
  have hrest : (passedOn h).filter Rule.isTransferable = passedOn h := by
    refine List.filter_eq_self.2 fun r hr => ?_
    have hbuiltin : r.builtin = false := by simpa using (List.mem_filter.1 hr).2
    rw [Rule.isTransferable, hbuiltin]
    rfl
  calc h.filter Rule.isTransferable
      = ((action.map Rule.passing).toList ++ passedOn h).filter Rule.isTransferable := by rw [← hh]
    _ = passedOn h := by rw [List.filter_append, hfirst, hrest, List.nil_append]

/-- **Taking over a rule set** appends what it passes on to the history. -/
theorem Holds.extend (hrules : rules.Holds h) (hother : other.Holds k) (hk : Founded k) :
    (rules.extend other).Holds (h ++ passedOn k) := by
  rw [RuleSet.extend, hother.history_eq, hk.filter_isTransferable]
  exact hrules.addAll _

/-- Taking over several, one after another. -/
theorem Holds.extendAll (others : List (Option (RuleSet α × List (Rule α))))
    (hrules : rules.Holds h) (hh : Founded h)
    (hothers : ∀ other k, some (other, k) ∈ others → other.Holds k ∧ Founded k) :
    (rules.extendAll (others.map (·.map Prod.fst))).Holds
        (takeOver h (others.map (·.map Prod.snd))) ∧
      Founded (takeOver h (others.map (·.map Prod.snd))) := by
  induction others generalizing rules h with
  | nil => exact ⟨hrules, hh⟩
  | cons other others ih =>
    have hrest := fun other k hmem => hothers other k (List.mem_cons_of_mem _ hmem)
    cases other with
    | none => exact ih (hrules.extend hrules hh) (hh.append h) hrest
    | some p =>
      obtain ⟨hp, hpk⟩ := hothers p.1 p.2 List.mem_cons_self
      exact ih (hrules.extend hp hpk) (hh.append p.2) hrest

namespace Reached

theorem holds_and_founded (hrules : Reached rules h) : rules.Holds h ∧ Founded h := by
  induction hrules with
  | empty => exact ⟨.empty, none, rfl⟩
  | passing action => exact ⟨Holds.empty.add _, some action, rfl⟩
  | @add rules h r _ hr ih =>
    have hlast : passedOn [r] = [r] := by simp [passedOn, hr]
    exact ⟨ih.1.add r, hlast ▸ ih.2.append [r]⟩
  | extendAll others _ _ ih ihothers => exact ih.1.extendAll others ih.2 ihothers

/-- **A rule set holds its history**, in the order of rank. -/
theorem holds (hrules : Reached rules h) : rules.Holds h := hrules.holds_and_founded.1

theorem founded (hrules : Reached rules h) : Founded h := hrules.holds_and_founded.2

/-- Taking over one rule set. -/
theorem extend (hrules : Reached rules h) (hother : Reached other k) :
    Reached (rules.extend other) (h ++ passedOn k) := by
  refine hrules.extendAll [some (other, k)] fun other' k' hmem => ?_
  obtain ⟨rfl, rfl⟩ : other' = other ∧ k' = k := by simpa using hmem
  exact hother

theorem addAll (hrules : Reached rules h) {rs : List (Rule α)}
    (hrs : ∀ r ∈ rs, r.builtin = false) : Reached (rules.addAll rs) (h ++ rs) := by
  induction rs generalizing rules h with
  | nil => simpa [RuleSet.addAll] using hrules
  | cons r rs ih =>
    have hrest := ih (hrules.add (hrs r List.mem_cons_self))
      fun s hs => hrs s (List.mem_cons_of_mem _ hs)
    rwa [List.append_assoc, List.singleton_append] at hrest

end Reached

end RuleSet

end ScriptSplice
