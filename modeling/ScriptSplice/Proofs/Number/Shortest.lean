import ScriptSplice.Proofs.Number.Nearest
/-!
# The fewest digits

The shortest decimal of a number reads back as the number
(`Binary64.readsBack_shortest`), so the number is the correctly rounded one
for it. One is always found: on the grid of seventeen digits the two
neighbours of a number are closer to each other than its ends are, so the
one or the other is between these.
-/

namespace ScriptSplice

namespace Binary64

variable {x : Binary64}

/-- A number has fewer steps than sixteen digits can count. -/
theorem units_lt_steps (x : Binary64) :
    2 * x.units < tenTo 16 * (twoTo x.scale + x.stepBelow) := by
  have hten : tenTo 16 = 10000000000000000 := rfl
  have hscale := twoTo_pos x.scale
  have hsignificand := x.significand_lt
  rw [stepBelow, hten]
  split
  · rename_i hpower
    have hsucc : twoTo x.scale = 2 * twoTo (x.scale - 1) := by
      rw [← twoTo_succ, Nat.sub_add_cancel]
      rw [scale]
      omega
    have hunits : x.units = twoTo 52 * twoTo x.scale := by
      rw [units, significand, if_neg (by omega), hpower.1, Nat.add_zero]
    rw [hunits, twoTo_52]
    omega
  · have hunits : x.units ≤ (twoTo 53 - 1) * twoTo x.scale :=
      Nat.mul_le_mul_right _ (Nat.le_sub_one_of_lt hsignificand)
    rw [twoTo_53] at hunits
    omega

/-- A decimal that is strictly between the ends reads back. -/
theorem readsBack_of_lt {digits : Nat} {k : Int}
    (hlower : x.lowerEnd * tenTo (-k).toNat < 4 * (digits * (unitsPerOne * tenTo k.toNat)))
    (hupper : 4 * (digits * (unitsPerOne * tenTo k.toNat)) < x.upperEnd * tenTo (-k).toNat) :
    x.readsBack ⟨digits, k⟩ = true := by
  have hfour : digits * tenTo k.toNat * (4 * unitsPerOne) =
      4 * (digits * (unitsPerOne * tenTo k.toNat)) := by
    rw [Nat.mul_left_comm, Nat.mul_assoc digits, Nat.mul_comm unitsPerOne]
  simp only [readsBack, Decimal.notBelow, Decimal.notAbove, Bool.and_eq_true, Bool.or_eq_true,
    Bool.not_eq_true', Bool.or_eq_false_iff, decide_eq_true_eq, decide_eq_false_iff_not, hfour]
  exact ⟨⟨Nat.le_of_lt hlower, Nat.le_of_lt hupper⟩,
      .inr ⟨Nat.not_le.2 hlower, Nat.not_le.2 hupper⟩⟩

/-- What is found on a grid reads back, and is no less than the neighbour
below the number. -/
theorem readsBack_of_shortestOf {count : Nat} {d : Decimal} (h : x.shortestOf count = some d) :
    x.readsBack d = true ∧ x.units * tenTo (-x.lastExponent count).toNat /
      (unitsPerOne * tenTo (x.lastExponent count).toNat) ≤ d.digits := by
  unfold shortestOf inTens at h
  dsimp only at h
  generalize x.units * tenTo (-x.lastExponent count).toNat = num at *
  generalize unitsPerOne * tenTo (x.lastExponent count).toNat = den at *
  split at h
  · rename_i hbelow habove
    obtain rfl := Option.some.inj h
    rcases roundHalfEven_cases num den with ⟨heq, -⟩ | ⟨heq, -⟩
    · rw [heq]
      exact ⟨hbelow, Nat.le_refl _⟩
    · rw [heq]
      exact ⟨habove, Nat.le_succ _⟩
  · rename_i hbelow _
    obtain rfl := Option.some.inj h
    exact ⟨hbelow, Nat.le_refl _⟩
  · rename_i _ habove
    obtain rfl := Option.some.inj h
    exact ⟨habove, Nat.le_succ _⟩
  · cases h

/-- A grid on which nothing is found has neither neighbour of the number. -/
theorem not_readsBack_of_shortestOf {count : Nat} (h : x.shortestOf count = none) :
    x.readsBack ⟨x.units * tenTo (-x.lastExponent count).toNat /
        (unitsPerOne * tenTo (x.lastExponent count).toNat), x.lastExponent count⟩ = false ∧
      x.readsBack ⟨x.units * tenTo (-x.lastExponent count).toNat /
        (unitsPerOne * tenTo (x.lastExponent count).toNat) + 1, x.lastExponent count⟩ = false := by
  unfold shortestOf inTens at h
  dsimp only at h
  generalize x.units * tenTo (-x.lastExponent count).toNat = num at *
  generalize unitsPerOne * tenTo (x.lastExponent count).toNat = den at *
  split at h
  · cases h
  · cases h
  · cases h
  · rename_i hbelow habove
    exact ⟨hbelow, habove⟩

/-- **Seventeen digits suffice.** -/
theorem shortestOf_seventeen (hx : x.units ≠ 0) : x.shortestOf 17 ≠ none := by
  intro hnone
  obtain ⟨hleast, -⟩ := lastExponent_spec hx 16
  obtain ⟨hbelow, habove⟩ := not_readsBack_of_shortestOf hnone
  generalize x.lastExponent 17 = k at *
  have hlowerEnd := x.lowerEnd_mul (tenTo (-k).toNat)
  have hupperEnd := x.upperEnd_mul (tenTo (-k).toNat)
  have hpos : 0 < tenTo (-k).toNat := tenTo_pos _
  have hden : 0 < unitsPerOne * tenTo k.toNat := Nat.mul_pos (twoTo_pos 1074) (tenTo_pos _)
  have hstepAbove : 0 < twoTo x.scale * tenTo (-k).toNat := Nat.mul_pos (twoTo_pos _) hpos
  have hstepBelow : 0 < x.stepBelow * tenTo (-k).toNat := Nat.mul_pos x.stepBelow_pos hpos
  have hsteps := Nat.mul_lt_mul_of_pos_right x.units_lt_steps hpos
  rw [Nat.mul_assoc, Nat.mul_assoc, Nat.add_mul] at hsteps
  have hdiv := Nat.div_add_mod' (x.units * tenTo (-k).toNat) (unitsPerOne * tenTo k.toNat)
  have hmod := Nat.mod_lt (x.units * tenTo (-k).toNat) hden
  generalize x.units * tenTo (-k).toNat / (unitsPerOne * tenTo k.toNat) = q at *
  have hsucc : (q + 1) * (unitsPerOne * tenTo k.toNat) =
      q * (unitsPerOne * tenTo k.toNat) + unitsPerOne * tenTo k.toNat := Nat.add_one_mul q _
  -- Neither neighbour on the grid is between the ends, so its steps are wider than these.
  have hbelow' : ¬(x.lowerEnd * tenTo (-k).toNat < 4 * (q * (unitsPerOne * tenTo k.toNat))) :=
    fun h => by
      have hread := readsBack_of_lt h (by omega)
      rw [hbelow] at hread
      cases hread
  have habove' : ¬(4 * ((q + 1) * (unitsPerOne * tenTo k.toNat)) <
      x.upperEnd * tenTo (-k).toNat) := fun h => by
    have hread := readsBack_of_lt (by omega) h
    rw [habove] at hread
    cases hread
  have hten : tenTo 16 = 10000000000000000 := rfl
  rw [hten] at hleast hsteps
  omega

/-- **The shortest decimal** of a number that is not zero has a digit and
reads back. -/
theorem readsBack_shortest (hx : x.units ≠ 0) :
    x.readsBack x.shortest = true ∧ x.shortest.digits ≠ 0 := by
  obtain ⟨d, hd⟩ := Option.ne_none_iff_exists'.1 (shortestOf_seventeen hx)
  cases hfind : (List.range 17).findSome? fun i => x.shortestOf (i + 1) with
  | none =>
    have hlast := List.findSome?_eq_none_iff.1 hfind 16 (by decide)
    rw [hd] at hlast
    cases hlast
  | some d' =>
    obtain ⟨i, -, hi⟩ := List.exists_of_findSome?_eq_some hfind
    obtain ⟨hread, hle⟩ := readsBack_of_shortestOf hi
    obtain ⟨hleast, -⟩ := lastExponent_spec hx i
    have hstep : 0 < unitsPerOne * tenTo (x.lastExponent (i + 1)).toNat :=
      Nat.mul_pos (twoTo_pos 1074) (tenTo_pos _)
    rw [shortest, hfind, Option.getD_some]
    refine ⟨hread, Nat.ne_of_gt (Nat.lt_of_lt_of_le ?_ hle)⟩
    exact Nat.lt_of_lt_of_le (tenTo_pos i) ((Nat.le_div_iff_mul_le hstep).2 hleast)

end Binary64

end ScriptSplice
