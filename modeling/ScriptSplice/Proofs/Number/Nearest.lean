import Mathlib.Algebra.Order.Field.Rat
import Mathlib.Algebra.Order.Field.Basic
import Mathlib.Tactic.FieldSimp
import ScriptSplice.Proofs.Number.Decimals
import ScriptSplice.Proofs.Number.Exact
/-!
# Nearest numbers

A finite number is the correctly rounded one for a rational if no other
finite number is nearer, and if it is the even one where another is equally
near (`Binary64.IsNearest`). The neighbours of a number are a step away on
either side, and the step below a power of two is half the one above it
(`Binary64.step_above`, `Binary64.step_below`), so a number is nearest to
all that is within half a step of it (`Binary64.isNearest_of_between`). This
is where rounding stays (`Binary64.isNearest_ofUnits`), and what decimals
have to satisfy that read back as the number
(`Binary64.isNearest_of_readsBack`).
-/

namespace ScriptSplice

/-- A magnitude with a sign. -/
def signed (negative : Bool) (q : ℚ) : ℚ := if negative then -q else q

theorem signed_zero {negative : Bool} {q : ℚ} (h : q = 0) : signed negative q = 0 := by
  rw [signed, h, neg_zero, ite_self]

namespace Binary64

/-- **Correct rounding**, to nearest and to even. -/
structure IsNearest (x : Binary64) (q : ℚ) : Prop where
  isFinite : x.isFinite = true
  near : ∀ y : Binary64, y.isFinite = true → |x.value - q| ≤ |y.value - q|
  /-- If another number is equally near, the last digit is even. -/
  even : ∀ y : Binary64, y.isFinite = true → |y.value - q| = |x.value - q| → y.value ≠ x.value →
    x.significand % 2 = 0

variable {x y : Binary64} {num den : Nat}

/-! ## Neighbours -/

/-- How far below a number the next one is. -/
def stepBelow (x : Binary64) : Nat :=
  if x.fraction = 0 ∧ 1 < x.exponentField then twoTo (x.scale - 1) else twoTo x.scale

theorem twoTo_succ (n : Nat) : twoTo (n + 1) = 2 * twoTo n := Nat.pow_succ'

theorem stepBelow_le (x : Binary64) : x.stepBelow ≤ twoTo x.scale := by
  rw [stepBelow]
  split
  · exact twoTo_le (Nat.sub_le _ _)
  · exact Nat.le_refl _

theorem stepBelow_pos (x : Binary64) : 0 < x.stepBelow := by
  rw [stepBelow]
  split <;> exact twoTo_pos _

theorem lowerEnd_eq (x : Binary64) : x.lowerEnd = 4 * x.units - 2 * x.stepBelow := by
  rw [lowerEnd, stepBelow]
  split
  · rename_i h
    have hscale : x.scale = x.scale - 1 + 1 := by rw [scale]; omega
    rw [hscale, twoTo_succ, Nat.add_sub_cancel]
  · rfl

theorem exponentField_le_of_units_lt (h : x.units < y.units) :
    x.exponentField ≤ y.exponentField :=
  Nat.le_of_not_lt fun hlt => Nat.lt_asymm h (units_lt_of_exponentField_lt hlt)

/-- Multiples of the same step are a step apart. -/
theorem add_step_le {a b c : Nat} (h : a * c < b * c) : a * c + c ≤ b * c := by
  rw [← Nat.succ_mul]
  exact Nat.mul_le_mul_right c (Nat.lt_of_mul_lt_mul_right h)

/-- **The next number above.** -/
theorem step_above (h : x.units < y.units) : x.units + twoTo x.scale ≤ y.units := by
  have hscale : x.scale ≤ y.scale := Nat.sub_le_sub_right (exponentField_le_of_units_lt h) 1
  have hy : y.units = y.significand * twoTo (y.scale - x.scale) * twoTo x.scale := by
    rw [units, Nat.mul_assoc, ← twoTo_add, Nat.sub_add_cancel hscale]
  rw [hy] at h ⊢
  exact add_step_le h

/-- **The next number below.** -/
theorem step_below (h : y.units < x.units) : y.units + x.stepBelow ≤ x.units := by
  have hexponent := exponentField_le_of_units_lt h
  have hscale : y.scale ≤ x.scale := Nat.sub_le_sub_right hexponent 1
  rcases Nat.eq_or_lt_of_le hscale with hsame | hless
  · refine Nat.le_trans (Nat.add_le_add_left x.stepBelow_le _) ?_
    rw [units, units, hsame] at h ⊢
    exact add_step_le h
  · -- The numbers of smaller exponents end before the least one of this exponent.
    have hpred : x.scale = x.scale - 1 + 1 := by omega
    have hbelow : y.units ≤ (twoTo 53 - 1) * twoTo (x.scale - 1) :=
      Nat.mul_le_mul (Nat.le_sub_one_of_lt y.significand_lt) (twoTo_le (by omega))
    have hleast : (twoTo 52 + x.fraction) * (2 * twoTo (x.scale - 1)) = x.units := by
      rw [← twoTo_succ, ← hpred, units, significand, if_neg]
      rw [scale] at hpred
      omega
    have hstep : x.stepBelow ≤ twoTo (x.scale - 1) + x.fraction * (2 * twoTo (x.scale - 1)) := by
      rw [stepBelow]
      split
      · exact Nat.le_add_right _ _
      · rename_i hnot
        have hfraction : 1 ≤ x.fraction := by
          rw [scale] at hpred
          omega
        have hproduct := Nat.mul_le_mul_right (2 * twoTo (x.scale - 1)) hfraction
        rw [hpred, twoTo_succ, Nat.add_sub_cancel]
        omega
    rw [Nat.add_mul] at hleast
    rw [twoTo_53] at hbelow
    rw [twoTo_52] at hleast
    omega

/-! ## Distances -/

/-- The distance of a number from a quotient of units, in parts of a unit. -/
def distance (x : Binary64) (num : Int) (den : Nat) : Nat := (x.signedUnits * den - num).natAbs

theorem abs_value_sub (hden : 0 < den) (num : Int) (x : Binary64) :
    |x.value - num / (den * unitsPerOne : Nat)| =
      (x.distance num den : ℚ) / (den * unitsPerOne : Nat) := by
  have hone : (unitsPerOne : ℚ) ≠ 0 := Nat.cast_ne_zero.2 (Nat.ne_of_gt unitsPerOne_pos)
  have hdenom : (den : ℚ) ≠ 0 := Nat.cast_ne_zero.2 (Nat.ne_of_gt hden)
  have hdifference : x.value - num / (den * unitsPerOne : Nat) =
      ((x.signedUnits * den - num : Int) : ℚ) / (den * unitsPerOne : Nat) := by
    rw [value]
    push_cast
    field_simp
  have hpos : (0 : ℚ) ≤ (den * unitsPerOne : Nat) := Nat.cast_nonneg _
  rw [hdifference, abs_div, abs_of_nonneg hpos, distance, Nat.cast_natAbs, Int.cast_abs]

/-- Numbers of one sign are as far apart as their magnitudes; those of
different signs have zero between them. -/
theorem distance_signed (x : Binary64) (negative : Bool) (num den : Nat) :
    x.distance (if negative then -(num : Int) else num) den =
      if x.negative = negative then (((x.units * den : Nat) : Int) - num).natAbs
      else (((x.units * den : Nat) : Int) + num).natAbs := by
  rw [distance, signedUnits]
  cases x.negative <;> cases negative
  · simp
  · simp
  · simp only [if_true, reduceCtorEq, if_false, Bool.false_eq_true, Int.neg_mul]
    push_cast
    omega
  · simp only [if_true, Int.neg_mul]
    push_cast
    omega

/-- Whole numbers are enough to tell which number is nearest. -/
theorem isNearest_of_distance (hfinite : x.isFinite = true) (hden : 0 < den) {num : Int}
    (h : ∀ y : Binary64, x.distance num den ≤ y.distance num den ∧
      (y.distance num den = x.distance num den → y.signedUnits ≠ x.signedUnits →
        x.significand % 2 = 0)) :
    x.IsNearest (num / (den * unitsPerOne : Nat)) := by
  have hpos : (0 : ℚ) < (den * unitsPerOne : Nat) :=
    Nat.cast_pos.2 (Nat.mul_pos hden unitsPerOne_pos)
  refine ⟨hfinite, fun y _ => ?_, fun y _ htie hne => ?_⟩
  · rw [abs_value_sub hden, abs_value_sub hden, div_le_div_iff_of_pos_right hpos, Nat.cast_le]
    exact (h y).1
  · rw [abs_value_sub hden, abs_value_sub hden, div_left_inj' (ne_of_gt hpos), Nat.cast_inj] at htie
    exact (h y).2 htie (mt value_inj.2 hne)

/-! ## Half a step -/

/-- The end below, in parts of a unit. -/
theorem lowerEnd_mul (x : Binary64) (den : Nat) :
    x.lowerEnd * den = 4 * (x.units * den) - 2 * (x.stepBelow * den) := by
  rw [lowerEnd_eq, Nat.sub_mul, Nat.mul_assoc, Nat.mul_assoc]

/-- The end above, in parts of a unit. -/
theorem upperEnd_mul (x : Binary64) (den : Nat) :
    x.upperEnd * den = 4 * (x.units * den) + 2 * (twoTo x.scale * den) := by
  rw [upperEnd, Nat.add_mul, Nat.mul_assoc, Nat.mul_assoc]

section

variable {a b above below : Nat}

/-- What is within half a step of a number is no nearer to the others, which
are a step away at least. -/
theorem near_of_gap (habove : 0 < above) (hbelow : 0 < below)
    (hlower : 4 * a - 2 * below ≤ 4 * num) (hupper : 4 * num ≤ 4 * a + 2 * above)
    (hgap : b = a ∨ a + above ≤ b ∨ b + below ≤ a) :
    ((a : Int) - num).natAbs ≤ ((b : Int) - num).natAbs ∧
      (((b : Int) - num).natAbs = ((a : Int) - num).natAbs → b ≠ a →
        4 * a - 2 * below = 4 * num ∨ 4 * num = 4 * a + 2 * above) := by
  omega

/-- Numbers of the other sign are no nearer either. -/
theorem near_of_sign (hzero : a ≠ 0 → below ≤ a) (hlower : 4 * a - 2 * below ≤ 4 * num) :
    ((a : Int) - num).natAbs ≤ ((b : Int) + num).natAbs ∧
      (((b : Int) + num).natAbs = ((a : Int) - num).natAbs → ¬(a = 0 ∧ b = 0) →
        4 * a - 2 * below = 4 * num) := by
  omega

end

/-- **A number is nearest** to what is within half a step of it, and to what
is just half a step away if its last digit is even. -/
theorem isNearest_of_between (hfinite : x.isFinite = true) (hden : 0 < den)
    (hlower : x.lowerEnd * den ≤ 4 * num) (hupper : 4 * num ≤ x.upperEnd * den)
    (heven : x.lowerEnd * den = 4 * num ∨ 4 * num = x.upperEnd * den → x.significand % 2 = 0) :
    x.IsNearest (signed x.negative (num / (den * unitsPerOne : Nat))) := by
  have hsigned : signed x.negative ((num : ℚ) / (den * unitsPerOne : Nat)) =
      ((if x.negative then -(num : Int) else num : Int) : ℚ) / (den * unitsPerOne : Nat) := by
    rw [signed]
    split
    · rw [Int.cast_neg, neg_div, Int.cast_natCast]
    · rw [Int.cast_natCast]
  rw [hsigned]
  have habove : 0 < twoTo x.scale * den := Nat.mul_pos (twoTo_pos _) hden
  have hbelow : 0 < x.stepBelow * den := Nat.mul_pos x.stepBelow_pos hden
  have hzero : x.units * den ≠ 0 → x.stepBelow * den ≤ x.units * den := by
    intro hne
    have hpos : 0 < x.units := Nat.pos_of_ne_zero fun h => hne (by rw [h, Nat.zero_mul])
    have hstep := step_below (y := ⟨0⟩) (x := x) hpos
    exact Nat.mul_le_mul_right den (Nat.le_trans (Nat.le_add_left _ _) hstep)
  rw [lowerEnd_mul] at hlower heven
  rw [upperEnd_mul] at hupper heven
  refine isNearest_of_distance hfinite hden fun y => ?_
  have hgap : y.units * den = x.units * den ∨
      x.units * den + twoTo x.scale * den ≤ y.units * den ∨
      y.units * den + x.stepBelow * den ≤ x.units * den := by
    rw [← Nat.add_mul, ← Nat.add_mul]
    rcases Nat.lt_trichotomy y.units x.units with hlt | heq | hgt
    · exact .inr (.inr (Nat.mul_le_mul_right den (step_below hlt)))
    · exact .inl (congrArg (· * den) heq)
    · exact .inr (.inl (Nat.mul_le_mul_right den (step_above hgt)))
  obtain ⟨hnear, htie⟩ := near_of_gap habove hbelow hlower hupper hgap
  obtain ⟨hnear', htie'⟩ := near_of_sign (b := y.units * den) hzero hlower
  rw [distance_signed, distance_signed, if_pos rfl]
  split
  · rename_i hsign
    refine ⟨hnear, fun heq hne => heven (htie heq fun hunits => hne ?_)⟩
    rw [signedUnits, signedUnits, hsign, Nat.eq_of_mul_eq_mul_right hden hunits]
  · refine ⟨hnear', fun heq hne => heven (.inl (htie' heq fun hunits => hne ?_))⟩
    have hx := (Nat.mul_eq_zero.1 hunits.1).resolve_right (Nat.ne_of_gt hden)
    have hy := (Nat.mul_eq_zero.1 hunits.2).resolve_right (Nat.ne_of_gt hden)
    exact signedUnits_inj.2 (.inr ⟨hy, hx⟩)

/-! ## Rounding -/

/-- A half goes to the even neighbour. -/
theorem even_of_half (hden : 0 < den)
    (h : 2 * num = 2 * (roundHalfEven num den * den) + den ∨
      2 * (roundHalfEven num den * den) = 2 * num + den) : roundHalfEven num den % 2 = 0 := by
  have hdiv : num / den * den + num % den = num := Nat.div_add_mod' num den
  have hmod : num % den < den := Nat.mod_lt num hden
  have hsucc : (num / den + 1) * den = num / den * den + den := Nat.succ_mul _ _
  unfold roundHalfEven at *
  dsimp only at *
  split
  · rw [if_pos ‹_›] at h
    omega
  · rw [if_neg ‹_›] at h
    split
    · rw [if_pos ‹_›] at h
      omega
    · omega

/-- **A magnitude is within half a step** of the number that it is rounded
to, and just half a step away only from an even one. -/
theorem between_ofUnits {x : Binary64} {negative : Bool} (hden : 0 < den)
    (hx : ofUnits negative num den = x) (hfinite : x.isInfinite = false) :
    x.lowerEnd * den ≤ 4 * num ∧ 4 * num ≤ x.upperEnd * den ∧
      (x.lowerEnd * den = 4 * num ∨ 4 * num = x.upperEnd * den → x.significand % 2 = 0) := by
  rw [← hx] at hfinite
  have hunits := units_ofUnits hden hfinite
  have hstep : 0 < den * twoTo (lastPlace num den) := Nat.mul_pos hden (twoTo_pos _)
  have hhalf := @even_of_half num _ hstep
  have hnear := roundHalfEven_near num hstep
  obtain ⟨hle, hfull⟩ := places_bounds num hden
  obtain ⟨hless, hlast⟩ := lastPlace_spec num hden
  have hlt := lt_infinityFields_iff.2 hfinite
  have hcases := fields_cases negative hle hfull hlt
  rw [← ofUnits_of_lt hlt, hx] at hcases
  rw [← places] at hhalf hnear
  rw [hx] at hunits
  generalize lastPlace num den = place at *
  generalize places num den = count at *
  -- The magnitude in the steps of the place it is rounded to.
  have hmagnitude : x.units * den = count * (den * twoTo place) := by
    rw [hunits, Nat.mul_assoc, Nat.mul_comm den]
  rw [lowerEnd_mul, upperEnd_mul, hmagnitude, Nat.mul_comm (twoTo x.scale) den]
  rcases hcases with ⟨hscale, hsignificand⟩ | ⟨hcount, hexponent, hfraction⟩
  · rw [hscale]
    by_cases hpower : x.fraction = 0 ∧ 1 < x.exponentField
    · -- Nothing that is rounded to a power of two is below it.
      have hcount : count = twoTo 52 := by
        rw [← hsignificand, significand, if_neg (by omega), hpower.1, Nat.add_zero]
      have hpos : 0 < place := by
        rw [← hscale, scale]
        omega
      have habove : count * (den * twoTo place) ≤ num := by
        have hmul := hlast.resolve_left (Nat.ne_of_gt hpos)
        rwa [Nat.add_comm, twoTo_add, Nat.mul_left_comm, ← hcount] at hmul
      have hcountpos : 0 < count * (den * twoTo place) :=
        Nat.mul_pos (hcount ▸ twoTo_pos 52) hstep
      have hbelow : 0 < x.stepBelow * den := Nat.mul_pos x.stepBelow_pos hden
      omega
    · have hbelow : x.stepBelow * den = den * twoTo place := by
        rw [stepBelow, if_neg hpower, hscale, Nat.mul_comm]
      have hwhole : count = 0 ∨ 1 * (den * twoTo place) ≤ count * (den * twoTo place) :=
        (Nat.eq_zero_or_pos count).imp_right fun hpos => Nat.mul_le_mul_right _ hpos
      rw [hsignificand, hbelow]
      omega
  -- Carried into the next power of two: the step below is the one rounded by.
  · have hscale : x.scale = place + 1 := by
      rw [scale, hexponent]
      rfl
    have hbelow : x.stepBelow * den = den * twoTo place := by
      rw [stepBelow, if_pos ⟨hfraction, by omega⟩, hscale, Nat.add_sub_cancel, Nat.mul_comm]
    have habove : den * twoTo x.scale = 2 * (den * twoTo place) := by
      rw [hscale, twoTo_succ, Nat.mul_left_comm]
    have heven : x.significand % 2 = 0 := by
      rw [significand, hexponent, hfraction, if_neg (Nat.succ_ne_zero _), twoTo_52]
    rw [habove, hbelow]
    omega

/-- **Rounding is correct.** -/
theorem isNearest_ofUnits {negative : Bool} (hden : 0 < den)
    (hfinite : (ofUnits negative num den).isInfinite = false) :
    (ofUnits negative num den).IsNearest
      (signed negative (num / (den * unitsPerOne : Nat))) := by
  have hx : (ofUnits negative num den).isFinite = true :=
    isFinite_ofFields (Nat.min_le_right _ _) hfinite
  obtain ⟨hlower, hupper, heven⟩ := between_ofUnits hden rfl hfinite
  have hnearest := isNearest_of_between hx hden hlower hupper heven
  rwa [negative_ofUnits] at hnearest

end Binary64

/-! ## Decimals -/

namespace Decimal

/-- The number that a decimal stands for. -/
def value (d : Decimal) : ℚ := d.digits * (10 : ℚ) ^ d.exponent

/-- A decimal without digits but zeros is zero. -/
theorem value_of_digits {d : Decimal} (h : d.digits = 0) : d.value = 0 := by
  rw [value, h, Nat.cast_zero, zero_mul]

theorem tenTo_eq_zpow {e : Int} (h : 0 ≤ e) : (tenTo e.toNat : ℚ) = (10 : ℚ) ^ e := by
  obtain ⟨n, rfl⟩ := Int.eq_ofNat_of_zero_le h
  change ((10 ^ n : Nat) : ℚ) = (10 : ℚ) ^ (n : Int)
  rw [zpow_natCast, Nat.cast_pow, Nat.cast_ofNat]

/-- The quotient that a decimal is. -/
theorem value_eq (d : Decimal) :
    d.value = (d.digits * tenTo d.exponent.toNat : Nat) / (tenTo (-d.exponent).toNat : Nat) := by
  rw [value]
  push_cast
  rcases Int.le_total 0 d.exponent with h | h
  · rw [tenTo_eq_zpow h, Int.toNat_of_nonpos (Int.neg_nonpos_of_nonneg h), tenTo_zero, Nat.cast_one,
      div_one]
  · rw [tenTo_eq_zpow (Int.neg_nonneg_of_nonpos h), Int.toNat_of_nonpos h, tenTo_zero,
      Nat.cast_one, mul_one, zpow_neg, div_inv_eq_mul]

/-- The same quotient, in units. -/
theorem value_eq_units (d : Decimal) :
    d.value = (d.digits * tenTo d.exponent.toNat * Binary64.unitsPerOne : Nat) /
      (tenTo (-d.exponent).toNat * Binary64.unitsPerOne : Nat) := by
  have hone : (Binary64.unitsPerOne : ℚ) ≠ 0 :=
    Nat.cast_ne_zero.2 (Nat.ne_of_gt Binary64.unitsPerOne_pos)
  rw [value_eq, Nat.cast_mul (_ * _), Nat.cast_mul (tenTo _) Binary64.unitsPerOne,
    mul_div_mul_right _ _ hone]

end Decimal

namespace Binary64

/-- **A number is nearest to the decimals that read back as it.** -/
theorem isNearest_of_readsBack {x : Binary64} {d : Decimal} (hfinite : x.isFinite = true)
    (h : x.readsBack d = true) : x.IsNearest (signed x.negative d.value) := by
  have hfour : 4 * (d.digits * tenTo d.exponent.toNat * unitsPerOne) =
      d.digits * tenTo d.exponent.toNat * (4 * unitsPerOne) := Nat.mul_left_comm _ _ _
  simp only [readsBack, Decimal.notBelow, Decimal.notAbove, Bool.and_eq_true, Bool.or_eq_true,
    Bool.not_eq_true', Bool.or_eq_false_iff, decide_eq_true_eq, decide_eq_false_iff_not,
    beq_iff_eq, ← hfour] at h
  obtain ⟨⟨hlower, hupper⟩, heven⟩ := h
  rw [d.value_eq_units]
  refine isNearest_of_between hfinite (tenTo_pos _) hlower hupper fun htie => ?_
  rcases heven with heven | ⟨habove, hbelow⟩
  · exact heven
  · rcases htie with htie | htie
    · exact absurd (Nat.le_of_eq htie.symm) habove
    · exact absurd (Nat.le_of_eq htie.symm) hbelow

/-- Zero is nearest to itself, with either sign. -/
theorem isNearest_zero (negative : Bool) : (ofFields negative 0).IsNearest 0 := by
  have hvalue : (ofFields negative 0).value = 0 := by
    cases negative <;> decide +kernel
  refine ⟨by cases negative <;> decide, fun y _ => ?_, fun y _ htie hne => ?_⟩
  · rw [hvalue, sub_zero, abs_zero]
    exact abs_nonneg _
  · cases negative <;> decide

end Binary64

/-- **The number that a decimal is read as** is the correctly rounded one,
with the sign of the decimal. -/
theorem Decimal.isNearest_of_toBinary64? {negative : Bool} {d : Decimal} {x : Binary64}
    (h : d.toBinary64? negative = some x) :
    x.negative = negative ∧ x.IsNearest (signed negative d.value) := by
  unfold toBinary64? at h
  dsimp only at h
  split at h
  · rename_i hzero
    cases h
    rw [signed_zero (value_of_digits hzero)]
    exact ⟨Binary64.negative_ofFields (twoTo_pos 63), Binary64.isNearest_zero negative⟩
  · split at h
    · cases h
    · unfold Binary64.ofRatio? at h
      dsimp only at h
      split at h
      · cases h
      · rename_i hrange
        cases h
        rw [Bool.or_eq_true, not_or, Bool.not_eq_true] at hrange
        rw [d.value_eq_units]
        exact ⟨Binary64.negative_ofUnits _ _ _,
          Binary64.isNearest_ofUnits (tenTo_pos _) hrange.1⟩

end ScriptSplice
