import Mathlib.Algebra.Field.Rat
import ScriptSplice.Proofs.Number.Rounding
/-!
# What numbers stand for

A number of the binary format that is one stands for a rational number or
for one of the infinities, and two numbers are the same number when they
stand for the same (`Binary64.sameNumber_iff`). An integer stands for
itself, but the format has room for 53 binary digits only: what the number
nearest to an integer stands for is the integer rounded to so many digits
(`Binary64.meaning?_ofInt`), which is the integer itself up to `2 ^ 53`, and
beyond for integers that end in zeros (`nearest_eq_self`).
-/

namespace ScriptSplice

/-- What a number stands for. -/
inductive ExactNumber where
  | finite (q : ℚ)
  | infinite (negative : Bool)

namespace Binary64

variable {x y : Binary64}

/-- The magnitude in units with its sign. -/
def signedUnits (x : Binary64) : Int := if x.negative then -(x.units : Int) else x.units

/-- The value of a finite number. -/
def value (x : Binary64) : ℚ := (x.signedUnits : ℚ) / (unitsPerOne : ℚ)

/-- **What a number stands for**, if it is one. -/
def meaning? (x : Binary64) : Option ExactNumber :=
  if x.isNaN then none
  else if x.isInfinite then some (.infinite x.negative)
  else some (.finite x.value)

/-! ## The same number -/

theorem unitsPerOne_pos : 0 < unitsPerOne := twoTo_pos 1074

theorem value_inj : x.value = y.value ↔ x.signedUnits = y.signedUnits := by
  have hone : (unitsPerOne : ℚ) ≠ 0 := Nat.cast_ne_zero.2 (Nat.ne_of_gt unitsPerOne_pos)
  rw [value, value, div_left_inj' hone, Rat.intCast_inj]

/-- Only the two zeros are different with the same magnitude and sign. -/
theorem signedUnits_inj : x.signedUnits = y.signedUnits ↔ x = y ∨ (x.units = 0 ∧ y.units = 0) := by
  constructor
  · intro h
    by_cases hsign : x.negative = y.negative
    · refine .inl (eq_of_units hsign ?_)
      rw [signedUnits, signedUnits, hsign] at h
      split at h <;> omega
    · refine .inr ?_
      rw [signedUnits, signedUnits] at h
      split at h <;> split at h
      · simp_all
      · omega
      · omega
      · simp_all
  · rintro (rfl | ⟨hx, hy⟩)
    · rfl
    · rw [signedUnits, signedUnits, hx, hy]
      split <;> split <;> rfl

/-- An infinity is its sign. -/
theorem eq_of_isInfinite (hx : x.isInfinite = true) (hy : y.isInfinite = true)
    (hnegative : x.negative = y.negative) : x = y := by
  rw [isInfinite, Bool.and_eq_true, beq_iff_eq, beq_iff_eq] at hx hy
  exact ext_fields hnegative (hx.1.trans hy.1.symm) (hx.2.trans hy.2.symm)

theorem meaning?_of_isFinite (h : x.isFinite = true) : x.meaning? = some (.finite x.value) := by
  obtain ⟨hnan, hinfinite⟩ := (isFinite_iff x).1 h
  rw [meaning?, hnan, hinfinite, if_neg Bool.false_ne_true, if_neg Bool.false_ne_true]

theorem meaning?_of_isInfinite (h : x.isInfinite = true) :
    x.meaning? = some (.infinite x.negative) := by
  have hnan : x.isNaN = false := by
    rw [isInfinite, Bool.and_eq_true] at h
    rw [isNaN, h.1, bne, h.2]
    rfl
  rw [meaning?, hnan, h, if_neg Bool.false_ne_true, if_pos rfl]

/-- Every number but what is not one is finite or infinite. -/
theorem cases_of_isNaN (h : x.isNaN = false) : x.isFinite = true ∨ x.isInfinite = true := by
  cases hinfinite : x.isInfinite with
  | true => exact .inr rfl
  | false => exact .inl ((isFinite_iff x).2 ⟨h, hinfinite⟩)

theorem isNaN_of_meaning? {v : ExactNumber} (h : x.meaning? = some v) : x.isNaN = false := by
  rw [meaning?] at h
  split at h
  · cases h
  · exact eq_false_of_ne_true ‹_›

/-- **Numbers are the same** when they stand for the same. -/
theorem sameNumber_iff (x y : Binary64) :
    x.sameNumber y = true ↔ ∃ v, x.meaning? = some v ∧ y.meaning? = some v := by
  constructor
  · intro h
    simp only [sameNumber, Bool.and_eq_true, Bool.not_eq_true', Bool.or_eq_true, beq_iff_eq] at h
    obtain ⟨⟨hx, hy⟩, rfl | ⟨⟨⟨hxfinite, hxzero⟩, hyfinite⟩, hyzero⟩⟩ := h
    · rcases cases_of_isNaN hx with hfinite | hinfinite
      · exact ⟨_, meaning?_of_isFinite hfinite, meaning?_of_isFinite hfinite⟩
      · exact ⟨_, meaning?_of_isInfinite hinfinite, meaning?_of_isInfinite hinfinite⟩
    · have hvalue : y.value = x.value := value_inj.2 (signedUnits_inj.2 (.inr ⟨hyzero, hxzero⟩))
      exact ⟨_, meaning?_of_isFinite hxfinite, hvalue ▸ meaning?_of_isFinite hyfinite⟩
  · rintro ⟨v, hx, hy⟩
    have hxnan := isNaN_of_meaning? hx
    have hynan := isNaN_of_meaning? hy
    simp only [sameNumber, Bool.and_eq_true, Bool.not_eq_true', Bool.or_eq_true, beq_iff_eq]
    refine ⟨⟨hxnan, hynan⟩, ?_⟩
    rcases cases_of_isNaN hxnan with hxfinite | hxinfinite <;>
      rcases cases_of_isNaN hynan with hyfinite | hyinfinite
    · rw [meaning?_of_isFinite hxfinite] at hx
      rw [meaning?_of_isFinite hyfinite, ← hx, Option.some.injEq, ExactNumber.finite.injEq,
        value_inj, signedUnits_inj] at hy
      exact hy.imp Eq.symm fun ⟨hyzero, hxzero⟩ => ⟨⟨⟨hxfinite, hxzero⟩, hyfinite⟩, hyzero⟩
    · rw [meaning?_of_isFinite hxfinite] at hx
      rw [meaning?_of_isInfinite hyinfinite, ← hx] at hy
      cases hy
    · rw [meaning?_of_isInfinite hxinfinite] at hx
      rw [meaning?_of_isFinite hyfinite, ← hx] at hy
      cases hy
    · rw [meaning?_of_isInfinite hxinfinite] at hx
      rw [meaning?_of_isInfinite hyinfinite, ← hx, Option.some.injEq,
        ExactNumber.infinite.injEq] at hy
      exact .inl (eq_of_isInfinite hxinfinite hyinfinite hy.symm)

end Binary64

/-! ## Integers -/

/-- What the last of the first 53 binary digits of a number counts. -/
def lastDigit (n : Nat) : Nat := twoTo (n.log2 - 52)

/-- **The nearest integer with 53 binary digits**, and any number of
zeros behind them; of two such, the one whose digits are even. -/
def nearest (i : Int) : Int :=
  i.sign * (roundHalfEven i.natAbs (lastDigit i.natAbs) * lastDigit i.natAbs : Nat)

theorem log2_lt_of_lt {n k : Nat} (h : n < twoTo (k + 1)) : n.log2 < k + 1 := by
  rcases Nat.eq_zero_or_pos n with rfl | hpos
  · exact Nat.succ_pos k
  · exact (Nat.log2_lt (Nat.ne_of_gt hpos)).2 h

theorem log2_mul_twoTo {n : Nat} (h : n ≠ 0) (k : Nat) : (n * twoTo k).log2 = n.log2 + k := by
  refine (Nat.log2_eq_iff (Nat.mul_ne_zero h (Nat.ne_of_gt (twoTo_pos k)))).2 ⟨?_, ?_⟩
  · calc twoTo (n.log2 + k) = twoTo n.log2 * twoTo k := twoTo_add _ _
      _ ≤ n * twoTo k := Nat.mul_le_mul_right _ (Nat.log2_self_le h)
  · calc n * twoTo k < twoTo (n.log2 + 1) * twoTo k :=
          Nat.mul_lt_mul_of_pos_right Nat.lt_log2_self (twoTo_pos k)
      _ = twoTo (n.log2 + k + 1) := by rw [← twoTo_add, Nat.add_right_comm]

theorem lastDigit_pos (n : Nat) : 0 < lastDigit n := twoTo_pos _

/-- An integer is its own nearest if no digit beyond the 53 is needed. -/
theorem nearest_eq_self {i : Int} (h : lastDigit i.natAbs ∣ i.natAbs) : nearest i = i := by
  obtain ⟨k, hk⟩ := h
  rw [Nat.mul_comm] at hk
  have hround : roundHalfEven i.natAbs (lastDigit i.natAbs) = k := by
    calc roundHalfEven i.natAbs (lastDigit i.natAbs)
        = roundHalfEven (k * lastDigit i.natAbs) (lastDigit i.natAbs) := by rw [← hk]
      _ = k := roundHalfEven_mul k (lastDigit_pos _)
  rw [nearest, hround, ← hk, Int.sign_mul_natAbs]

/-- Integers up to `2 ^ 53` are their own nearest. -/
theorem nearest_of_le {i : Int} (h : i.natAbs ≤ twoTo 53) : nearest i = i := by
  apply nearest_eq_self
  rcases Nat.lt_or_eq_of_le h with hlt | heq
  · have hlog : i.natAbs.log2 < 53 := log2_lt_of_lt hlt
    have hone : lastDigit i.natAbs = 1 := by
      rw [lastDigit, Nat.sub_eq_zero_of_le (by omega)]
      rfl
    rw [hone]
    exact Nat.one_dvd _
  · rw [heq]
    decide

namespace Binary64

/-- Rounding to the format keeps the digits that `nearest` keeps. -/
theorem places_mul_twoTo (n k : Nat) :
    places (n * twoTo k) 1 * twoTo (lastPlace (n * twoTo k) 1) =
      roundHalfEven n (lastDigit n) * lastDigit n * twoTo k := by
  rcases Nat.eq_zero_or_pos n with rfl | hpos
  · rw [Nat.zero_mul, places, Nat.one_mul, roundHalfEven_zero (twoTo_pos _),
      roundHalfEven_zero (lastDigit_pos 0), Nat.zero_mul, Nat.zero_mul, Nat.zero_mul]
  · have hplace : lastPlace (n * twoTo k) 1 = n.log2 + k - 52 := by
      rw [lastPlace, Nat.div_one, log2_mul_twoTo (Nat.ne_of_gt hpos)]
    rw [places, hplace, Nat.one_mul]
    rcases Nat.lt_or_ge n.log2 52 with hshort | hlong
    · have hone : lastDigit n = 1 := by
        rw [lastDigit, Nat.sub_eq_zero_of_le (Nat.le_of_lt hshort)]
        rfl
      have hsplit : n * twoTo k = n * twoTo (k - (n.log2 + k - 52)) * twoTo (n.log2 + k - 52) := by
        rw [Nat.mul_assoc, ← twoTo_add, Nat.sub_add_cancel (by omega)]
      have hself : roundHalfEven n 1 = n := by
        simpa using roundHalfEven_mul n Nat.one_pos
      rw [hone, hself, Nat.mul_one, hsplit, roundHalfEven_mul _ (twoTo_pos _)]
    · have hsplit : twoTo (n.log2 + k - 52) = lastDigit n * twoTo k := by
        rw [lastDigit, ← twoTo_add, Nat.sub_add_comm hlong]
      rw [hsplit, roundHalfEven_scale _ _ (twoTo_pos k), Nat.mul_assoc]

/-- No integer of 64 binary digits overflows. -/
theorem isFinite_ofInt {i : Int} (h : i.natAbs < twoTo 64) : (ofInt i).isFinite = true := by
  have hlt : i.natAbs * unitsPerOne < twoTo (1137 + 1) :=
    calc i.natAbs * twoTo 1074 < twoTo 64 * twoTo 1074 :=
          Nat.mul_lt_mul_of_pos_right h (twoTo_pos 1074)
      _ = twoTo (1137 + 1) := (twoTo_add 64 1074).symm
  have hplace : lastPlace (i.natAbs * unitsPerOne) 1 ≤ 1085 := by
    rw [lastPlace, Nat.div_one]
    have hlog := log2_lt_of_lt hlt
    omega
  have hplaces := (places_bounds (i.natAbs * unitsPerOne) Nat.one_pos).1
  have hfields : lastPlace (i.natAbs * unitsPerOne) 1 * twoTo 52 +
      places (i.natAbs * unitsPerOne) 1 < infinityFields := by
    rw [twoTo_53] at hplaces
    rw [infinityFields, twoTo_52]
    omega
  exact isFinite_ofFields (Nat.min_le_right _ _) (lt_infinityFields_iff.1 hfields)

/-- **The number nearest to an integer** stands for the integer rounded to
53 digits. -/
theorem meaning?_ofInt {i : Int} (h : i.natAbs < twoTo 64) :
    (ofInt i).meaning? = some (.finite (nearest i)) := by
  have hfinite := isFinite_ofInt h
  have hunits : (ofInt i).units =
      roundHalfEven i.natAbs (lastDigit i.natAbs) * lastDigit i.natAbs * unitsPerOne :=
    (units_ofUnits Nat.one_pos ((isFinite_iff _).1 hfinite).2).trans (places_mul_twoTo _ 1074)
  have hsigned : (ofInt i).signedUnits = nearest i * unitsPerOne := by
    have hnegative : (ofInt i).negative = decide (i < 0) := negative_ofUnits ..
    rw [signedUnits, hnegative, hunits, nearest]
    rcases Int.lt_trichotomy i 0 with hneg | rfl | hpos
    · rw [Int.sign_eq_neg_one_of_neg hneg, if_pos (decide_eq_true hneg), Nat.cast_mul,
        Int.neg_mul, Int.neg_mul, Int.one_mul]
    · rw [Int.natAbs_zero, roundHalfEven_zero (lastDigit_pos 0), Nat.zero_mul, Nat.zero_mul,
        Int.sign_zero, Int.zero_mul, Int.zero_mul]
      rfl
    · rw [Int.sign_eq_one_of_pos hpos, if_neg (by simpa using Int.le_of_lt hpos), Nat.cast_mul,
        Int.one_mul]
  have hone : (unitsPerOne : ℚ) ≠ 0 := Nat.cast_ne_zero.2 (Nat.ne_of_gt unitsPerOne_pos)
  rw [meaning?_of_isFinite hfinite, value, hsigned]
  push_cast
  rw [mul_div_cancel_right₀ _ hone]

theorem natAbs_signedUnits (x : Binary64) : x.signedUnits.natAbs = x.units := by
  rw [signedUnits]
  split
  · rw [Int.natAbs_neg, Int.natAbs_natCast]
  · exact Int.natAbs_natCast _

theorem significand_lt (x : Binary64) : x.significand < twoTo 53 := by
  have hfraction := x.fraction_lt
  rw [twoTo_52] at hfraction
  rw [significand, twoTo_52, twoTo_53]
  split <;> omega

/-- The units of a number that stands for an integer. -/
theorem units_of_meaning? {x : Binary64} {i : Int} (h : x.meaning? = some (.finite i)) :
    x.units = i.natAbs * twoTo 1074 := by
  have hfinite : x.isFinite = true := by
    refine (isFinite_iff x).2 ⟨isNaN_of_meaning? h, eq_false_of_ne_true fun hinfinite => ?_⟩
    rw [meaning?_of_isInfinite hinfinite] at h
    cases h
  have hone : (unitsPerOne : ℚ) ≠ 0 := Nat.cast_ne_zero.2 (Nat.ne_of_gt unitsPerOne_pos)
  rw [meaning?_of_isFinite hfinite, Option.some.injEq, ExactNumber.finite.injEq, value,
    div_eq_iff hone] at h
  have hsigned : x.signedUnits = i * (unitsPerOne : Int) := by exact_mod_cast h
  rw [← natAbs_signedUnits, hsigned, Int.natAbs_mul, Int.natAbs_natCast]
  rfl

/-- **An integer that a number stands for** has no digit beyond the 53. -/
theorem nearest_of_meaning? {x : Binary64} {i : Int} (h : x.meaning? = some (.finite i)) :
    nearest i = i := by
  have hunits := units_of_meaning? h
  apply nearest_eq_self
  rcases Nat.lt_or_ge i.natAbs.log2 53 with hshort | hlong
  · rw [lastDigit, Nat.sub_eq_zero_of_le (by omega)]
    exact Nat.one_dvd _
  · -- The number has too few digits to end above the point.
    have hpos : i.natAbs ≠ 0 := by
      rintro hzero
      rw [hzero] at hlong
      exact absurd hlong (by decide)
    have hlower : twoTo (53 + 1074) ≤ x.units :=
      calc twoTo (53 + 1074) ≤ twoTo (i.natAbs.log2 + 1074) := twoTo_le (by omega)
        _ = twoTo i.natAbs.log2 * twoTo 1074 := twoTo_add _ _
        _ ≤ i.natAbs * twoTo 1074 := Nat.mul_le_mul_right _ (Nat.log2_self_le hpos)
        _ = x.units := hunits.symm
    have hupper : x.units < twoTo (53 + x.scale) :=
      calc x.units < twoTo 53 * twoTo x.scale :=
            Nat.mul_lt_mul_of_pos_right x.significand_lt (twoTo_pos _)
        _ = twoTo (53 + x.scale) := (twoTo_add _ _).symm
    have hscale : 53 + 1074 < 53 + x.scale := Nat.lt_of_not_le fun hle =>
      absurd (Nat.lt_of_le_of_lt hlower hupper) (Nat.not_lt.2 (twoTo_le hle))
    have hsplit : twoTo x.scale = twoTo (x.scale - 1074) * twoTo 1074 := by
      rw [← twoTo_add, Nat.sub_add_cancel (by omega)]
    have hwhole : i.natAbs = x.significand * twoTo (x.scale - 1074) := by
      refine Nat.eq_of_mul_eq_mul_right (twoTo_pos 1074) ?_
      rw [← hunits, units, hsplit, Nat.mul_assoc]
    have hlog : i.natAbs.log2 < 53 + (x.scale - 1074) := by
      refine (Nat.log2_lt hpos).2 ?_
      rw [hwhole, Nat.pow_add]
      exact Nat.mul_lt_mul_of_pos_right x.significand_lt (twoTo_pos _)
    have hdvd : lastDigit i.natAbs ∣ twoTo (x.scale - 1074) := Nat.pow_dvd_pow 2 (by omega)
    rw [hwhole] at hdvd ⊢
    exact Nat.dvd_mul_left_of_dvd hdvd _

end Binary64

end ScriptSplice
