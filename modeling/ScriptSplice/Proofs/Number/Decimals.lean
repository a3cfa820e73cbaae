import Mathlib.Tactic.Ring
import ScriptSplice.Proofs.Number.Rounding
/-!
# The number nearest to a decimal

The number nearest to a quotient depends on the quotient alone
(`Binary64.ofRatio?_congr`), and so the number nearest to a decimal does
not depend on how many zeros end its digits (`Decimal.toBinary64?_zeros`).
-/

namespace ScriptSplice

/-! ## Powers of ten -/

theorem tenTo_pos (n : Nat) : 0 < tenTo n := Nat.pow_pos (by decide)

theorem tenTo_zero : tenTo 0 = 1 := rfl

theorem tenTo_add (m n : Nat) : tenTo (m + n) = tenTo m * tenTo n := Nat.pow_add 10 m n

theorem tenTo_succ (n : Nat) : tenTo (n + 1) = 10 * tenTo n := Nat.pow_succ'

/-- A number has as many digits as the least power of ten above it. -/
theorem digitCount_le_iff {n k : Nat} (hk : 0 < k) : digitCount n ≤ k ↔ n < tenTo k :=
  Nat.length_toDigits_le_iff (by decide) hk

theorem digitCount_pos (n : Nat) : 0 < digitCount n :=
  List.length_pos_iff.2 Nat.toDigits_ne_nil

theorem lt_tenTo_digitCount (n : Nat) : n < tenTo (digitCount n) :=
  (digitCount_le_iff (digitCount_pos n)).1 (Nat.le_refl _)

theorem tenTo_le_of_digitCount {n k : Nat} (h : digitCount n = k + 1) (hn : n ≠ 0) :
    tenTo k ≤ n := by
  rcases Nat.eq_zero_or_pos k with rfl | hk
  · exact Nat.pos_of_ne_zero hn
  · refine Nat.le_of_not_lt fun hlt => ?_
    have hle := (digitCount_le_iff hk).2 hlt
    omega

/-- Every zero at its end is one digit more. -/
theorem digitCount_mul_tenTo {n : Nat} (hn : n ≠ 0) (k : Nat) :
    digitCount (n * tenTo k) = digitCount n + k := by
  have hpos := digitCount_pos n
  obtain ⟨j, hj⟩ := Nat.exists_eq_add_one_of_ne_zero (Nat.ne_of_gt hpos)
  have hlower := tenTo_le_of_digitCount hj hn
  have hupper := lt_tenTo_digitCount n
  have hle : digitCount (n * tenTo k) ≤ digitCount n + k := by
    refine (digitCount_le_iff (by omega)).2 ?_
    rw [tenTo_add]
    exact Nat.mul_lt_mul_of_pos_right hupper (tenTo_pos k)
  have hge : ¬digitCount (n * tenTo k) ≤ j + k := by
    rcases Nat.eq_zero_or_pos (j + k) with hzero | hjk
    · have hcount := digitCount_pos (n * tenTo k)
      omega
    · rw [digitCount_le_iff hjk, tenTo_add]
      exact Nat.not_lt.2 (Nat.mul_le_mul_right _ hlower)
  omega

/-! ## Quotients -/

namespace Binary64

variable (negative : Bool)

theorem isTiny_scale (num den : Nat) {c : Nat} (hc : 0 < c) :
    isTiny (num * c) (den * c) = isTiny num den := by
  unfold isTiny
  rw [← Nat.mul_assoc, ← Nat.mul_assoc]
  exact decide_eq_decide.2 (Nat.mul_lt_mul_right hc)

theorem ofRatio?_scale (num den : Nat) {c : Nat} (hc : 0 < c) :
    ofRatio? negative (num * c) (den * c) = ofRatio? negative num den := by
  have hnum : num * c * unitsPerOne = num * unitsPerOne * c := Nat.mul_right_comm ..
  have hx : ofRatio negative (num * c) (den * c) = ofRatio negative num den := by
    rw [ofRatio, hnum, ofUnits_scale _ _ _ hc, ofRatio]
  have hexact : ((ofRatio negative num den).units * (den * c) == num * unitsPerOne * c) =
      ((ofRatio negative num den).units * den == num * unitsPerOne) := by
    rw [← Nat.mul_assoc, Bool.eq_iff_iff, beq_iff_eq, beq_iff_eq]
    exact ⟨Nat.eq_of_mul_eq_mul_right hc, congrArg (· * c)⟩
  simp only [ofRatio?, hx, hnum, hexact, isTiny_scale _ _ hc]

/-- **The nearest number** depends on the quotient alone. -/
theorem ofRatio?_congr {num den num' den' : Nat} (hden : 0 < den) (hden' : 0 < den')
    (h : num * den' = num' * den) : ofRatio? negative num den = ofRatio? negative num' den' := by
  calc ofRatio? negative num den
      = ofRatio? negative (num * den') (den * den') := (ofRatio?_scale negative num den hden').symm
    _ = ofRatio? negative (num' * den) (den' * den) := by rw [h, Nat.mul_comm den]
    _ = ofRatio? negative num' den' := ofRatio?_scale negative num' den' hden

end Binary64

/-! ## Decimals -/

namespace Decimal

/-- **Zeros at the end** make no difference. -/
theorem toBinary64?_zeros (negative : Bool) (digits : Nat) (exponent : Int) (k : Nat) :
    (Decimal.mk (digits * tenTo k) (exponent - k)).toBinary64? negative =
      (Decimal.mk digits exponent).toBinary64? negative := by
  rcases Nat.eq_zero_or_pos digits with rfl | hpos
  · simp only [toBinary64?, Nat.zero_mul, if_pos]
  · have hne : digits ≠ 0 := Nat.ne_of_gt hpos
    have hne' : digits * tenTo k ≠ 0 := Nat.mul_ne_zero hne (Nat.ne_of_gt (tenTo_pos k))
    have hleading : exponent - k + ((digitCount digits + k : Nat) : Int) - 1 =
        exponent + digitCount digits - 1 := by
      push_cast
      omega
    have hquotient : digits * tenTo k * tenTo (exponent - k).toNat * tenTo (-exponent).toNat =
        digits * tenTo exponent.toNat * tenTo (-(exponent - k)).toNat := by
      rw [Nat.mul_assoc digits, Nat.mul_assoc digits, Nat.mul_assoc digits, ← tenTo_add,
        ← tenTo_add, ← tenTo_add]
      exact congrArg (fun j => digits * tenTo j) (by omega)
    unfold toBinary64?
    simp only [if_neg hne, if_neg hne', digitCount_mul_tenTo hne, hleading]
    rw [Binary64.ofRatio?_congr negative (tenTo_pos _) (tenTo_pos _) hquotient]

end Decimal

/-! ## The leading digit -/

theorem mul_tenTo_le_add_iff {x y i j : Nat} (k : Nat) :
    x * tenTo (i + k) ≤ y * tenTo (j + k) ↔ x * tenTo i ≤ y * tenTo j := by
  rw [tenTo_add, tenTo_add, ← Nat.mul_assoc, ← Nat.mul_assoc]
  exact Nat.mul_le_mul_right_iff (tenTo_pos k)

/-- Two numbers compare alike under powers of ten that differ alike. -/
theorem mul_tenTo_le_iff {x y i j : Nat} (i' j' : Nat) (h : i + j' = i' + j) :
    x * tenTo i ≤ y * tenTo j ↔ x * tenTo i' ≤ y * tenTo j' := by
  calc x * tenTo i ≤ y * tenTo j
      ↔ x * tenTo (i + j') ≤ y * tenTo (j + j') := (mul_tenTo_le_add_iff j').symm
    _ ↔ x * tenTo (i' + j) ≤ y * tenTo (j' + j) := by rw [h, Nat.add_comm j j']
    _ ↔ x * tenTo i' ≤ y * tenTo j' := mul_tenTo_le_add_iff j

/-- A quotient of at least one has one digit more than the power of ten
below it. -/
theorem exists_digitCount_div {a b : Nat} (hb : 0 < b) (hle : b ≤ a) :
    ∃ c, digitCount (a / b) = c + 1 ∧ b * tenTo c ≤ a ∧ a < b * tenTo (c + 1) := by
  have hq : a / b ≠ 0 := Nat.ne_of_gt (Nat.div_pos hle hb)
  obtain ⟨c, hc⟩ := Nat.exists_eq_add_one_of_ne_zero (Nat.ne_of_gt (digitCount_pos (a / b)))
  have hlower := tenTo_le_of_digitCount hc hq
  have hupper := lt_tenTo_digitCount (a / b)
  rw [hc] at hupper
  rw [Nat.le_div_iff_mul_le hb, Nat.mul_comm] at hlower
  rw [Nat.div_lt_iff_lt_mul hb, Nat.mul_comm] at hupper
  exact ⟨c, hc, hlower, hupper⟩

/-- **The exponent of the leading digit**: the quotient is at least this
power of ten and less than the next. -/
theorem leadingExponent_spec {num den : Nat} (hnum : 0 < num) (hden : 0 < den) :
    den * tenTo (leadingExponent num den).toNat ≤ num * tenTo (-leadingExponent num den).toNat ∧
      ¬den * tenTo (leadingExponent num den + 1).toNat ≤
        num * tenTo (-(leadingExponent num den + 1)).toNat := by
  unfold leadingExponent
  dsimp only
  split
  · rename_i hle
    obtain ⟨c, hc, hlower, hupper⟩ := exists_digitCount_div hden hle
    have hleading : ((c + 1 : Nat) : Int) - 1 = (c : Int) := by omega
    rw [hc, hleading]
    refine ⟨(mul_tenTo_le_iff c 0 (by omega)).2 ?_,
      fun h => absurd ((mul_tenTo_le_iff (c + 1) 0 (by omega)).1 h) ?_⟩
    · rwa [tenTo_zero, Nat.mul_one]
    · rwa [tenTo_zero, Nat.mul_one, Nat.not_le]
  · rename_i hlt
    obtain ⟨c, hc, hlower, hupper⟩ := exists_digitCount_div hnum (Nat.le_of_not_le hlt)
    rw [hc, Nat.add_sub_cancel]
    split
    · rename_i hle
      refine ⟨(mul_tenTo_le_iff 0 c (by omega)).2 ?_,
        fun h => absurd ((mul_tenTo_le_iff 1 c (by omega)).1 h) ?_⟩
      · rwa [tenTo_zero, Nat.mul_one]
      · have hten : tenTo 1 = 10 := rfl
        rw [hten]
        omega
    · rename_i hmore
      refine ⟨(mul_tenTo_le_iff 0 (c + 1) (by omega)).2 ?_,
        fun h => absurd ((mul_tenTo_le_iff 0 c (by omega)).1 h) ?_⟩
      · rw [tenTo_zero, Nat.mul_one]
        exact Nat.le_of_lt hupper
      · rwa [tenTo_zero, Nat.mul_one]

/-! ## Six digits -/

namespace Binary64

variable {x : Binary64}

/-- What is not tiny is rounded to full precision. -/
theorem le_places_of_isTiny {num den : Nat} (hden : 0 < den) (h : isTiny num den = false) :
    twoTo 52 ≤ places num den := by
  rcases (places_bounds num hden).2 with hplace | hfull
  · refine Nat.le_of_not_lt fun hlt => ?_
    have hone : den * twoTo 0 = den := Nat.mul_one den
    rw [places, hplace, hone] at hlt
    have hbelow := (roundHalfEven_near num hden).2
    have hproduct := Nat.mul_le_mul_right den (Nat.le_sub_one_of_lt hlt)
    rw [isTiny, decide_eq_false_iff_not, Nat.not_lt] at h
    rw [twoTo_52] at h hproduct
    omega
  · exact hfull

/-- **A number read from a decimal** is off by a share of at most one in
`2 ^ 53`: one that is tiny has to be exact. -/
theorem near_of_ofRatio? {negative : Bool} {num den : Nat} (hden : 0 < den)
    (h : ofRatio? negative num den = some x) :
    twoTo 53 * (x.units * den) ≤ twoTo 53 * (num * unitsPerOne) + x.units * den ∧
      twoTo 53 * (num * unitsPerOne) ≤ twoTo 53 * (x.units * den) + x.units * den := by
  unfold ofRatio? at h
  dsimp only at h
  split at h
  · cases h
  · rename_i hrange
    cases h
    rw [Bool.or_eq_true, not_or, Bool.not_eq_true, Bool.not_eq_true,
      Bool.and_eq_false_iff] at hrange
    obtain ⟨hfinite, htiny | hexact⟩ := hrange
    · rw [ofRatio] at hfinite ⊢
      generalize num * unitsPerOne = n at *
      have hstep : 0 < den * twoTo (lastPlace n den) := Nat.mul_pos hden (twoTo_pos _)
      obtain ⟨habove, hbelow⟩ := roundHalfEven_near n hstep
      have hfull := le_places_of_isTiny hden htiny
      have hunits : (ofUnits negative n den).units * den =
          roundHalfEven n (den * twoTo (lastPlace n den)) * (den * twoTo (lastPlace n den)) := by
        rw [units_ofUnits hden hfinite, places, Nat.mul_assoc, Nat.mul_comm den]
      have hpart : twoTo 52 * (den * twoTo (lastPlace n den)) ≤
          (ofUnits negative n den).units * den := by
        rw [hunits]
        exact Nat.mul_le_mul_right _ hfull
      rw [← hunits] at habove hbelow
      rw [twoTo_52] at hpart
      rw [twoTo_53]
      omega
    · rw [Bool.not_eq_false', beq_iff_eq] at hexact
      rw [hexact]
      exact ⟨Nat.le_add_right _ _, Nat.le_add_right _ _⟩

theorem significant_eq (count : Nat) :
    x.significant count =
      ⟨roundHalfEven (x.units * tenTo (-x.lastExponent count).toNat)
        (unitsPerOne * tenTo (x.lastExponent count).toNat), x.lastExponent count⟩ := rfl

/-- On the grid of some of its digits a number lies between the least and
the greatest of these. -/
theorem lastExponent_spec (hx : x.units ≠ 0) (c : Nat) :
    tenTo c * (unitsPerOne * tenTo (x.lastExponent (c + 1)).toNat) ≤
        x.units * tenTo (-x.lastExponent (c + 1)).toNat ∧
      x.units * tenTo (-x.lastExponent (c + 1)).toNat <
        tenTo (c + 1) * (unitsPerOne * tenTo (x.lastExponent (c + 1)).toNat) := by
  have hone : 0 < unitsPerOne := twoTo_pos 1074
  obtain ⟨hlower, hupper⟩ := leadingExponent_spec (Nat.pos_of_ne_zero hx) hone
  have hlast : x.lastExponent (c + 1) = leadingExponent x.units unitsPerOne - c := by
    rw [lastExponent]
    push_cast
    omega
  rw [hlast]
  generalize leadingExponent x.units unitsPerOne = e at *
  refine ⟨?_, Nat.lt_of_not_le fun hle => hupper ?_⟩
  · rw [Nat.mul_left_comm, ← tenTo_add]
    exact (mul_tenTo_le_iff _ _ (by omega)).1 hlower
  · rw [Nat.mul_left_comm, ← tenTo_add] at hle
    exact (mul_tenTo_le_iff _ _ (by omega)).1 hle

/-- What is near to a whole number of steps, and not too many of them, is
rounded to it. -/
theorem roundHalfEven_of_near {a b k : Nat} (hb : 0 < b) (hupper : a < tenTo 6 * b)
    (habove : twoTo 53 * a ≤ twoTo 53 * (k * b) + a)
    (hbelow : twoTo 53 * (k * b) ≤ twoTo 53 * a + a) : roundHalfEven a b = k := by
  have hmillion : tenTo 6 = 1000000 := rfl
  rw [hmillion] at hupper
  rw [twoTo_53] at habove hbelow
  exact roundHalfEven_eq hb (by omega) (by omega)

/-- A decimal with its last digit below the grid is too small to be near:
it has at most six digits, which end below the sixth of the number. -/
theorem not_near_below {a b n digits j : Nat} (hb : 0 < b) (hdigits : digits ≤ 999999)
    (hj : 0 < j) (hn : n * tenTo j = digits * b) (hlower : tenTo 5 * b ≤ a)
    (habove : twoTo 53 * a ≤ twoTo 53 * n + a) : False := by
  have hproduct : digits * b ≤ 999999 * b := Nat.mul_le_mul_right b hdigits
  have hpower : 10 ≤ tenTo j := Nat.pow_le_pow_right (by decide : 0 < 10) hj
  have hten : tenTo 5 * b * 10 ≤ a * tenTo j := Nat.mul_le_mul hlower hpower
  have hscaled : twoTo 53 * (a * tenTo j) ≤ twoTo 53 * (n * tenTo j) + a * tenTo j := by
    calc twoTo 53 * (a * tenTo j) = twoTo 53 * a * tenTo j := (Nat.mul_assoc _ _ _).symm
      _ ≤ (twoTo 53 * n + a) * tenTo j := Nat.mul_le_mul_right _ habove
      _ = twoTo 53 * (n * tenTo j) + a * tenTo j := by rw [Nat.add_mul, Nat.mul_assoc]
  have hfive : tenTo 5 = 100000 := rfl
  rw [hn, twoTo_53] at hscaled
  rw [hfive] at hten
  omega

/-- A decimal that is not read as zero is read as the quotient it stands
for. -/
theorem ofRatio?_of_toBinary64? {negative : Bool} {d : Decimal}
    (h : d.toBinary64? negative = some x) (hx : x.units ≠ 0) :
    ofRatio? negative (d.digits * tenTo d.exponent.toNat) (tenTo (-d.exponent).toNat) = some x := by
  unfold Decimal.toBinary64? at h
  split at h
  · cases h
    exact absurd (by cases negative <;> decide) hx
  · dsimp only at h
    split at h
    · cases h
    · exact h

/-- **Six digits come back.** A decimal of six digits at the most has the
six digits of the number nearest to it, zeros at the end apart. -/
theorem significant_of_toBinary64? {negative : Bool} {d : Decimal} (hdigits : d.digits < tenTo 6)
    (h : d.toBinary64? negative = some x) (hx : x.units ≠ 0) :
    ∃ j : Nat, x.significant 6 = ⟨d.digits * tenTo j, d.exponent - j⟩ := by
  obtain ⟨digits, e⟩ := d
  have hratio := ofRatio?_of_toBinary64? h hx
  obtain ⟨habove, hbelow⟩ := near_of_ofRatio? (tenTo_pos _) hratio
  obtain ⟨hlower, hupper⟩ := lastExponent_spec hx 5
  rw [significant_eq]
  generalize x.lastExponent 6 = k at *
  -- Everything over the two denominators.
  generalize hstep : unitsPerOne * tenTo k.toNat * tenTo (-e).toNat = b
  generalize hvalue : x.units * tenTo (-k).toNat * tenTo (-e).toNat = a
  generalize hdecimal : digits * tenTo e.toNat * unitsPerOne * tenTo (-k).toNat = n
  have hb : 0 < b := by
    rw [← hstep]
    exact Nat.mul_pos (Nat.mul_pos (twoTo_pos 1074) (tenTo_pos _)) (tenTo_pos _)
  have hdigits : digits ≤ 999999 := Nat.le_of_lt_succ hdigits
  have hlower : tenTo 5 * b ≤ a := by
    rw [← hstep, ← hvalue, ← Nat.mul_assoc]
    exact Nat.mul_le_mul_right _ hlower
  have hupper : a < tenTo 6 * b := by
    rw [← hstep, ← hvalue, ← Nat.mul_assoc]
    exact Nat.mul_lt_mul_of_pos_right hupper (tenTo_pos _)
  have hunits : x.units * tenTo (-e).toNat * tenTo (-k).toNat = a := by
    rw [← hvalue, Nat.mul_right_comm]
  have habove : twoTo 53 * a ≤ twoTo 53 * n + a := by
    have hscaled := Nat.mul_le_mul_right (tenTo (-k).toNat) habove
    rwa [Nat.add_mul, Nat.mul_assoc (twoTo 53), Nat.mul_assoc (twoTo 53), hunits,
      hdecimal] at hscaled
  have hbelow : twoTo 53 * n ≤ twoTo 53 * a + a := by
    have hscaled := Nat.mul_le_mul_right (tenTo (-k).toNat) hbelow
    rwa [Nat.add_mul, Nat.mul_assoc (twoTo 53), Nat.mul_assoc (twoTo 53), hunits,
      hdecimal] at hscaled
  rcases Int.lt_or_le e k with hlt | hge
  · obtain ⟨j, hj⟩ := Int.le.dest (Int.le_of_lt hlt)
    refine (not_near_below hb hdigits (j := j) (by omega) ?_ hlower habove).elim
    have hexponents : e.toNat + (-k).toNat + j = k.toNat + (-e).toNat := by omega
    calc n * tenTo j
        = digits * unitsPerOne * tenTo (e.toNat + (-k).toNat + j) := by
          rw [← hdecimal, tenTo_add, tenTo_add]
          ring
      _ = digits * b := by
          rw [hexponents, tenTo_add, ← hstep]
          ring
  · obtain ⟨j, hj⟩ := Int.le.dest hge
    have hn : n = digits * tenTo j * b := by
      have hexponents : e.toNat + (-k).toNat = k.toNat + (-e).toNat + j := by omega
      calc n = digits * unitsPerOne * tenTo (e.toNat + (-k).toNat) := by
            rw [← hdecimal, tenTo_add]
            ring
        _ = digits * tenTo j * b := by
            rw [hexponents, tenTo_add, tenTo_add, ← hstep]
            ring
    rw [hn] at habove hbelow
    refine ⟨j, ?_⟩
    rw [← roundHalfEven_scale _ _ (tenTo_pos (-e).toNat), hvalue, hstep,
      roundHalfEven_of_near hb hupper habove hbelow, Decimal.mk.injEq]
    exact ⟨rfl, by dsimp only; omega⟩

/-- The decimal of six digits nearest to a number may have come to be the
next power of ten. -/
theorem significant_le (hx : x.units ≠ 0) : (x.significant 6).digits ≤ tenTo 6 := by
  have hstep : 0 < unitsPerOne * tenTo (x.lastExponent 6).toNat :=
    Nat.mul_pos (twoTo_pos 1074) (tenTo_pos _)
  rw [significant_eq]
  dsimp only
  exact roundHalfEven_le (Nat.le_of_lt (lastExponent_spec hx 5).2) hstep

end Binary64

end ScriptSplice
