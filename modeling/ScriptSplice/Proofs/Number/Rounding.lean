import ScriptSplice.Number.Rounding
/-!
# Rounding to binary numbers

A magnitude is rounded to a whole number of last places, and the fields of
the number nearest to it are made from this count and the last place. What
the fields stand for is the count times the last place
(`Binary64.units_ofUnits`), so rounding is off by half a last place at the
most, and it depends on the magnitude alone, not on how the quotient is
written (`Binary64.ofRatio?_scale`). Conversely sign and magnitude of a
number determine its bits.
-/

namespace ScriptSplice

/-! ## Powers of two -/

theorem twoTo_11 : twoTo 11 = 2048 := rfl

theorem twoTo_52 : twoTo 52 = 4503599627370496 := rfl

theorem twoTo_53 : twoTo 53 = 9007199254740992 := rfl

theorem twoTo_63 : twoTo 63 = 9223372036854775808 := rfl

theorem twoTo_64 : twoTo 64 = 18446744073709551616 := rfl

theorem twoTo_pos (n : Nat) : 0 < twoTo n := Nat.two_pow_pos n

theorem twoTo_add (m n : Nat) : twoTo (m + n) = twoTo m * twoTo n := Nat.pow_add 2 m n

theorem twoTo_le {m n : Nat} (h : m ≤ n) : twoTo m ≤ twoTo n :=
  Nat.pow_le_pow_right (by decide) h

/-! ## The nearest whole number -/

section

variable {num den : Nat}

theorem roundHalfEven_cases (num den : Nat) :
    (roundHalfEven num den = num / den ∧ 2 * (num % den) ≤ den) ∨
      (roundHalfEven num den = num / den + 1 ∧ den ≤ 2 * (num % den)) := by
  unfold roundHalfEven
  dsimp only
  split
  · exact .inl ⟨rfl, by omega⟩
  · split
    · exact .inr ⟨rfl, by omega⟩
    · have hhalf : 2 * (num % den) = den := by omega
      rcases Nat.mod_two_eq_zero_or_one (num / den) with heven | hodd
      · exact .inl ⟨by rw [heven, Nat.add_zero], by omega⟩
      · exact .inr ⟨by rw [hodd], by omega⟩

/-- **Half a step at the most.** -/
theorem roundHalfEven_near (num : Nat) (hden : 0 < den) :
    2 * (roundHalfEven num den * den) ≤ 2 * num + den ∧
      2 * num ≤ 2 * (roundHalfEven num den * den) + den := by
  have hdiv : num / den * den + num % den = num := Nat.div_add_mod' num den
  have hmod : num % den < den := Nat.mod_lt num hden
  rcases roundHalfEven_cases num den with ⟨heq, hle⟩ | ⟨heq, hle⟩
  · rw [heq]
    omega
  · rw [heq, Nat.add_one_mul (num / den)]
    omega

/-- What is nearer than half a step is the nearest. -/
theorem roundHalfEven_eq {k : Nat} (hden : 0 < den) (habove : 2 * (k * den) < 2 * num + den)
    (hbelow : 2 * num < 2 * (k * den) + den) : roundHalfEven num den = k := by
  obtain ⟨hle, hge⟩ := roundHalfEven_near num hden
  generalize roundHalfEven num den = r at hle hge
  rcases Nat.lt_trichotomy r k with hlt | rfl | hlt
  · have hstep := Nat.mul_le_mul_right den hlt
    rw [Nat.succ_mul] at hstep
    omega
  · rfl
  · have hstep := Nat.mul_le_mul_right den hlt
    rw [Nat.succ_mul] at hstep
    omega

/-- A whole number is its own nearest. -/
theorem roundHalfEven_mul (k : Nat) (hden : 0 < den) : roundHalfEven (k * den) den = k :=
  roundHalfEven_eq hden (by omega) (by omega)

theorem roundHalfEven_zero (hden : 0 < den) : roundHalfEven 0 den = 0 := by
  simpa using roundHalfEven_mul 0 hden

/-- Rounding does not pass a whole number. -/
theorem le_roundHalfEven {k : Nat} (h : k * den ≤ num) (hden : 0 < den) :
    k ≤ roundHalfEven num den := by
  have hle : k ≤ num / den := (Nat.le_div_iff_mul_le hden).2 h
  rcases roundHalfEven_cases num den with ⟨heq, -⟩ | ⟨heq, -⟩ <;> omega

theorem roundHalfEven_le {k : Nat} (h : num ≤ k * den) (hden : 0 < den) :
    roundHalfEven num den ≤ k := by
  rcases Nat.lt_or_ge num (k * den) with hlt | hge
  · have hdiv : num / den < k := (Nat.div_lt_iff_lt_mul hden).2 hlt
    rcases roundHalfEven_cases num den with ⟨heq, -⟩ | ⟨heq, -⟩ <;> omega
  · obtain rfl : num = k * den := Nat.le_antisymm h hge
    exact Nat.le_of_eq (roundHalfEven_mul k hden)

/-- Rounding depends on the quotient alone. -/
theorem roundHalfEven_scale (num den : Nat) {c : Nat} (hc : 0 < c) :
    roundHalfEven (num * c) (den * c) = roundHalfEven num den := by
  have htwice : 2 * (num % den * c) = 2 * (num % den) * c := (Nat.mul_assoc 2 _ c).symm
  have hlt : 2 * (num % den) * c < den * c ↔ 2 * (num % den) < den := Nat.mul_lt_mul_right hc
  have hgt : den * c < 2 * (num % den) * c ↔ den < 2 * (num % den) := Nat.mul_lt_mul_right hc
  unfold roundHalfEven
  simp only [Nat.mul_div_mul_right _ _ hc, Nat.mul_mod_mul_right, htwice, hlt, hgt]

end

namespace Binary64

/-! ## Fields -/

section

variable {negative : Bool} {fields : Nat}

/-- Sign and fields do not overlap. -/
theorem toNat_ofFields (h : fields < twoTo 63) :
    (ofFields negative fields).bits.toNat = fields + if negative then twoTo 63 else 0 := by
  have hsum : fields + (if negative then twoTo 63 else 0) < 2 ^ 64 := by
    rw [twoTo_63] at *
    split <;> omega
  exact UInt64.toNat_ofNat_of_lt' hsum

theorem negative_ofFields (h : fields < twoTo 63) :
    (ofFields negative fields).negative = negative := by
  rw [Binary64.negative, toNat_ofFields h]
  cases negative <;> simp
  omega

theorem exponentField_ofFields (h : fields < twoTo 63) :
    (ofFields negative fields).exponentField = fields / twoTo 52 := by
  rw [exponentField, toNat_ofFields h]
  rw [twoTo_63] at *
  rw [twoTo_52, twoTo_11]
  split <;> omega

theorem fraction_ofFields (h : fields < twoTo 63) :
    (ofFields negative fields).fraction = fields % twoTo 52 := by
  rw [fraction, toNat_ofFields h]
  rw [twoTo_63] at *
  rw [twoTo_52]
  split <;> omega

theorem lt_twoTo_63_of_le_infinityFields (h : fields ≤ infinityFields) : fields < twoTo 63 := by
  rw [infinityFields, twoTo_52] at h
  rw [twoTo_63]
  omega

/-- Fields up to those of infinity are those of infinity or finite. -/
theorem isFinite_ofFields (h : fields ≤ infinityFields)
    (hinfinite : (ofFields negative fields).isInfinite = false) :
    (ofFields negative fields).isFinite = true := by
  have hfields := lt_twoTo_63_of_le_infinityFields h
  rw [infinityFields, twoTo_52] at h
  rw [isInfinite, exponentField_ofFields hfields, fraction_ofFields hfields,
    Bool.and_eq_false_iff, beq_eq_false_iff_ne, beq_eq_false_iff_ne] at hinfinite
  rw [isFinite, exponentField_ofFields hfields, bne_iff_ne]
  rw [twoTo_52] at *
  omega

/-- Fields below those of infinity are finite. -/
theorem isInfinite_ofFields_of_lt (h : fields < infinityFields) :
    (ofFields negative fields).isInfinite = false := by
  have hfields := lt_twoTo_63_of_le_infinityFields (Nat.le_of_lt h)
  rw [infinityFields, twoTo_52] at h
  rw [isInfinite, exponentField_ofFields hfields, Bool.and_eq_false_iff, beq_eq_false_iff_ne]
  rw [twoTo_52]
  omega

end

theorem isFinite_iff (x : Binary64) :
    x.isFinite = true ↔ x.isNaN = false ∧ x.isInfinite = false := by
  rw [isFinite, isNaN, isInfinite, bne, bne]
  cases x.exponentField == 2047 <;> cases x.fraction == 0 <;> decide

/-- The bits of a number are its sign and its fields. -/
theorem toNat_bits (x : Binary64) : x.bits.toNat =
    (if x.negative then twoTo 63 else 0) + x.exponentField * twoTo 52 + x.fraction := by
  have hbits := x.bits.toNat_lt
  rw [negative, exponentField, fraction]
  rw [twoTo_63, twoTo_52, twoTo_11]
  simp only [decide_eq_true_eq]
  split <;> omega

theorem ext_fields {x y : Binary64} (hnegative : x.negative = y.negative)
    (hexponent : x.exponentField = y.exponentField) (hfraction : x.fraction = y.fraction) :
    x = y := by
  have hbits : x.bits = y.bits := by
    rw [← UInt64.toNat_inj, toNat_bits x, toNat_bits y, hnegative, hexponent, hfraction]
  cases x
  cases y
  cases hbits
  rfl

theorem fraction_lt (x : Binary64) : x.fraction < twoTo 52 := Nat.mod_lt _ (twoTo_pos 52)

/-- A larger exponent makes a larger number. -/
theorem units_lt_of_exponentField_lt {x y : Binary64} (h : x.exponentField < y.exponentField) :
    x.units < y.units := by
  have hx := x.fraction_lt
  have hlower : twoTo 52 * twoTo y.scale ≤ y.units := by
    rw [units, significand, if_neg (by omega)]
    exact Nat.mul_le_mul_right _ (Nat.le_add_right _ _)
  refine Nat.lt_of_lt_of_le ?_ hlower
  rw [units, significand, scale, scale]
  split
  · rename_i hzero
    rw [hzero]
    calc x.fraction * twoTo (0 - 1) = x.fraction := Nat.mul_one _
      _ < twoTo 52 * 1 := by omega
      _ ≤ twoTo 52 * twoTo (y.exponentField - 1) := Nat.mul_le_mul_left _ (twoTo_pos _)
  · calc (twoTo 52 + x.fraction) * twoTo (x.exponentField - 1)
        < (twoTo 52 + twoTo 52) * twoTo (x.exponentField - 1) :=
          Nat.mul_lt_mul_of_pos_right (by omega) (twoTo_pos _)
      _ = twoTo 52 * twoTo (x.exponentField - 1 + 1) := by
          rw [twoTo_add (x.exponentField - 1) 1]
          change _ = twoTo 52 * (twoTo (x.exponentField - 1) * 2)
          rw [Nat.mul_comm _ 2, ← Nat.mul_assoc, Nat.mul_two]
      _ ≤ twoTo 52 * twoTo (y.exponentField - 1) :=
          Nat.mul_le_mul_left _ (twoTo_le (by omega))

/-- **Sign and magnitude determine a number.** -/
theorem eq_of_units {x y : Binary64} (hnegative : x.negative = y.negative)
    (hunits : x.units = y.units) : x = y := by
  have hexponent : x.exponentField = y.exponentField := by
    rcases Nat.lt_trichotomy x.exponentField y.exponentField with hlt | heq | hlt
    · exact absurd hunits (Nat.ne_of_lt (units_lt_of_exponentField_lt hlt))
    · exact heq
    · exact absurd hunits (Nat.ne_of_gt (units_lt_of_exponentField_lt hlt))
  refine ext_fields hnegative hexponent ?_
  have hsignificand : x.significand = y.significand := by
    rw [units, units, scale, scale, hexponent] at hunits
    exact Nat.eq_of_mul_eq_mul_right (twoTo_pos _) hunits
  rw [significand, significand, hexponent] at hsignificand
  split at hsignificand <;> omega

/-! ## The last place -/

section

variable {num den : Nat}

/-- At its last place a magnitude has 53 digits, or fewer if the place is
the last one there is. -/
theorem lastPlace_spec (num : Nat) (hden : 0 < den) :
    num < den * twoTo (lastPlace num den + 53) ∧
      (lastPlace num den = 0 ∨ den * twoTo (lastPlace num den + 52) ≤ num) := by
  have hlt : num < den * (num / den + 1) := Nat.lt_mul_div_succ num hden
  have hle : den * (num / den) ≤ num := Nat.mul_div_le num den
  have hlog : num / den < twoTo ((num / den).log2 + 1) := Nat.lt_log2_self
  refine ⟨?_, ?_⟩
  · refine Nat.lt_of_lt_of_le hlt (Nat.mul_le_mul_left den ?_)
    exact Nat.le_trans hlog (twoTo_le (by rw [lastPlace]; omega))
  · rcases Nat.lt_or_ge 52 (num / den).log2 with hbig | hsmall
    · refine .inr (Nat.le_trans (Nat.mul_le_mul_left den ?_) hle)
      have hne : num / den ≠ 0 := by
        rintro hzero
        rw [hzero] at hbig
        exact absurd hbig (by decide)
      rw [lastPlace, Nat.sub_add_cancel (Nat.le_of_lt hbig)]
      exact Nat.log2_self_le hne
    · exact .inl (by rw [lastPlace]; omega)

/-- How many last places a magnitude is rounded to. -/
def places (num den : Nat) : Nat := roundHalfEven num (den * twoTo (lastPlace num den))

theorem places_bounds (num : Nat) (hden : 0 < den) :
    places num den ≤ twoTo 53 ∧ (lastPlace num den = 0 ∨ twoTo 52 ≤ places num den) := by
  obtain ⟨hlt, hge⟩ := lastPlace_spec num hden
  have hstep : 0 < den * twoTo (lastPlace num den) := Nat.mul_pos hden (twoTo_pos _)
  refine ⟨roundHalfEven_le ?_ hstep, hge.imp_right fun hge => le_roundHalfEven ?_ hstep⟩
  · rw [Nat.add_comm, twoTo_add, Nat.mul_left_comm] at hlt
    exact Nat.le_of_lt hlt
  · rwa [Nat.add_comm, twoTo_add, Nat.mul_left_comm] at hge

/-- The fields that a count of last places becomes: those of a significand
of so many, or, if the count is one digit too long and has carried into the
exponent, those of the next power of two. -/
theorem fields_cases (negative : Bool) {place count : Nat} (hle : count ≤ twoTo 53)
    (hfull : place = 0 ∨ twoTo 52 ≤ count) (hfields : place * twoTo 52 + count < infinityFields) :
    ((ofFields negative (place * twoTo 52 + count)).scale = place ∧
        (ofFields negative (place * twoTo 52 + count)).significand = count) ∨
      (count = twoTo 53 ∧
        (ofFields negative (place * twoTo 52 + count)).exponentField = place + 2 ∧
        (ofFields negative (place * twoTo 52 + count)).fraction = 0) := by
  have hbound := lt_twoTo_63_of_le_infinityFields (Nat.le_of_lt hfields)
  rw [scale, significand, exponentField_ofFields hbound, fraction_ofFields hbound]
  rw [twoTo_53] at *
  rcases Nat.lt_or_ge count (twoTo 52) with hsmall | hlarge
  · obtain rfl : place = 0 := hfull.resolve_right (by omega)
    rw [Nat.zero_mul, Nat.zero_add, Nat.div_eq_of_lt hsmall, Nat.mod_eq_of_lt hsmall, if_pos rfl]
    exact .inl ⟨rfl, rfl⟩
  · rcases Nat.lt_or_ge count 9007199254740992 with hnormal | hcarry
    · have hdiv : (place * twoTo 52 + count) / twoTo 52 = place + 1 := by
        rw [twoTo_52] at *
        omega
      have hmod : twoTo 52 + (place * twoTo 52 + count) % twoTo 52 = count := by
        rw [twoTo_52] at *
        omega
      rw [hdiv, if_neg (Nat.succ_ne_zero _), hmod, Nat.add_sub_cancel]
      exact .inl ⟨rfl, rfl⟩
    · rw [twoTo_52] at *
      exact .inr ⟨by omega, by omega, by omega⟩

/-- **What the fields stand for**: so many last places. -/
theorem units_ofFields {negative : Bool} {place count : Nat} (hle : count ≤ twoTo 53)
    (hfull : place = 0 ∨ twoTo 52 ≤ count) (hfields : place * twoTo 52 + count < infinityFields) :
    (ofFields negative (place * twoTo 52 + count)).units = count * twoTo place := by
  rcases fields_cases negative hle hfull hfields with
    ⟨hscale, hsignificand⟩ | ⟨hcount, hexponent, hfraction⟩
  · rw [units, hscale, hsignificand]
  · rw [units, significand, scale, hexponent, hfraction, if_neg (Nat.succ_ne_zero _), hcount]
    change twoTo 52 * twoTo (place + 1) = twoTo (52 + 1) * twoTo place
    rw [← twoTo_add, ← twoTo_add, Nat.add_right_comm, Nat.add_assoc]

/-- Where the fields stay below those of infinity they are the fields of
the nearest number. -/
theorem ofUnits_of_lt {negative : Bool}
    (h : lastPlace num den * twoTo 52 + places num den < infinityFields) :
    ofUnits negative num den =
      ofFields negative (lastPlace num den * twoTo 52 + places num den) :=
  congrArg (ofFields negative) (Nat.min_eq_left (Nat.le_of_lt h))

/-- They do unless the nearest number is infinite. -/
theorem lt_infinityFields_iff {negative : Bool} :
    lastPlace num den * twoTo 52 + places num den < infinityFields ↔
      (ofUnits negative num den).isInfinite = false := by
  refine ⟨fun h => ofUnits_of_lt h ▸ isInfinite_ofFields_of_lt h, fun hfinite => ?_⟩
  refine Nat.lt_of_not_le fun hle => ?_
  have hinfinity : ofUnits negative num den = ofFields negative infinityFields :=
    congrArg (ofFields negative) (Nat.min_eq_right hle)
  rw [hinfinity] at hfinite
  cases negative <;> exact absurd hfinite (by decide)

/-- **The magnitude of the nearest number** is as many last places as the
magnitude was rounded to. -/
theorem units_ofUnits {negative : Bool} (hden : 0 < den)
    (hfinite : (ofUnits negative num den).isInfinite = false) :
    (ofUnits negative num den).units = places num den * twoTo (lastPlace num den) := by
  obtain ⟨hle, hfull⟩ := places_bounds num hden
  have hlt := lt_infinityFields_iff.2 hfinite
  rw [ofUnits_of_lt hlt, units_ofFields hle hfull hlt]

theorem negative_ofUnits (negative : Bool) (num den : Nat) :
    (ofUnits negative num den).negative = negative :=
  negative_ofFields (lt_twoTo_63_of_le_infinityFields (Nat.min_le_right _ _))

/-! ## Quotients -/

theorem lastPlace_scale (num den : Nat) {c : Nat} (hc : 0 < c) :
    lastPlace (num * c) (den * c) = lastPlace num den := by
  rw [lastPlace, Nat.mul_div_mul_right _ _ hc, lastPlace]

theorem ofUnits_scale (negative : Bool) (num den : Nat) {c : Nat} (hc : 0 < c) :
    ofUnits negative (num * c) (den * c) = ofUnits negative num den := by
  have hstep : den * c * twoTo (lastPlace num den) = den * twoTo (lastPlace num den) * c :=
    Nat.mul_right_comm ..
  unfold ofUnits
  dsimp only
  rw [lastPlace_scale num den hc, hstep, roundHalfEven_scale _ _ hc]

end

end Binary64

end ScriptSplice
