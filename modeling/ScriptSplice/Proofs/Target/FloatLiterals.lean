import ScriptSplice.Proofs.Number.Shortest
import ScriptSplice.Proofs.Tree.Forms
/-!
# What float literals denote

The shortest digits of a finite number can be set out with an exponent of
ten, one digit before the point (`Leaf.scientificStyle`), and are the
correctly rounded value of the number written so. A literal has the same
sign and the same value (`Leaf.float_literal`). It has the exponent only if
this is below `-4` or at least `16`, and is the scientific form itself then;
otherwise its digits stand around a point, with no zeros that say nothing.
-/

namespace ScriptSplice

namespace Decimal

/-- Zeros at the end make no difference. -/
theorem value_zeros (digits : Nat) (exponent : Int) (k : Nat) :
    (Decimal.mk (digits * tenTo k) (exponent - k)).value = (Decimal.mk digits exponent).value := by
  have hten : (10 : ℚ) ≠ 0 := by decide
  have hpower : (tenTo k : ℚ) = (10 : ℚ) ^ (k : Int) := by
    rw [← tenTo_eq_zpow (Int.natCast_nonneg k)]
    rfl
  rw [value, value]
  push_cast
  rw [hpower, mul_assoc, ← zpow_add₀ hten, add_sub_cancel]

/-- The layout of a decimal has its value. -/
theorem value_layout (d : Decimal) :
    (Decimal.mk (Text.digitsValue d.layout.1) (d.layout.2 + 1 - d.layout.1.length)).value =
      d.value := by
  obtain ⟨k, hk⟩ := d.exists_layout
  rw [← value_zeros _ _ k, ← hk]

end Decimal

/-- The first digit of a number is zero for zero alone. -/
theorem Text.head?_ofNat {n : Nat} (hn : n ≠ 0) : (ofNat n).head? ≠ some 0x30 := by
  induction n using Nat.strongRecOn with
  | ind n ih =>
    rcases Nat.lt_or_ge n 10 with h | h
    · have hdigit : ∀ n, n < 10 → n ≠ 0 → digit n ≠ 0x30 := by decide
      rw [ofNat_of_lt h]
      exact fun heq => hdigit n h hn (Option.some.inj heq)
    · rw [ofNat_of_le h, List.head?_append_of_ne_nil _ (ofNat_ne_nil _)]
      exact ih (n / 10) (by omega) (by omega)

/-- Digits without zeros at either end, or a single zero. -/
def Text.IsTrimmed (digits : Text) : Prop :=
  digits = ascii "0" ∨ (digits.head? ≠ some 0x30 ∧ digits.getLast? ≠ some 0x30)

/-- **The layout of a decimal that is not zero** neither begins nor ends with
a zero. -/
theorem Decimal.layout_trimmed {d : Decimal} (hd : d.digits ≠ 0) :
    d.layout.1.head? ≠ some 0x30 ∧ d.layout.1.getLast? ≠ some 0x30 := by
  obtain ⟨k, hk⟩ := exists_kept (Text.ofNat d.digits)
  have hlast := List.head?_dropWhile_not (· == (0x30 : UInt8)) (Text.ofNat d.digits).reverse
  have hhead := Text.head?_ofNat hd
  have hvalue := Text.digitsValue_ofNat d.digits
  rw [← List.getLast?_reverse] at hlast
  unfold layout
  dsimp only
  generalize ((Text.ofNat d.digits).reverse.dropWhile (· == 0x30)).reverse = kept at *
  split
  · rename_i hempty
    rw [hk, List.isEmpty_iff.1 hempty, List.nil_append, Text.digitsValue_zeros] at hvalue
    exact absurd hvalue.symm hd
  · rename_i hmore
    rw [hk, List.head?_append_of_ne_nil _ (mt List.isEmpty_iff.2 hmore)] at hhead
    refine ⟨hhead, fun heq => ?_⟩
    rw [heq] at hlast
    exact absurd hlast (by decide)

namespace Numeral

namespace Form

/-- **The scientific form of numerals**: one digit before the point, no zero
at the end of those behind it, and an exponent of two digits at least. The
first digit is zero for zero alone. -/
structure IsScientific (f : Form) : Prop where
  sign : f.sign ≠ .plus
  digit : f.whole.length = 1
  leading : f.whole = ascii "0" → f.value = 0
  fraction : ∀ t ∈ f.fraction, t ≠ [] ∧ t.getLast? ≠ some 0x30
  exponent : ∃ e, f.exponent = some e ∧ e.capital = false ∧ e.sign ≠ .absent ∧
    2 ≤ e.digits.length

/-- **The positional form of numerals**: digits on either side of the point,
and no zero before or behind them but a single one. -/
structure IsPositional (f : Form) : Prop where
  sign : f.sign ≠ .plus
  exponent : f.exponent = none
  whole : f.whole ≠ [] ∧ (f.whole = ascii "0" ∨ f.whole.head? ≠ some 0x30)
  fraction : ∃ t, f.fraction = some t ∧ t ≠ [] ∧ (t = ascii "0" ∨ t.getLast? ≠ some 0x30)

variable {f : Form}

/-- The scientific form has the letter of its exponent. -/
theorem IsScientific.letter_mem (h : f.IsScientific) : 0x65 ∈ f.text := by
  obtain ⟨e, hexponent, hcapital, -⟩ := h.exponent
  simp [text, unsigned, hexponent, Exponent.text, Exponent.letter, hcapital]

/-- The positional form has a point. -/
theorem IsPositional.point_mem (h : f.IsPositional) : 0x2e ∈ f.text := by
  obtain ⟨t, ht, -⟩ := h.fraction
  simp [text, unsigned, ht]

theorem IsScientific.not_isPositional (h : f.IsScientific) : ¬f.IsPositional := by
  obtain ⟨e, hexponent, -⟩ := h.exponent
  intro hpositional
  rw [hpositional.exponent] at hexponent
  cases hexponent

end Form

/-- **Every exponent is written** with its sign and the digits of its
magnitude. -/
theorem exists_signed_exponent {power : Text} {exponent : Int}
    (hpower : power.all Byte.isDigit = true)
    (hvalue : Text.digitsValue power = exponent.natAbs) :
    ∃ e : Exponent, e.capital = false ∧ e.sign ≠ .absent ∧ e.digits = power ∧
      e.value = exponent ∧
      e.text = (if exponent < 0 then ascii "e-" else ascii "e+") ++ power := by
  refine ⟨⟨false, if exponent < 0 then .minus else .plus, power, hpower⟩, rfl, ?_, rfl, ?_, ?_⟩
  · split <;> exact fun h => by cases h
  · rw [Exponent.value, hvalue]
    split <;> simp only [Sign.isMinus, if_true, Bool.false_eq_true, if_false] <;> omega
  · split <;> rfl

/-- **Digits behind the point**: without any there is no point either. -/
theorem exists_fraction_digits (t : Text) :
    ∃ fraction : Option Text, fraction.getD [] = t ∧
      fraction.elim [] (0x2e :: ·) = (if t.isEmpty then [] else ascii "." ++ t) ∧
      ∀ u ∈ fraction, u = t ∧ t ≠ [] := by
  cases t with
  | nil => exact ⟨none, rfl, rfl, fun u hu => by cases hu⟩
  | cons c t =>
    refine ⟨some (c :: t), rfl, rfl, fun u hu => ?_⟩
    obtain rfl := Option.some.inj hu
    exact ⟨rfl, List.cons_ne_nil _ _⟩

variable {s : Sign} {digits : Text}

/-- **Digits set out with an exponent** are a numeral in the scientific
form. -/
theorem exists_form_scientific (hs : s ≠ .plus) (hne : digits ≠ [])
    (h : digits.all Byte.isDigit = true) (htrimmed : digits.IsTrimmed) (exponent : Int) :
    ∃ f : Form, f.sign = s ∧ f.text = s.text ++ Decimal.scientific digits exponent ∧
      f.power = exponent ∧ f.IsScientific ∧
      f.decimal = ⟨Text.digitsValue digits, exponent + 1 - digits.length⟩ := by
  obtain ⟨b, t, power, rfl, hb, ht, hpower, hlength, hvalue, htext⟩ :=
    Decimal.exists_scientific hne h exponent
  have hwhole : [b].all Byte.isDigit = true := by
    rw [List.all_cons, hb]
    rfl
  obtain ⟨e, hcapital, hsign, hpowerDigits, hpowerValue, hexponent⟩ :=
    exists_signed_exponent hpower hvalue
  obtain ⟨fraction, hdigits, hpoint, hmem⟩ := exists_fraction_digits t
  have hfraction : ∀ u ∈ fraction, u.all Byte.isDigit = true := fun u hu => (hmem u hu).1 ▸ ht
  have hdecimal : Form.decimal ⟨s, [b], fraction, some e, hwhole, hfraction⟩ =
      ⟨Text.digitsValue (b :: t), exponent + 1 - ((b :: t).length : Nat)⟩ := by
    change Decimal.mk (Text.digitsValue ([b] ++ fraction.getD []))
      (e.value - ((fraction.getD []).length : Int)) = _
    rw [hdigits, hpowerValue, Decimal.mk.injEq, List.length_cons]
    exact ⟨rfl, by push_cast; omega⟩
  refine ⟨⟨s, [b], fraction, some e, hwhole, hfraction⟩, rfl, ?_, hpowerValue,
    ⟨hs, rfl, fun hzero => ?_, fun u hu => ?_, e, rfl, hcapital, hsign,
      hpowerDigits ▸ hlength⟩,
    hdecimal⟩
  · change s.text ++ ([b] ++ (fraction.elim [] (0x2e :: ·) ++ e.text)) = _
    rw [hpoint, hexponent, htext, List.append_assoc]
  · obtain rfl : b = 0x30 := (List.cons.inj hzero).1
    rcases htrimmed with htrimmed | ⟨hhead, -⟩
    · rw [Form.value, hdecimal, htrimmed]
      exact signed_zero (Decimal.value_of_digits rfl)
    · exact absurd rfl hhead
  · obtain ⟨rfl, hne⟩ := hmem u hu
    refine ⟨hne, fun hlast => ?_⟩
    rcases htrimmed with htrimmed | ⟨-, hlast'⟩
    · exact hne (List.cons.inj htrimmed).2
    · rw [← List.singleton_append, List.getLast?_append_of_ne_nil _ hne] at hlast'
      exact hlast' hlast

/-- **Digits set out around a point** are a numeral in the positional form,
of the same value. -/
theorem exists_form_positional (hs : s ≠ .plus) (hne : digits ≠ [])
    (h : digits.all Byte.isDigit = true) (htrimmed : digits.IsTrimmed) {exponent : Int}
    (hzero : digits = ascii "0" → exponent = 0) :
    ∃ g : Form, g.sign = s ∧ g.text = s.text ++ Decimal.positional digits exponent ∧
      g.IsPositional ∧ g.value = signed s.isMinus
        (Decimal.mk (Text.digitsValue digits) (exponent + 1 - digits.length)).value := by
  rcases htrimmed with rfl | ⟨hhead, hlast⟩
  · obtain rfl := hzero rfl
    have hdigit : (ascii "0").all Byte.isDigit = true := rfl
    refine ⟨⟨s, ascii "0", some (ascii "0"), none, rfl, fun u hu => Option.some.inj hu ▸ hdigit⟩,
      rfl, rfl, ⟨hs, rfl, ⟨List.cons_ne_nil _ _, .inl rfl⟩, _, rfl, List.cons_ne_nil _ _, .inl rfl⟩,
      ?_⟩
    rw [Form.value, signed_zero (Decimal.value_of_digits rfl),
      signed_zero (Decimal.value_of_digits rfl)]
  · obtain ⟨whole, fraction, k, hwholene, hfractionne, hwhole, hfraction, hfirst, hfinal, hvalue,
      hlength, htext⟩ := Decimal.exists_positional hne h exponent
    refine ⟨⟨s, whole, some fraction, none, hwhole, fun u hu => Option.some.inj hu ▸ hfraction⟩,
      rfl, ?_, ⟨hs, rfl, ⟨hwholene, ?_⟩, fraction, rfl, hfractionne, ?_⟩, ?_⟩
    · change s.text ++ (whole ++ (0x2e :: fraction ++ [])) = _
      rw [List.append_nil, htext, List.append_assoc]
      rfl
    · rcases hfirst with heq | heq
      · exact .inl heq
      · exact .inr fun hzero => hhead (heq.symm.trans hzero)
    · rcases hfinal with heq | heq
      · exact .inl heq
      · exact .inr fun hzero => hlast (heq.symm.trans hzero)
    · have hdecimal : Form.decimal ⟨s, whole, some fraction, none, hwhole,
          fun u hu => Option.some.inj hu ▸ hfraction⟩ =
            ⟨Text.digitsValue digits * tenTo k, exponent + 1 - digits.length - k⟩ := by
        change Decimal.mk (Text.digitsValue (whole ++ fraction)) (0 - (fraction.length : Int)) = _
        rw [hvalue, Int.zero_sub, hlength]
      rw [Form.value, hdecimal, Decimal.value_zeros]

/-- **The two forms of the same digits.** Where the exponent is small, they
are set out around a point, with the value and the sign of the scientific
form; elsewhere there is no other form. -/
theorem exists_forms (hs : s ≠ .plus) (hne : digits ≠ []) (h : digits.all Byte.isDigit = true)
    (htrimmed : digits.IsTrimmed) {exponent : Int} (hzero : digits = ascii "0" → exponent = 0) :
    ∃ f g : Form, s.text ++ Decimal.scientific digits exponent = f.text ∧
      (s.text ++ if exponent < -4 ∨ 16 ≤ exponent then Decimal.scientific digits exponent
        else Decimal.positional digits exponent) = g.text ∧
      f.IsScientific ∧ f.sign = s ∧ f.value = signed s.isMinus
        (Decimal.mk (Text.digitsValue digits) (exponent + 1 - digits.length)).value ∧
      g.sign = f.sign ∧ g.value = f.value ∧ (0x2e ∈ g.text ∨ 0x65 ∈ g.text) ∧
      (g.IsPositional ↔ -4 ≤ f.power ∧ f.power < 16) ∧
      (¬(-4 ≤ f.power ∧ f.power < 16) → g = f) := by
  obtain ⟨f, hfsign, hftext, rfl, hf, hfdecimal⟩ :=
    exists_form_scientific hs hne h htrimmed exponent
  have hfvalue : f.value = signed s.isMinus
      (Decimal.mk (Text.digitsValue digits) (f.power + 1 - digits.length)).value := by
    rw [Form.value, hfdecimal, hfsign]
  by_cases hrange : -4 ≤ f.power ∧ f.power < 16
  · obtain ⟨g, hgsign, hgtext, hg, hgvalue⟩ := exists_form_positional hs hne h htrimmed hzero
    rw [if_neg (by omega)]
    exact ⟨f, g, hftext.symm, hgtext.symm, hf, hfsign, hfvalue, hgsign.trans hfsign.symm,
      hgvalue.trans hfvalue.symm, .inl hg.point_mem, iff_of_true hg hrange,
      fun hnot => absurd hrange hnot⟩
  · rw [if_pos (by omega)]
    exact ⟨f, f, hftext.symm, hftext.symm, hf, hfsign, hfvalue, rfl, rfl, .inr hf.letter_mem,
      iff_of_false hf.not_isPositional hrange, fun _ => rfl⟩

end Numeral

namespace Leaf

/-- **The shortest digits with an exponent of ten**, whatever it is. -/
def scientificStyle : FloatStyle := { literalStyle with scientificFrom := -4 }

/-- The decimal whose digits stand in the literal of a number. -/
def literalDecimal (x : Binary64) : Decimal := if x.units = 0 then ⟨0, 0⟩ else x.shortest

variable {x : Binary64}

/-- The number is the correctly rounded one for its shortest digits. -/
theorem isNearest_literalDecimal (hfinite : x.isFinite = true) :
    x.IsNearest (signed x.negative (literalDecimal x).value) := by
  rw [literalDecimal]
  split
  · rename_i hzero
    have hunits : (Binary64.ofFields x.negative 0).units = 0 := by
      cases x.negative <;> decide +kernel
    have hx : Binary64.ofFields x.negative 0 = x :=
      Binary64.eq_of_units (Binary64.negative_ofFields (twoTo_pos 63)) (hunits.trans hzero.symm)
    rw [signed_zero (Decimal.value_of_digits rfl)]
    exact hx ▸ Binary64.isNearest_zero x.negative
  · exact Binary64.isNearest_of_readsBack hfinite (Binary64.readsBack_shortest ‹_›).1

theorem isTrimmed_layout (x : Binary64) :
    (literalDecimal x).layout.1.IsTrimmed ∧
      ((literalDecimal x).layout.1 = ascii "0" → (literalDecimal x).layout.2 = 0) := by
  rw [literalDecimal]
  split
  · exact ⟨.inl (by decide), fun _ => by decide⟩
  · have htrimmed := Decimal.layout_trimmed (Binary64.readsBack_shortest ‹_›).2
    exact ⟨.inr htrimmed, fun hzero => absurd (by rw [hzero]; rfl) htrimmed.1⟩

/-- A style that keeps the shortest digits sets out their layout. -/
theorem render_eq {style : FloatStyle} (hstyle : style.digits = none)
    (hfinite : x.isFinite = true) :
    style.render x = (if x.negative then ascii "-" else []) ++
      if (literalDecimal x).layout.2 < -4 ∨ style.scientificFrom ≤ (literalDecimal x).layout.2 then
        Decimal.scientific (literalDecimal x).layout.1 (literalDecimal x).layout.2
      else Decimal.positional (literalDecimal x).layout.1 (literalDecimal x).layout.2 := by
  obtain ⟨hnan, hinfinite⟩ := (Binary64.isFinite_iff x).1 hfinite
  unfold FloatStyle.render literalDecimal
  rw [hnan, hinfinite, hstyle]
  rfl

/-- **Literals of finite numbers.** Written with an exponent, the shortest
digits of the number are a scientific numeral with its sign, and the number
is the correctly rounded one for it. The literal has the same sign and
value, and a point or an exponent. It is positional exactly if the exponent
is at least `-4` and below `16`, and otherwise the scientific numeral
itself. -/
theorem float_literal (hfinite : x.isFinite = true) :
    ∃ f g : Numeral.Form, scientificStyle.render x = f.text ∧ (float x).literal = g.text ∧
      f.IsScientific ∧ f.sign.isMinus = x.negative ∧ x.IsNearest f.value ∧
      g.sign = f.sign ∧ g.value = f.value ∧ (0x2e ∈ g.text ∨ 0x65 ∈ g.text) ∧
      (g.IsPositional ↔ -4 ≤ f.power ∧ f.power < 16) ∧
      (¬(-4 ≤ f.power ∧ f.power < 16) → g = f) := by
  obtain ⟨hne, hdigits⟩ := (literalDecimal x).layout_digits
  obtain ⟨htrimmed, hzero⟩ := isTrimmed_layout x
  obtain ⟨s, hs, hminus, hsign⟩ : ∃ s : Numeral.Sign, s ≠ .plus ∧ s.isMinus = x.negative ∧
      (if x.negative then ascii "-" else []) = s.text := by
    cases x.negative with
    | true => exact ⟨.minus, by decide, rfl, rfl⟩
    | false => exact ⟨.absent, by decide, rfl, rfl⟩
  have hscientific : scientificStyle.render x =
      s.text ++ Decimal.scientific (literalDecimal x).layout.1 (literalDecimal x).layout.2 := by
    have halways : (literalDecimal x).layout.2 < -4 ∨
        scientificStyle.scientificFrom ≤ (literalDecimal x).layout.2 := Int.lt_or_le _ _
    rw [render_eq rfl hfinite, hsign, if_pos halways]
  have hliteral : (float x).literal = s.text ++
      if (literalDecimal x).layout.2 < -4 ∨ 16 ≤ (literalDecimal x).layout.2 then
        Decimal.scientific (literalDecimal x).layout.1 (literalDecimal x).layout.2
      else Decimal.positional (literalDecimal x).layout.1 (literalDecimal x).layout.2 := by
    rw [literal, render_eq rfl hfinite, hsign]
    rfl
  have hnearest := isNearest_literalDecimal hfinite
  rw [← hminus, ← Decimal.value_layout] at hnearest
  obtain ⟨f, g, hftext, hgtext, hf, hfsign, hfvalue, hg⟩ :=
    Numeral.exists_forms hs hne hdigits htrimmed hzero
  exact ⟨f, g, hscientific.trans hftext, hliteral.trans hgtext, hf, hfsign ▸ hminus,
    hfvalue ▸ hnearest, hg⟩

/-- A tenth is written around a point, with the value of its scientific
numeral. -/
theorem float_literal_tenth :
    (Binary64.mk 0x3fb999999999999a).isFinite = true ∧
      ∃ f g : Numeral.Form, f.text = ascii "1e-01" ∧ g.text = ascii "0.1" ∧ g.value = f.value := by
  have hfinite : (Binary64.mk 0x3fb999999999999a).isFinite = true := by decide
  have hliteral : (float ⟨0x3fb999999999999a⟩).literal = ascii "0.1" := by decide +kernel
  have hscientific : scientificStyle.render ⟨0x3fb999999999999a⟩ = ascii "1e-01" := by
    decide +kernel
  obtain ⟨f, g, hf, hg, -, -, -, -, hvalue, -⟩ := float_literal hfinite
  exact ⟨hfinite, f, g, hf ▸ hscientific, hg ▸ hliteral, hvalue⟩

/-- From `10 ^ 16` on the exponent is written. -/
example : (float ⟨0x4341c37937e08000⟩).literal = ascii "1e+16" := by decide +kernel

end Leaf

end ScriptSplice
