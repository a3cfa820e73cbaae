import Mathlib.Data.List.Basic
import Mathlib.Data.List.Induction
import ScriptSplice.Proofs.Number.Decimals
import ScriptSplice.Proofs.Target.Literals
import ScriptSplice.Proofs.Tree.Numerals
import ScriptSplice.Tree.Printer
import ScriptSplice.Tree.Reader
/-!
# Floating point numbers as they are printed and read

A finite number is printed as the decimal of six digits nearest to it
(`Binary64.printed`). The digits can be set out in two ways, and either is
read as this decimal: a numeral means the digits before and after the
point as one number, and the exponent counts the places it is off by. So
what comes back is the number nearest to those six digits, if there is one
in range (`Numeral.leaf?_render`).
-/

namespace ScriptSplice

/-! ## The value of digits -/

namespace Text

theorem digitsValue_append (t u : Text) :
    digitsValue (t ++ u) = digitsValue t * tenTo u.length + digitsValue u := by
  induction u using List.reverseRecOn with
  | nil =>
    have hone : tenTo ([] : Text).length = 1 := rfl
    rw [List.append_nil, hone, Nat.mul_one]
    rfl
  | append_singleton u b ih =>
    have hlast (v : Text) : digitsValue (v ++ [b]) = 10 * digitsValue v + (b.toNat - 0x30) :=
      List.foldl_append
    rw [← List.append_assoc, hlast, hlast, ih, List.length_append, List.length_singleton,
      tenTo_succ, Nat.mul_left_comm, ← Nat.add_assoc, ← Nat.mul_add]

theorem digitsValue_zeros (k : Nat) : digitsValue (List.replicate k 0x30) = 0 := by
  induction k with
  | zero => rfl
  | succ k ih =>
    rw [List.replicate_succ', digitsValue_append, ih, Nat.zero_mul]
    rfl

theorem digitsValue_append_zeros (t : Text) (k : Nat) :
    digitsValue (t ++ List.replicate k 0x30) = digitsValue t * tenTo k := by
  rw [digitsValue_append, digitsValue_zeros, List.length_replicate, Nat.add_zero]

theorem digitsValue_zeros_append (t : Text) (k : Nat) :
    digitsValue (List.replicate k 0x30 ++ t) = digitsValue t := by
  rw [digitsValue_append, digitsValue_zeros, Nat.zero_mul, Nat.zero_add]

end Text

/-! ## Reading numerals -/

namespace Numeral

/-- A text that does not go on with a digit. -/
def EndsDigits (t : Text) : Prop := t.takeWhile Byte.isDigit = []

theorem takeWhile_digits {t rest : Text} (ht : t.all Byte.isDigit = true)
    (hrest : EndsDigits rest) : (t ++ rest).takeWhile Byte.isDigit = t := by
  rw [List.takeWhile_append_of_pos (List.all_eq_true.1 ht), hrest, List.append_nil]

theorem dropWhile_digits {t rest : Text} (ht : t.all Byte.isDigit = true)
    (hrest : EndsDigits rest) : (t ++ rest).dropWhile Byte.isDigit = rest := by
  have hsplit := List.takeWhile_append_dropWhile (p := Byte.isDigit) (l := rest)
  rw [hrest, List.nil_append] at hsplit
  rw [List.dropWhile_append_of_pos (List.all_eq_true.1 ht), hsplit]

/-- **Digits with a point** among them. -/
theorem decimal?_point {whole fraction : Text} (rest : Text)
    (hwhole : whole.all Byte.isDigit = true) (hfraction : fraction.all Byte.isDigit = true)
    (hne : whole ++ fraction ≠ [])
    (hrest : EndsDigits rest) :
    decimal? (whole ++ ascii "." ++ fraction ++ rest) =
      some ⟨Text.digitsValue (whole ++ fraction), exponent rest - fraction.length⟩ := by
  have hpoint : EndsDigits (0x2e :: (fraction ++ rest)) := rfl
  have htext : whole ++ ascii "." ++ fraction ++ rest = whole ++ 0x2e :: (fraction ++ rest) := by
    rw [List.append_assoc, List.append_assoc]
    rfl
  have hdigits : (whole ++ fraction).isEmpty = false := by simpa using hne
  unfold decimal?
  simp only [htext, takeWhile_digits hwhole hpoint, dropWhile_digits hwhole hpoint,
    takeWhile_digits hfraction hrest, dropWhile_digits hfraction hrest, hdigits]
  rfl

/-- **Digits without a point**, before an exponent. -/
theorem decimal?_whole {whole : Text} (rest : Text) (hwhole : whole.all Byte.isDigit = true)
    (hne : whole ≠ []) :
    decimal? (whole ++ 0x65 :: rest) =
      some ⟨Text.digitsValue whole, exponent (0x65 :: rest)⟩ := by
  have hletter : EndsDigits (0x65 :: rest) := rfl
  unfold decimal?
  simp only [takeWhile_digits hwhole hletter, dropWhile_digits hwhole hletter]
  simp [hne]

/-- Digits behind a sign are read with it. -/
theorem leadingInt_digits {ds : Text} (hds : ds.all Byte.isDigit = true) (hne : ds ≠ []) :
    Text.leadingInt (0x2d :: ds) = some (-(Text.digitsValue ds : Int), []) ∧
      Text.leadingInt (0x2b :: ds) = some ((Text.digitsValue ds : Int), []) := by
  have hend : EndsDigits [] := rfl
  have htake := takeWhile_digits hds hend
  have hdrop := dropWhile_digits hds hend
  rw [List.append_nil] at htake hdrop
  have hminus : (0x2d :: ds).dropWhile Byte.isSpace = 0x2d :: ds := rfl
  have hplus : (0x2b :: ds).dropWhile Byte.isSpace = 0x2b :: ds := rfl
  unfold Text.leadingInt
  simp [hminus, hplus, htake, hdrop, hne]

/-- **A written exponent** is read as itself. -/
theorem exponent_written {e : Int} {ds : Text} (hds : ds.all Byte.isDigit = true) (hne : ds ≠ [])
    (hvalue : Text.digitsValue ds = e.natAbs) :
    exponent ((if e < 0 then ascii "e-" else ascii "e+") ++ ds) = e := by
  obtain ⟨hminus, hplus⟩ := leadingInt_digits hds hne
  split
  · change ((Text.leadingInt (0x2d :: ds)).map (·.1)).getD 0 = e
    rw [hminus, Option.map_some, Option.getD_some, hvalue]
    omega
  · change ((Text.leadingInt (0x2b :: ds)).map (·.1)).getD 0 = e
    rw [hplus, Option.map_some, Option.getD_some, hvalue]
    omega

end Numeral

/-! ## Reading what was set out -/

namespace Decimal

/-- Digits without the zeros at their end. -/
theorem exists_kept (t : Text) :
    ∃ k, t = (t.reverse.dropWhile (· == 0x30)).reverse ++ List.replicate k 0x30 := by
  refine ⟨(t.reverse.takeWhile (· == 0x30)).length, ?_⟩
  have hzeros : t.reverse.takeWhile (· == 0x30) =
      List.replicate (t.reverse.takeWhile (· == 0x30)).length 0x30 :=
    List.eq_replicate_iff.2 ⟨rfl, fun b hb =>
      beq_iff_eq.1 (List.all_eq_true.1 List.all_takeWhile b hb)⟩
  have hsplit := congrArg List.reverse
    (List.takeWhile_append_dropWhile (p := (· == (0x30 : UInt8))) (l := t.reverse))
  rw [List.reverse_append, List.reverse_reverse] at hsplit
  rw [← List.reverse_replicate, ← hzeros]
  exact hsplit.symm

/-- **The layout of a decimal** has its digits but for zeros at the end. -/
theorem exists_layout (d : Decimal) :
    ∃ k : Nat, d = ⟨Text.digitsValue d.layout.1 * tenTo k,
      d.layout.2 + 1 - d.layout.1.length - k⟩ := by
  obtain ⟨k, hk⟩ := exists_kept (Text.ofNat d.digits)
  have hvalue := Text.digitsValue_ofNat d.digits
  rw [hk, Text.digitsValue_append_zeros] at hvalue
  have hlength := congrArg List.length hk
  rw [List.length_append, List.length_replicate] at hlength
  obtain ⟨n, e⟩ := d
  unfold layout
  dsimp only at hk hvalue hlength ⊢
  generalize ((Text.ofNat n).reverse.dropWhile (· == 0x30)).reverse = kept at *
  split
  · rename_i hempty
    rw [List.isEmpty_iff] at hempty
    subst hempty
    have hzero : n = 0 := by
      rw [← hvalue]
      exact Nat.zero_mul _
    refine ⟨0, ?_⟩
    rw [hzero]
    have hone : (Text.ofNat 0).length = 1 := by decide
    rw [hone]
    change Decimal.mk 0 e = Decimal.mk 0 (e + 1 - 1 + 1 - 1 - 0)
    rw [Decimal.mk.injEq]
    omega
  · refine ⟨k, ?_⟩
    rw [hvalue, hlength, Decimal.mk.injEq]
    omega

/-- **The bytes of a number with an exponent of ten**: a digit, the others
behind a point, and the digits of the exponent, two at least, behind its
sign. -/
theorem exists_scientific {digits : Text} (hne : digits ≠ [])
    (h : digits.all Byte.isDigit = true) (exponent : Int) :
    ∃ (b : UInt8) (t power : Text), digits = b :: t ∧ Byte.isDigit b = true ∧
      t.all Byte.isDigit = true ∧ power.all Byte.isDigit = true ∧ 2 ≤ power.length ∧
      Text.digitsValue power = exponent.natAbs ∧
      scientific digits exponent = [b] ++ (if t.isEmpty then [] else ascii "." ++ t) ++
        ((if exponent < 0 then ascii "e-" else ascii "e+") ++ power) := by
  obtain ⟨b, t, rfl⟩ := List.exists_cons_of_ne_nil hne
  rw [List.all_cons, Bool.and_eq_true] at h
  have hpos := List.length_pos_iff.2 (Text.ofNat_ne_nil exponent.natAbs)
  refine ⟨b, t, _, rfl, h.1, h.2, ?_, ?_, ?_, List.append_assoc _ _ _⟩
  all_goals
    have hpower := Text.isDigit_ofNat exponent.natAbs
    split
  · rw [List.all_append, hpower]
    rfl
  · exact hpower
  · rw [List.length_append]
    exact Nat.succ_le_of_lt (Nat.lt_add_of_pos_right hpos)
  · exact Nat.le_of_not_lt ‹_›
  · exact (Text.digitsValue_zeros_append _ 1).trans (Text.digitsValue_ofNat _)
  · exact Text.digitsValue_ofNat _

/-- **The bytes of a number around its point**, with `k` zeros more at the
end than it has digits. Zeros are added as far as the point is away. -/
theorem exists_positional {digits : Text} (hne : digits ≠ [])
    (h : digits.all Byte.isDigit = true) (exponent : Int) :
    ∃ (whole fraction : Text) (k : Nat), whole ≠ [] ∧ fraction ≠ [] ∧
      whole.all Byte.isDigit = true ∧ fraction.all Byte.isDigit = true ∧
      (whole = ascii "0" ∨ whole.head? = digits.head?) ∧
      (fraction = ascii "0" ∨ fraction.getLast? = digits.getLast?) ∧
      Text.digitsValue (whole ++ fraction) = Text.digitsValue digits * tenTo k ∧
      -(fraction.length : Int) = exponent + 1 - digits.length - k ∧
      positional digits exponent = whole ++ ascii "." ++ fraction := by
  have hzeros (k : Nat) : (List.replicate k (0x30 : UInt8)).all Byte.isDigit = true := by
    refine List.all_eq_true.2 fun b hb => ?_
    rw [(List.mem_replicate.1 hb).2]
    rfl
  unfold positional
  dsimp only
  split
  · refine ⟨ascii "0", List.replicate (-exponent - 1).toNat 0x30 ++ digits, 0,
      List.cons_ne_nil _ _, by simp [hne], rfl, ?_, .inl rfl,
      .inr (List.getLast?_append_of_ne_nil _ hne), ?_, ?_, ?_⟩
    · rw [List.all_append, hzeros, h, Bool.and_true]
    · refine (Text.digitsValue_zeros_append _ 1).trans ?_
      rw [Text.digitsValue_zeros_append]
      exact (Nat.mul_one _).symm
    · rw [List.length_append, List.length_replicate]
      omega
    · exact List.append_assoc _ _ _
  · generalize hwidth : exponent.toNat + 1 = width
    have hsplit := List.take_append_drop width digits
    split
    · rename_i hempty
      rw [List.isEmpty_iff, List.drop_eq_nil_iff] at hempty
      rw [List.take_of_length_le hempty]
      refine ⟨digits ++ List.replicate (width - digits.length) 0x30, ascii "0",
        width - digits.length + 1, by simp [hne], List.cons_ne_nil _ _, ?_, rfl, .inr ?_, .inl rfl,
        ?_, ?_, ?_⟩
      · rw [List.all_append, hzeros, h, Bool.and_true]
      · rw [List.head?_append_of_ne_nil _ hne]
      · rw [← Text.digitsValue_append_zeros, List.replicate_succ', List.append_assoc]
        rfl
      · change -(1 : Int) = _
        omega
      · rw [List.append_assoc _ (ascii ".")]
        rfl
    · rename_i hmore
      rw [List.isEmpty_iff, List.drop_eq_nil_iff] at hmore
      have hlength : (digits.take width).length = width := by
        rw [List.length_take]
        omega
      have htake : digits.take width ≠ [] := List.ne_nil_of_length_pos (by omega)
      have hdrop : digits.drop width ≠ [] := mt List.drop_eq_nil_iff.1 hmore
      rw [hlength, Nat.sub_self, List.replicate_zero, List.append_nil, ← List.append_assoc]
      refine ⟨digits.take width, digits.drop width, 0, htake, hdrop, ?_, ?_, .inr ?_, .inr ?_, ?_,
        ?_, rfl⟩
      · exact List.all_eq_true.2 fun b hb => List.all_eq_true.1 h b (List.mem_of_mem_take hb)
      · exact List.all_eq_true.2 fun b hb => List.all_eq_true.1 h b (List.mem_of_mem_drop hb)
      · rw [← List.head?_append_of_ne_nil _ htake, hsplit]
      · rw [← List.getLast?_append_of_ne_nil (digits.take width) hdrop, hsplit]
      · rw [hsplit]
        exact (Nat.mul_one _).symm
      · rw [List.length_drop]
        omega

end Decimal

/-! ## The tokens of printed numbers -/

namespace Reader

/-- How far the token of a number has come behind a text. -/
def NumberPart.after (part : NumberPart) (t : Text) : Option NumberPart := t.foldlM next part

namespace NumberPart

theorem after_append (part : NumberPart) (t u : Text) :
    part.after (t ++ u) = (part.after t).bind (·.after u) := List.foldlM_append

/-- Digits behind a digit do not leave their part. -/
theorem after_digits {part : NumberPart}
    (hpart : ∀ b, Byte.isDigit b = true → part.next b = some part) {t : Text}
    (ht : t.all Byte.isDigit = true) : part.after t = some part := by
  induction t with
  | nil => rfl
  | cons b t ih =>
    rw [List.all_cons, Bool.and_eq_true] at ht
    rw [after, List.foldlM_cons, hpart b ht.1]
    exact ih ht.2

theorem after_whole {t : Text} (ht : t.all Byte.isDigit = true) : whole.after t = some whole :=
  @after_digits whole (fun _ hb => if_pos hb) t ht

theorem after_point {t : Text} (ht : t.all Byte.isDigit = true) :
    whole.after (ascii "." ++ t) = some fraction := by
  rw [after_append]
  exact @after_digits fraction (fun _ hb => if_pos hb) t ht

/-- An exponent may follow the digits before the point and those behind it. -/
theorem after_exponent {part : NumberPart} (hpart : part = whole ∨ part = fraction) (e : Int)
    {t : Text} (ht : t.all Byte.isDigit = true) :
    part.after ((if e < 0 then ascii "e-" else ascii "e+") ++ t) = some exponentDigits := by
  have hsign : part.after (if e < 0 then ascii "e-" else ascii "e+") = some exponentDigits := by
    rcases hpart with rfl | rfl <;> split <;> rfl
  rw [after_append, hsign]
  exact @after_digits exponentDigits (fun _ hb => if_pos hb) t ht

end NumberPart

/-- **The token of a number without a sign**: a digit, and what continues
it. -/
def IsUnsigned (t : Text) : Prop :=
  ∃ b u part, t = b :: u ∧ Byte.isDigit b = true ∧ NumberPart.whole.after u = some part

/-- **The token of a number**, with a minus sign or without. -/
def IsToken (t : Text) : Prop := IsUnsigned t ∨ ∃ u, t = 0x2d :: u ∧ IsUnsigned u

theorem isUnsigned_digits {t : Text} (ht : t.all Byte.isDigit = true) (hne : t ≠ []) :
    IsUnsigned t := by
  obtain ⟨b, t, rfl⟩ := List.exists_cons_of_ne_nil hne
  rw [List.all_cons, Bool.and_eq_true] at ht
  exact ⟨b, t, _, rfl, ht.1, NumberPart.after_whole ht.2⟩

theorem isToken_ofInt (i : Int) : IsToken (Text.ofInt i) := by
  have hdigits (n : Nat) := isUnsigned_digits (Text.isDigit_ofNat n) (Text.ofNat_ne_nil n)
  cases i with
  | ofNat n => exact .inl (hdigits n)
  | negSucc n => exact .inr ⟨_, rfl, hdigits (n + 1)⟩

end Reader

/-- **What a floating point number is printed as**, its sign left out: the
token of a number, read as a decimal of the same value. -/
structure IsPrinted (t : Text) (d : Decimal) : Prop where
  isUnsigned : Reader.IsUnsigned t
  isFloat : Numeral.isFloat t = true
  decimal? : ∃ k : Nat, Numeral.decimal? t = some ⟨d.digits * tenTo k, d.exponent - k⟩

namespace Decimal

variable {digits : Text} (hne : digits ≠ []) (h : digits.all Byte.isDigit = true)

include hne h

open Reader

theorem isPrinted_scientific (exponent : Int) : IsPrinted (scientific digits exponent)
    ⟨Text.digitsValue digits, exponent + 1 - digits.length⟩ := by
  obtain ⟨b, t, power, rfl, hb, ht, hpower, hlength, hvalue, htext⟩ :=
    exists_scientific hne h exponent
  have hpowerne : power ≠ [] := List.ne_nil_of_length_pos (Nat.lt_of_lt_of_le Nat.two_pos hlength)
  have hexponent := Numeral.exponent_written hpower hpowerne hvalue
  have hafter {part : NumberPart} (hpart : part = .whole ∨ part = .fraction) :=
    NumberPart.after_exponent hpart exponent hpower
  obtain ⟨rest, hrest⟩ : ∃ rest,
      (if exponent < 0 then ascii "e-" else ascii "e+") ++ power = 0x65 :: rest := by
    split <;> exact ⟨_, rfl⟩
  rw [hrest] at hexponent hafter htext
  have hwhole : [b].all Byte.isDigit = true := by
    rw [List.all_cons, hb]
    rfl
  rw [htext]
  refine ⟨?_, ?_, 0, ?_⟩
  · cases t with
    | nil => exact ⟨b, _, _, rfl, hb, hafter (.inl rfl)⟩
    | cons c t =>
      refine ⟨b, ascii "." ++ c :: t ++ 0x65 :: rest, .exponentDigits, rfl, hb, ?_⟩
      rw [NumberPart.after_append, NumberPart.after_point ht]
      exact hafter (.inr rfl)
  · rw [Numeral.isFloat, List.any_append, List.any_cons, Bool.or_eq_true]
    exact .inr rfl
  · cases t with
    | nil =>
      have hread := Numeral.decimal?_whole rest hwhole (List.cons_ne_nil _ _)
      rw [hexponent] at hread
      refine hread.trans ?_
      rw [Option.some.injEq, Decimal.mk.injEq, List.length_singleton]
      exact ⟨(Nat.mul_one _).symm, by dsimp only; omega⟩
    | cons c t =>
      have hread := Numeral.decimal?_point (0x65 :: rest) hwhole ht
        (List.cons_ne_nil _ _) rfl
      rw [hexponent] at hread
      refine hread.trans ?_
      rw [Option.some.injEq, Decimal.mk.injEq, List.length_cons, List.length_cons]
      exact ⟨(Nat.mul_one _).symm, by dsimp only; omega⟩

theorem isPrinted_positional (exponent : Int) : IsPrinted (positional digits exponent)
    ⟨Text.digitsValue digits, exponent + 1 - digits.length⟩ := by
  obtain ⟨whole, fraction, k, hwholene, -, hwhole, hfraction, -, -, hvalue, hlength, htext⟩ :=
    exists_positional hne h exponent
  rw [htext]
  refine ⟨?_, ?_, k, ?_⟩
  · obtain ⟨b, t, rfl⟩ := List.exists_cons_of_ne_nil hwholene
    rw [List.all_cons, Bool.and_eq_true] at hwhole
    refine ⟨b, t ++ (ascii "." ++ fraction), .fraction, ?_, hwhole.1, ?_⟩
    · rw [List.append_assoc]
      rfl
    rw [NumberPart.after_append, NumberPart.after_whole hwhole.2]
    exact NumberPart.after_point hfraction
  · rw [Numeral.isFloat, List.any_append, List.any_append, Bool.or_eq_true, Bool.or_eq_true]
    exact .inl (.inr rfl)
  · have hread := Numeral.decimal?_point [] hwhole hfraction (by simp [hwholene]) rfl
    rw [List.append_nil, hvalue] at hread
    refine hread.trans ?_
    rw [Option.some.injEq, Decimal.mk.injEq]
    exact ⟨rfl, by rw [← hlength]; exact Int.zero_sub _⟩

end Decimal

namespace Binary64

variable {x : Binary64}

/-- The decimal of six digits that a finite number is printed as. -/
def printed (x : Binary64) : Decimal := if x.units = 0 then ⟨0, 0⟩ else x.significant 6

/-- **What comes back** of a finite number that is printed and read: the
number nearest to its six digits, unless these are out of range. -/
def reread? (x : Binary64) : Option Binary64 := x.printed.toBinary64? x.negative

/-- What is printed of a finite number has the value of the six digits. -/
theorem exists_isPrinted (hfinite : x.isFinite = true) :
    ∃ t d, Leaf.floatStyle.render x = (if x.negative then ascii "-" else []) ++ t ∧
      IsPrinted t d ∧ d.toBinary64? x.negative = x.reread? := by
  obtain ⟨hnan, hinfinite⟩ := (isFinite_iff x).1 hfinite
  obtain ⟨k, hk⟩ := x.printed.exists_layout
  obtain ⟨hne, hdigits⟩ := x.printed.layout_digits
  have hvalue : (Decimal.mk (Text.digitsValue x.printed.layout.1)
      (x.printed.layout.2 + 1 - x.printed.layout.1.length)).toBinary64? x.negative =
      x.reread? := by
    rw [← Decimal.toBinary64?_zeros _ _ _ k, ← hk, reread?]
  have hrender : Leaf.floatStyle.render x = (if x.negative then ascii "-" else []) ++
      (if x.printed.layout.2 < -4 ∨ 6 ≤ x.printed.layout.2
        then Decimal.scientific x.printed.layout.1 x.printed.layout.2
        else Decimal.positional x.printed.layout.1 x.printed.layout.2) := by
    unfold FloatStyle.render
    rw [hnan, hinfinite]
    rfl
  by_cases hexponent : x.printed.layout.2 < -4 ∨ 6 ≤ x.printed.layout.2
  · rw [if_pos hexponent] at hrender
    exact ⟨_, _, hrender, Decimal.isPrinted_scientific hne hdigits _, hvalue⟩
  · rw [if_neg hexponent] at hrender
    exact ⟨_, _, hrender, Decimal.isPrinted_positional hne hdigits _, hvalue⟩

theorem isToken_render (hfinite : x.isFinite = true) :
    Reader.IsToken (Leaf.floatStyle.render x) := by
  obtain ⟨t, d, hrender, hprinted, -⟩ := exists_isPrinted hfinite
  rw [hrender]
  cases x.negative with
  | false => exact .inl hprinted.isUnsigned
  | true => exact .inr ⟨t, rfl, hprinted.isUnsigned⟩

/-- **A printed number is read** as the number nearest to its six digits. -/
theorem leaf?_render (hfinite : x.isFinite = true) :
    Numeral.leaf? (Leaf.floatStyle.render x) = x.reread?.map Leaf.float := by
  obtain ⟨t, d, hrender, ⟨⟨b, u, part, rfl, hb, -⟩, hfloat, k, hdecimal⟩, hvalue⟩ :=
    exists_isPrinted hfinite
  have hsplit : Numeral.splitSign ((if x.negative then ascii "-" else []) ++ b :: u) =
      (x.negative, b :: u) := by
    cases x.negative with
    | true => rfl
    | false =>
      have hplus : b ≠ 0x2b := by
        rintro rfl
        exact absurd hb (by decide)
      have hminus : b ≠ 0x2d := by
        rintro rfl
        exact absurd hb (by decide)
      simp [Numeral.splitSign, hplus, hminus]
  have htoken : Numeral.isFloat ((if x.negative then ascii "-" else []) ++ b :: u) = true := by
    rw [Numeral.isFloat, List.any_append, ← Numeral.isFloat, ← Numeral.isFloat, hfloat,
      Bool.or_true]
  rw [hrender, Numeral.leaf?, hsplit, ← hvalue]
  dsimp only
  rw [if_pos htoken, hdecimal, Option.bind_some, Decimal.toBinary64?_zeros]

/-- **A number comes back** exactly if it is the one nearest to some decimal
of at most six digits. -/
theorem reread?_eq_some_iff (x : Binary64) :
    x.reread? = some x ↔
      ∃ d : Decimal, d.digits < tenTo 6 ∧ d.toBinary64? x.negative = some x := by
  by_cases hx : x.units = 0
  · have hzero : x.reread? = some x := by
      have hunits : (ofFields x.negative 0).units = 0 := by
        cases x.negative <;> decide +kernel
      rw [reread?, printed, if_pos hx]
      exact congrArg some (eq_of_units (negative_ofFields (twoTo_pos 63)) (hunits.trans hx.symm))
    refine ⟨fun h => ⟨⟨0, 0⟩, by decide, ?_⟩, fun _ => hzero⟩
    rwa [reread?, printed, if_pos hx] at h
  · have hprinted : x.printed = x.significant 6 := if_neg hx
    constructor
    · intro h
      rw [reread?, hprinted] at h
      rcases Nat.lt_or_eq_of_le (significant_le hx) with hlt | heq
      · exact ⟨_, hlt, h⟩
      · -- Rounded up to a seventh digit, which is a one before six zeros.
        generalize x.significant 6 = d at h heq
        obtain ⟨digits, e⟩ := d
        obtain rfl : digits = tenTo 6 := heq
        have hmillion : Decimal.mk (tenTo 6) e = ⟨1 * tenTo 6, e + 6 - (6 : Nat)⟩ := by
          rw [Nat.one_mul]
          exact congrArg (Decimal.mk _) (Int.add_sub_cancel _ _).symm
        rw [hmillion, Decimal.toBinary64?_zeros] at h
        exact ⟨_, Nat.pow_lt_pow_right (by decide) (by decide : 0 < 6), h⟩
    · rintro ⟨d, hdigits, hd⟩
      obtain ⟨j, hj⟩ := significant_of_toBinary64? hdigits hd hx
      rw [reread?, hprinted, hj, Decimal.toBinary64?_zeros, hd]

end Binary64

end ScriptSplice
