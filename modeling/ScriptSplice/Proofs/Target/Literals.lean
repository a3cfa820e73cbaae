import ScriptSplice.Program.Literal
import ScriptSplice.Proofs.Target.Naming
/-!
# What literals look like

A leaf becomes a literal on one line. It is an atom, made of the letters
and digits and of the point and the signs that a number can have; or a
string; or one of the three floats that have no literal and are written
as calls. Between its quotes a string has no bytes that could end a line,
and no quotes that are not escaped.
-/

namespace ScriptSplice

namespace Byte

/-- The bytes of words and numbers. -/
def isAtom (b : UInt8) : Bool := isAlphanumeric b || b == 0x2b || b == 0x2d || b == 0x2e

theorem isAtom_of_isDigit {b : UInt8} (h : isDigit b = true) : isAtom b = true := by
  simp [isAtom, isAlphanumeric, h]

end Byte

namespace Text

/-- A text of the bytes of words and numbers, and not an empty one. -/
structure IsAtom (t : Text) : Prop where
  ne_nil : t ≠ []
  all : t.all Byte.isAtom = true

theorem isAtom_ofNat (n : Nat) : IsAtom (ofNat n) := by
  refine ⟨ofNat_ne_nil n, List.all_eq_true.2 fun b hb => ?_⟩
  exact Byte.isAtom_of_isDigit (List.all_eq_true.1 (isDigit_ofNat n) b hb)

theorem isAtom_ofInt (i : Int) : IsAtom (ofInt i) := by
  cases i with
  | ofNat n => exact isAtom_ofNat n
  | negSucc n =>
    refine ⟨List.cons_ne_nil _ _, ?_⟩
    rw [ofInt, List.all_cons, (isAtom_ofNat _).all]
    rfl

theorem IsAtom.append {t u : Text} (h : IsAtom t) (hu : u.all Byte.isAtom = true) :
    IsAtom (t ++ u) := by
  refine ⟨fun hnil => h.ne_nil (List.append_eq_nil_iff.1 hnil).1, ?_⟩
  rw [List.all_append, h.all, hu]
  rfl

end Text

/-! ## Floats -/

namespace Decimal

/-- The layout has digits alone, and at least one. -/
theorem layout_digits (d : Decimal) : d.layout.1 ≠ [] ∧ d.layout.1.all Byte.isDigit = true := by
  have hkept : ((Text.ofNat d.digits).reverse.dropWhile (· == 0x30)).reverse.all
      Byte.isDigit = true := by
    refine List.all_eq_true.2 fun b hb => ?_
    have hmem := (List.dropWhile_suffix _).subset (List.mem_reverse.1 hb)
    exact List.all_eq_true.1 (Text.isDigit_ofNat d.digits) b (List.mem_reverse.1 hmem)
  simp only [layout]
  split
  · exact ⟨by decide, rfl⟩
  · rename_i hne
    exact ⟨by simpa using hne, hkept⟩

section

variable {digits : Text} (hne : digits ≠ []) (h : digits.all Byte.isDigit = true)

include h

/-- Some of the digits, not necessarily all. -/
private theorem all_isAtom {u : Text} (hu : ∀ b ∈ u, b ∈ digits) : u.all Byte.isAtom = true :=
  List.all_eq_true.2 fun b hb => Byte.isAtom_of_isDigit (List.all_eq_true.1 h b (hu b hb))

include hne

theorem isAtom_scientific (exponent : Int) : Text.IsAtom (scientific digits exponent) := by
  have htake : Text.IsAtom (digits.take 1) := by
    refine ⟨?_, all_isAtom h fun b => List.mem_of_mem_take⟩
    cases digits with
    | nil => exact absurd rfl hne
    | cons b t => exact List.cons_ne_nil _ _
  have hdrop : (digits.drop 1).all Byte.isAtom = true := all_isAtom h fun b => List.mem_of_mem_drop
  have hpower := (Text.isAtom_ofNat exponent.natAbs).all
  have hzero : (ascii "0").all Byte.isAtom = true := rfl
  refine ((htake.append ?_).append ?_).append ?_
  · split
    · rfl
    · rw [List.all_append, hdrop]
      rfl
  · split <;> rfl
  · split
    · rw [List.all_append, hpower, hzero]
      rfl
    · exact hpower

theorem isAtom_positional (exponent : Int) : Text.IsAtom (positional digits exponent) := by
  have hall : digits.all Byte.isAtom = true := all_isAtom h fun _ => id
  have hzeros (k : Nat) : (List.replicate k (0x30 : UInt8)).all Byte.isAtom = true := by
    refine List.all_eq_true.2 fun b hb => ?_
    rw [(List.mem_replicate.1 hb).2]
    rfl
  unfold positional
  by_cases hnegative : exponent < 0
  · rw [if_pos hnegative]
    have hpoint : Text.IsAtom (ascii "0.") := ⟨by decide, rfl⟩
    exact (hpoint.append (hzeros _)).append hall
  · rw [if_neg hnegative]
    have hwhole : Text.IsAtom (digits.take (exponent.toNat + 1)) := by
      refine ⟨?_, all_isAtom h fun b => List.mem_of_mem_take⟩
      cases digits with
      | nil => exact absurd rfl hne
      | cons b t => exact List.cons_ne_nil _ _
    have hdrop : (digits.drop (exponent.toNat + 1)).all Byte.isAtom = true :=
      all_isAtom h fun b => List.mem_of_mem_drop
    refine (hwhole.append (hzeros _)).append ?_
    split
    · rfl
    · rw [List.all_append, hdrop]
      rfl

end

/-- Set out either way a decimal is an atom, with a sign or without. -/
theorem isAtom_setOut (d : Decimal) (negative : Bool) (scientificFrom : Int) :
    Text.IsAtom (match d.layout with
      | (digits, exponent) => (if negative then ascii "-" else []) ++
        if exponent < -4 ∨ scientificFrom ≤ exponent then scientific digits exponent
        else positional digits exponent) := by
  obtain ⟨hne, hdigits⟩ := d.layout_digits
  have hnumber : Text.IsAtom
      (if d.layout.2 < -4 ∨ scientificFrom ≤ d.layout.2 then scientific d.layout.1 d.layout.2
        else positional d.layout.1 d.layout.2) := by
    split
    · exact isAtom_scientific hne hdigits _
    · exact isAtom_positional hne hdigits _
  refine ⟨by simp [hnumber.ne_nil], ?_⟩
  rw [List.all_append, hnumber.all]
  cases negative <;> rfl

end Decimal

/-- A float is an atom, unless it is infinite or not a number. -/
theorem FloatStyle.render_cases (style : FloatStyle) (x : Binary64) :
    Text.IsAtom (style.render x) ∨
      style.render x ∈
        [style.nan, style.negativeNaN, style.infinity, style.negativeInfinity] := by
  unfold render
  by_cases hnan : x.isNaN
  · rw [if_pos hnan]
    refine Or.inr ?_
    split <;> simp
  rw [if_neg hnan]
  by_cases hinfinite : x.isInfinite
  · rw [if_pos hinfinite]
    refine Or.inr ?_
    split <;> simp
  rw [if_neg hinfinite]
  exact Or.inl (Decimal.isAtom_setOut _ _ _)

/-- **A literal** is an atom, one of the calls that stand for floats
without a literal, or a string. -/
theorem Leaf.literal_cases (l : Leaf) :
    Text.IsAtom l.literal ∨
      l.literal ∈ [literalStyle.nan, literalStyle.negativeNaN, literalStyle.infinity,
        literalStyle.negativeInfinity] ∨
      ∃ t : Text, l.literal = t.literal := by
  cases l with
  | nil => exact Or.inl ⟨by decide, rfl⟩
  | bool b => cases b <;> exact Or.inl ⟨by decide, rfl⟩
  | int i => exact Or.inl (Text.isAtom_ofInt _)
  | float x => exact (Leaf.literalStyle.render_cases x).imp id Or.inl
  | str t => exact Or.inr (Or.inr ⟨t, rfl⟩)

/-! ## Strings -/

namespace Byte

theorem isAtom_hexDigit : ∀ n, n < 16 → isAtom (hexDigit n) = true := by decide

/-- The two hexadecimal digits of a byte are atoms. -/
theorem isAtom_hex (b : UInt8) : (hex b).all isAtom = true := by
  have hhigh := isAtom_hexDigit (b.toNat / 16) (by have := b.toNat_lt; omega)
  have hlow := isAtom_hexDigit (b.toNat % 16) (by omega)
  simp [hex, hhigh, hlow]

end Byte

namespace Text

/-- **One byte between quotes** is written as an escape, which is a
backslash and a byte that is not a line break and then atoms; or it is the
byte itself, which is then neither the quote nor a backslash nor a control
byte. -/
theorem literalByte_cases (quote b : UInt8) (hquote : Byte.isControl quote = false) :
    (∃ c t, literalByte quote b = Byte.backslash :: c :: t ∧ Byte.isControl c = false ∧
      t.all Byte.isAtom = true) ∨
    literalByte quote b = [b] ∧ b ≠ quote ∧ b ≠ Byte.backslash ∧ Byte.isControl b = false := by
  unfold literalByte
  by_cases hescaped : (b == quote || b == Byte.backslash) = true
  · rw [if_pos hescaped]
    refine Or.inl ⟨b, [], rfl, ?_, rfl⟩
    rcases Bool.or_eq_true_iff.1 hescaped with h | h <;> rw [eq_of_beq h]
    · exact hquote
    · rfl
  · rw [if_neg hescaped]
    simp only [Bool.or_eq_true, not_or, beq_iff_eq] at hescaped
    by_cases hnewline : (b == 0x0a) = true
    · exact Or.inl ⟨0x6e, [], by rw [if_pos hnewline]; rfl, rfl, rfl⟩
    rw [if_neg hnewline]
    by_cases hreturn : (b == 0x0d) = true
    · exact Or.inl ⟨0x72, [], by rw [if_pos hreturn]; rfl, rfl, rfl⟩
    rw [if_neg hreturn]
    by_cases htab : (b == 0x09) = true
    · exact Or.inl ⟨0x74, [], by rw [if_pos htab]; rfl, rfl, rfl⟩
    rw [if_neg htab]
    by_cases hcontrol : Byte.isControl b = true
    · exact Or.inl ⟨0x78, Byte.hex b, by rw [if_pos hcontrol]; rfl, rfl, Byte.isAtom_hex b⟩
    · rw [if_neg hcontrol]
      exact Or.inr ⟨rfl, hescaped.1, hescaped.2, by simpa using hcontrol⟩

theorem quoteFor_cases (t : Text) : quoteFor t = Byte.quote ∨ quoteFor t = Byte.doubleQuote := by
  unfold quoteFor
  split
  · exact Or.inr rfl
  · exact Or.inl rfl

end Text

/-! ## Literals in lines -/

/-- A byte is no atom if it differs from all atoms in this. -/
theorem Byte.ne_of_isAtom {b c : UInt8} (h : isAtom b = true) (hc : isAtom c = false) : b ≠ c := by
  rintro rfl
  rw [h] at hc
  cases hc

theorem Byte.ne_newline_of_isAtom {t : Text} (h : t.all isAtom = true) : newline ∉ t :=
  fun hmem => ne_of_isAtom (List.all_eq_true.1 h _ hmem) rfl rfl

theorem Text.newline_not_mem_literal (t : Text) : Byte.newline ∉ t.literal := by
  have hquote : Byte.isControl (quoteFor t) = false := by
    rcases quoteFor_cases t with h | h <;> rw [h] <;> rfl
  have hne : ∀ {b : UInt8}, Byte.isControl b = false → Byte.newline ≠ b := by
    rintro b hb rfl
    cases hb
  have hbytes : ∀ b ∈ t, Byte.newline ∉ literalByte (quoteFor t) b := by
    intro b _
    obtain ⟨c, u, h, hc, hu⟩ | ⟨h, -, -, hb⟩ := literalByte_cases _ b hquote
    · rw [h]
      simp only [List.mem_cons, not_or]
      exact ⟨by decide, hne hc, Byte.ne_newline_of_isAtom hu⟩
    · rw [h, List.mem_singleton]
      exact hne hb
  simp only [literal, List.mem_append, List.mem_singleton, List.mem_flatMap, not_or, not_exists,
    not_and]
  exact ⟨⟨hne hquote, hbytes⟩, hne hquote⟩

namespace Leaf

/-- **A literal is on one line.** -/
theorem newline_not_mem_literal (l : Leaf) : Byte.newline ∉ l.literal := by
  obtain h | h | ⟨t, h⟩ := l.literal_cases
  · exact Byte.ne_newline_of_isAtom h.all
  · simp only [List.mem_cons, List.not_mem_nil, or_false] at h
    rcases h with h | h | h | h <;> rw [h] <;> decide
  · rw [h]
    exact t.newline_not_mem_literal

/-- A literal begins with an atom or a quote. -/
theorem exists_head_literal (l : Leaf) : ∃ b t, l.literal = b :: t ∧
    (Byte.isAtom b = true ∨ b = Byte.quote ∨ b = Byte.doubleQuote) := by
  obtain h | h | ⟨t, h⟩ := l.literal_cases
  · obtain ⟨b, t, ht⟩ := List.exists_cons_of_ne_nil h.ne_nil
    refine ⟨b, t, ht, Or.inl ?_⟩
    have hall := h.all
    rw [ht] at hall
    exact List.all_eq_true.1 hall b List.mem_cons_self
  · simp only [List.mem_cons, List.not_mem_nil, or_false] at h
    rcases h with h | h | h | h <;> rw [h] <;> exact ⟨_, _, rfl, Or.inl rfl⟩
  · exact ⟨t.quoteFor, _, by rw [h]; rfl, Or.inr t.quoteFor_cases⟩

end Leaf

end ScriptSplice
