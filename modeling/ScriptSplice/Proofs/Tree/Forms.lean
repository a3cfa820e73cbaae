import ScriptSplice.Proofs.Number.Nearest
import ScriptSplice.Proofs.Tree.Floats
/-!
# The form of numerals

A numeral is a sign, digits, a point with more digits, and an exponent of
ten, each of which may be missing (`Numeral.Form`). It is complete if it has
a digit around its point, and one behind the letter of its exponent. What a
numeral denotes is a matter of its form alone: an integer, or, if it has a
point or an exponent, the correctly rounded number
(`Numeral.Form.Denotes`). A numeral of this form is read as what it denotes,
or refused (`Numeral.Form.denotes_of_leaf?`), and it is refused if it has no
digits or is an integer out of range. An exponent without digits is none.
-/

namespace ScriptSplice

namespace Numeral

/-- The sign that a numeral is written with, if it is. -/
inductive Sign where
  | absent
  | plus
  | minus
deriving DecidableEq

namespace Sign

def text : Sign → Text
  | absent => []
  | plus => ascii "+"
  | minus => ascii "-"

def isMinus : Sign → Bool
  | minus => true
  | absent | plus => false

end Sign

/-- The exponent of ten of a numeral. Behind its letter there may be no
digits. -/
structure Exponent where
  capital : Bool
  sign : Sign
  digits : Text
  isDigit : digits.all Byte.isDigit = true

namespace Exponent

variable (e : Exponent)

/-- The letter. -/
def letter : UInt8 := if e.capital then 0x45 else 0x65

def text : Text := e.letter :: (e.sign.text ++ e.digits)

/-- The value of the exponent, zero if it has no digits. -/
def value : Int :=
  if e.sign.isMinus then -(Text.digitsValue e.digits : Int) else Text.digitsValue e.digits

end Exponent

/-- **The form of a numeral.** A point without digits behind it is a
fraction without digits. -/
structure Form where
  sign : Sign
  whole : Text
  fraction : Option Text
  exponent : Option Exponent
  isDigit_whole : whole.all Byte.isDigit = true
  isDigit_fraction : ∀ t ∈ fraction, t.all Byte.isDigit = true

namespace Form

variable (f : Form)

/-- What follows the sign. -/
def unsigned : Text :=
  f.whole ++ (f.fraction.elim [] (0x2e :: ·) ++ f.exponent.elim [] Exponent.text)

/-- **The bytes of a numeral.** -/
def text : Text := f.sign.text ++ f.unsigned

/-- The digits before and behind the point. -/
def digits : Text := f.whole ++ f.fraction.getD []

/-- A numeral of a floating point number. -/
def isFloat : Bool := f.fraction.isSome || f.exponent.isSome

/-- **Complete numerals** have a digit, and an exponent has a digit too. -/
def IsComplete : Prop := f.digits ≠ [] ∧ ∀ e ∈ f.exponent, e.digits ≠ []

/-- The power of ten that the numeral is written with. -/
def power : Int := f.exponent.elim 0 Exponent.value

/-- The decimal that the numeral is without its sign. -/
def decimal : Decimal :=
  ⟨Text.digitsValue f.digits, f.power - (f.fraction.getD []).length⟩

/-- **The value of a numeral.** -/
def value : ℚ := signed f.sign.isMinus f.decimal.value

/-- **What a numeral denotes**: an integer of 64 bits, or the floating point
number that is nearest to its value and has its sign. -/
inductive Denotes : Form → Leaf → Prop
  | int {f : Form} {i : Int64} : f.isFloat = false → (i.toInt : ℚ) = f.value → Denotes f (.int i)
  | float {f : Form} {x : Binary64} : f.isFloat = true → x.negative = f.sign.isMinus →
      x.IsNearest f.value → Denotes f (.float x)

/-! ## Reading the parts -/

theorem digit_ne_sign {b : UInt8} (hb : Byte.isDigit b = true) : b ≠ 0x2d ∧ b ≠ 0x2b := by
  constructor <;> rintro rfl <;> exact absurd hb (by decide)

/-- Digits are read as an integer, with the sign before them. -/
theorem leadingInt_text (s : Sign) {ds : Text} (hds : ds.all Byte.isDigit = true) (hne : ds ≠ []) :
    Text.leadingInt (s.text ++ ds) =
      some (if s.isMinus then -(Text.digitsValue ds : Int) else Text.digitsValue ds, []) := by
  obtain ⟨hminus, hplus⟩ := leadingInt_digits hds hne
  cases s with
  | minus => exact hminus
  | plus => exact hplus
  | absent =>
    obtain ⟨b, t, rfl⟩ := List.exists_cons_of_ne_nil hne
    have hb : Byte.isDigit b = true := List.all_eq_true.1 hds b List.mem_cons_self
    have hspace : Byte.isSpace b = false := by
      have hall : ∀ b, Byte.isDigit b = true → Byte.isSpace b = false :=
        Byte.forall_of_ofNat (by decide +kernel)
      exact hall b hb
    have hend : EndsDigits [] := rfl
    have htake := takeWhile_digits hds hend
    have hdrop := dropWhile_digits hds hend
    rw [List.append_nil] at htake hdrop
    simp [Text.leadingInt, Sign.text, Sign.isMinus, hspace, digit_ne_sign hb,
      htake, hdrop]

/-- An exponent is read as its value. -/
theorem exponent_text (e : Exponent) : Numeral.exponent e.text = e.value := by
  have hletter : isExponentLetter e.letter = true := by
    rw [Exponent.letter]
    split <;> rfl
  rw [Exponent.text, Numeral.exponent, if_pos hletter, Exponent.value]
  by_cases hne : e.digits = []
  · rw [hne, List.append_nil]
    cases e.sign <;> rfl
  · rw [leadingInt_text e.sign e.isDigit hne]
    rfl

/-- A numeral without its sign has none. -/
theorem splitSign_unsigned : splitSign f.unsigned = (false, f.unsigned) := by
  have hhead {b : UInt8} (t : Text) (hb : b ≠ 0x2d ∧ b ≠ 0x2b) :
      splitSign (b :: t) = (false, b :: t) := by
    simp [splitSign, hb.1, hb.2]
  have hwhole := f.isDigit_whole
  rw [unsigned]
  generalize f.whole = whole at hwhole
  cases whole with
  | cons b t => exact hhead _ (digit_ne_sign (List.all_eq_true.1 hwhole b List.mem_cons_self))
  | nil =>
    cases f.fraction with
    | some t => exact hhead _ (by decide)
    | none =>
      cases f.exponent with
      | none => rfl
      | some e =>
        refine hhead _ ?_
        rw [Exponent.letter]
        split <;> decide

theorem splitSign_text : splitSign f.text = (f.sign.isMinus, f.unsigned) := by
  rw [text]
  cases f.sign with
  | absent => exact f.splitSign_unsigned
  | plus | minus => rfl

/-- A point and a letter mark a floating point number, and nothing else
does. -/
theorem isFloat_text : Numeral.isFloat f.text = f.isFloat := by
  have hsign : Numeral.isFloat f.sign.text = false := by cases f.sign <;> rfl
  have hwhole := isFloat_of_digits f.isDigit_whole
  have hletter (e : Exponent) : Numeral.isFloat e.text = true := by
    rw [Exponent.text, Exponent.letter, Numeral.isFloat, List.any_cons]
    split <;> rfl
  rw [Numeral.isFloat] at hsign hwhole ⊢
  rw [text, unsigned, isFloat, List.any_append, List.any_append, List.any_append, hsign, hwhole]
  cases f.fraction with
  | some t => rfl
  | none =>
    cases f.exponent with
    | none => rfl
    | some e => exact hletter e

/-- **The decimal of a numeral**, if it has a digit. -/
theorem decimal?_unsigned :
    Numeral.decimal? f.unsigned = if f.digits = [] then none else some f.decimal := by
  have hwhole := f.isDigit_whole
  have hfraction := f.isDigit_fraction
  have hend : EndsDigits (f.exponent.elim [] Exponent.text) := by
    cases f.exponent with
    | none => rfl
    | some e =>
      change (e.letter :: _).takeWhile Byte.isDigit = []
      rw [Exponent.letter]
      split <;> rfl
  have hpoint : ∀ t, f.exponent.elim [] Exponent.text ≠ 0x2e :: t := by
    intro t
    cases f.exponent with
    | none => exact List.cons_ne_nil _ _ ∘ Eq.symm
    | some e =>
      intro h
      have hletter : e.letter = 0x2e := (List.cons.inj h).1
      rw [Exponent.letter] at hletter
      split at hletter <;> cases hletter
  have hexponent : Numeral.exponent (f.exponent.elim [] Exponent.text) = f.power := by
    rw [power]
    cases f.exponent with
    | none => rfl
    | some e => exact exponent_text e
  rw [unsigned, digits, decimal, digits]
  generalize f.exponent.elim [] Exponent.text = rest at *
  generalize f.power = power at *
  cases hf : f.fraction with
  | some t =>
    have ht := hfraction t hf
    have hpoint : EndsDigits (0x2e :: (t ++ rest)) := rfl
    simp [Numeral.decimal?, takeWhile_digits hwhole hpoint, dropWhile_digits hwhole hpoint,
      takeWhile_digits ht hend, dropWhile_digits ht hend, hexponent]
  | none =>
    -- What follows is not taken for a point, by `hpoint`.
    simp [Numeral.decimal?, takeWhile_digits hwhole hend, dropWhile_digits hwhole hend,
      hexponent]

/-- **A complete numeral** does not end with the letter of an exponent. -/
theorem not_letter_of_isComplete (h : f.IsComplete) :
    ∀ b ∈ f.text.getLast?, isExponentLetter b = false := by
  have hdigit {t : Text} (ht : t.all Byte.isDigit = true) {b : UInt8} (hb : b ∈ t) :
      isExponentLetter b = false := by
    have hfloat := List.any_eq_false.1 (isFloat_of_digits ht) b hb
    rw [Bool.or_eq_true, not_or, Bool.not_eq_true, Bool.not_eq_true] at hfloat
    exact hfloat.2
  intro b hb
  cases hexponent : f.exponent with
  | some e =>
    have htext : f.text = f.sign.text ++ (f.whole ++ (f.fraction.elim [] (0x2e :: ·) ++
        e.letter :: e.sign.text)) ++ e.digits := by
      simp [text, unsigned, hexponent, Exponent.text]
    rw [htext, List.getLast?_append_of_ne_nil _ (h.2 e hexponent)] at hb
    exact hdigit e.isDigit (List.mem_of_mem_getLast? hb)
  | none =>
    have hmem := List.mem_of_mem_getLast? hb
    rw [text, unsigned, hexponent, Option.elim_none, List.append_nil, List.mem_append,
      List.mem_append] at hmem
    rcases hmem with hmem | hmem | hmem
    · cases hsign : f.sign with
      | absent => rw [hsign] at hmem; cases hmem
      | plus | minus =>
        rw [hsign] at hmem
        obtain rfl := List.mem_singleton.1 hmem
        rfl
    · exact hdigit f.isDigit_whole hmem
    · cases hfraction : f.fraction with
      | none => rw [hfraction] at hmem; cases hmem
      | some t =>
        rw [hfraction, Option.elim_some] at hmem
        rcases List.mem_cons.1 hmem with rfl | hmem
        · rfl
        · exact hdigit (f.isDigit_fraction t hfraction) hmem

/-! ## Reading numerals -/

/-- The integer that the numeral is if it has neither point nor exponent. -/
def integer : Int :=
  if f.sign.isMinus then -(Text.digitsValue f.whole : Int) else Text.digitsValue f.whole

theorem parts_of_isFloat (h : f.isFloat = false) : f.fraction = none ∧ f.exponent = none := by
  rwa [isFloat, Bool.or_eq_false_iff, Option.isSome_eq_false_iff, Option.isSome_eq_false_iff,
    Option.isNone_iff_eq_none, Option.isNone_iff_eq_none] at h

/-- **How a numeral is read.** -/
theorem leaf?_text : leaf? f.text =
    if f.digits = [] then none
    else if f.isFloat then (f.decimal.toBinary64? f.sign.isMinus).map Leaf.float
    else if inRange f.integer then some (.int (Int64.ofInt f.integer)) else none := by
  rw [leaf?, splitSign_text]
  dsimp only
  rw [isFloat_text, decimal?_unsigned]
  cases hfloat : f.isFloat with
  | true =>
    rw [if_pos rfl, if_pos rfl]
    split <;> rfl
  | false =>
    obtain ⟨hfraction, hexponent⟩ := f.parts_of_isFloat hfloat
    have hunsigned : f.unsigned = f.whole := by
      rw [unsigned, hfraction, hexponent]
      exact List.append_nil _
    have hdigits : f.digits = f.whole := by
      rw [digits, hfraction]
      exact List.append_nil _
    rw [hunsigned, hdigits, integer]
    simp

/-- The value of an integer. -/
theorem value_of_isFloat (h : f.isFloat = false) : f.value = f.integer := by
  obtain ⟨hfraction, hexponent⟩ := f.parts_of_isFloat h
  have hdecimal : f.decimal = ⟨Text.digitsValue f.whole, 0⟩ := by
    rw [decimal, digits, power, hfraction, hexponent]
    simp
  rw [value, hdecimal, Decimal.value, zpow_zero, mul_one, signed, integer]
  split
  · push_cast
    rfl
  · push_cast
    rfl

/-- **What a numeral is read as is what it denotes**, and it has a digit. -/
theorem denotes_of_leaf? {l : Leaf} (h : leaf? f.text = some l) : f.digits ≠ [] ∧ f.Denotes l := by
  rw [leaf?_text] at h
  split at h
  · cases h
  · rename_i hdigits
    refine ⟨hdigits, ?_⟩
    split at h
    · rename_i hfloat
      obtain ⟨x, hx, rfl⟩ := Option.map_eq_some_iff.1 h
      obtain ⟨hnegative, hnearest⟩ := Decimal.isNearest_of_toBinary64? hx
      exact .float hfloat hnegative hnearest
    · rename_i hfloat
      split at h
      · rename_i hrange
        obtain rfl := Option.some.inj h
        rw [Bool.not_eq_true] at hfloat
        rw [inRange, Bool.and_eq_true, decide_eq_true_eq, decide_eq_true_eq] at hrange
        refine .int hfloat ?_
        rw [f.value_of_isFloat hfloat,
          Int64.toInt_ofInt_of_le hrange.1 (Int.lt_of_le_of_lt hrange.2 (by decide))]
      · cases h

/-- **Numerals without digits and integers out of range are refused.** -/
theorem leaf?_eq_none (h : f.digits = [] ∨
    f.isFloat = false ∧ (f.value < -9223372036854775808 ∨ 9223372036854775807 < f.value)) :
    leaf? f.text = none := by
  rw [leaf?_text]
  rcases h with hdigits | ⟨hfloat, hrange⟩
  · rw [if_pos hdigits]
  · rw [f.value_of_isFloat hfloat] at hrange
    have hout : inRange f.integer = false := by
      rw [inRange, Bool.and_eq_false_iff, decide_eq_false_iff_not, decide_eq_false_iff_not,
        Int.not_le, Int.not_le]
      exact_mod_cast hrange
    rw [hfloat, hout]
    simp

end Form

end Numeral

end ScriptSplice
