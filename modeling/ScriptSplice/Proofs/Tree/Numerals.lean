import ScriptSplice.Tree.Numeral
import ScriptSplice.Proofs.Number.Rounding
import ScriptSplice.Proofs.Target.Naming
/-!
# Numerals as they are read and written

A written integer is read as that integer, over all of the 64 bits, and
whatever floating point number a numeral is read as is finite: one that
overflows is refused.
-/

namespace ScriptSplice

/-! ## Floating point numbers -/

namespace Binary64

theorem isFinite_of_ofRatio? {negative : Bool} {num den : Nat} {x : Binary64}
    (h : ofRatio? negative num den = some x) : x.isFinite = true := by
  rw [ofRatio?] at h
  split at h
  · cases h
  · rename_i hrange
    cases h
    rw [Bool.or_eq_true, not_or, Bool.not_eq_true] at hrange
    exact isFinite_ofFields (Nat.min_le_right _ _) hrange.1

end Binary64

/-- The number a decimal is read as is finite. -/
theorem Decimal.isFinite_of_toBinary64? {negative : Bool} {d : Decimal} {x : Binary64}
    (h : d.toBinary64? negative = some x) : x.isFinite = true := by
  rw [toBinary64?] at h
  split at h
  · cases h
    exact Binary64.isFinite_ofFields (Nat.zero_le _) (by cases negative <;> decide)
  · split at h
    · cases h
    · exact Binary64.isFinite_of_ofRatio? h

namespace Numeral

/-- **A floating point leaf that was read is finite.** -/
theorem isFinite_of_leaf? {token : Text} {x : Binary64} (h : leaf? token = some (.float x)) :
    x.isFinite = true := by
  unfold leaf? at h
  generalize splitSign token = split at h
  obtain ⟨negative, unsigned⟩ := split
  dsimp only at h
  split at h
  · obtain ⟨d, -, hd⟩ := Option.bind_eq_some_iff.1 h
    obtain ⟨y, hy, heq⟩ := Option.map_eq_some_iff.1 hd
    cases heq
    exact d.isFinite_of_toBinary64? hy
  · split at h
    · cases h
    · generalize (if negative then _ else _) = i at h
      split at h <;> cases h

/-! ## Integers -/

theorem isFloat_of_digits {t : Text} (h : t.all Byte.isDigit = true) : isFloat t = false := by
  rw [isFloat, List.any_eq_false]
  intro b hb hfloat
  have hdigit := List.all_eq_true.1 h b hb
  simp only [isExponentLetter, Bool.or_eq_true, beq_iff_eq] at hfloat
  rcases hfloat with rfl | rfl | rfl <;> exact absurd hdigit (by decide)

/-- Digits have no sign. -/
theorem splitSign_of_digits {t : Text} (h : t.all Byte.isDigit = true) :
    splitSign t = (false, t) := by
  cases t with
  | nil => rfl
  | cons b t =>
    have hb : Byte.isDigit b = true := List.all_eq_true.1 h b List.mem_cons_self
    unfold splitSign
    split
    · rename_i heq
      cases heq
      exact absurd hb (by decide)
    · rename_i heq
      cases heq
      exact absurd hb (by decide)
    · rfl

/-- **A written integer is read as itself.** -/
theorem leaf?_ofInt (i : Int64) : leaf? (Text.ofInt i.toInt) = some (.int i) := by
  have hrange : inRange i.toInt = true := by
    have hle := i.le_toInt
    have hlt := i.toInt_lt
    simp only [inRange, Bool.and_eq_true, decide_eq_true_eq]
    omega
  have hnumber (n : Nat) (negative : Bool) (hn : (if negative then -(n : Int) else n) = i.toInt) :
      (if (Text.ofNat n).isEmpty then none
        else if inRange (if negative then -(Text.digitsValue (Text.ofNat n) : Int)
            else Text.digitsValue (Text.ofNat n)) then
          some (Leaf.int (Int64.ofInt (if negative then -(Text.digitsValue (Text.ofNat n) : Int)
            else Text.digitsValue (Text.ofNat n)))) else none) = some (Leaf.int i) := by
    rw [Text.digitsValue_ofNat, hn, if_neg (by simpa using Text.ofNat_ne_nil n), if_pos hrange,
      Int64.ofInt_toInt]
  cases hi : i.toInt with
  | ofNat n =>
    have hdigits := Text.isDigit_ofNat n
    rw [leaf?, Text.ofInt, splitSign_of_digits hdigits]
    dsimp only
    rw [isFloat_of_digits hdigits, if_neg Bool.false_ne_true]
    exact hnumber n false hi.symm
  | negSucc n =>
    have hdigits := Text.isDigit_ofNat (n + 1)
    have hfloat : isFloat (0x2d :: Text.ofNat (n + 1)) = false := by
      rw [isFloat, List.any_cons, ← isFloat, isFloat_of_digits hdigits]
      rfl
    rw [leaf?, Text.ofInt]
    dsimp only [splitSign]
    rw [hfloat, if_neg Bool.false_ne_true]
    exact hnumber (n + 1) true hi.symm

end Numeral

end ScriptSplice
