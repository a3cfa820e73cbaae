import Mathlib.Tactic.SplitIfs
import ScriptSplice.Proofs.Target.Literals
/-!
# Reading string literals

The target language reads a string literal byte by byte: a backslash and
the byte behind it stand for one byte, or for none that is known here; two
hexadecimal digits stand for the byte of that value; and the first quote
that is not escaped ends the literal. Reading what a text is written as
gives the text back, and what is behind the literal is left
(`Text.readLiteral_literal`).
-/

namespace ScriptSplice

namespace Byte

/-- The value of a hexadecimal digit. -/
def hexValue? (b : UInt8) : Option Nat :=
  if isDigit b then some (b.toNat - 0x30)
  else if 0x61 ≤ b && b ≤ 0x66 then some (b.toNat - 0x57)
  else none

/-- The byte that two hexadecimal digits stand for. -/
def ofHex? (high low : UInt8) : Option UInt8 := do
  return UInt8.ofNat (16 * (← hexValue? high) + (← hexValue? low))

/-- The byte that a backslash and a byte behind it stand for. -/
def unescaped? (b : UInt8) : Option UInt8 :=
  if b = backslash || b = quote || b = doubleQuote then some b
  else if b = 0x6e then some 0x0a
  else if b = 0x72 then some 0x0d
  else if b = 0x74 then some 0x09
  else none

/-- The byte behind a backslash is not the one that announces two digits. -/
theorem ne_of_unescaped? {b c : UInt8} (h : unescaped? c = some b) : c ≠ 0x78 := by
  rintro rfl
  simp [unescaped?, backslash, quote, doubleQuote] at h

/-- The two digits of a byte are read back as the byte. -/
theorem ofHex?_hex (b : UInt8) :
    ofHex? (hexDigit (b.toNat / 16)) (hexDigit (b.toNat % 16)) = some b := by
  revert b
  exact forall_of_ofNat (by decide +kernel)

end Byte

namespace Text

/-- What stands before the quote that ends a literal, and what is behind
that quote. -/
def readQuoted (quote : UInt8) : Text → Option (Text × Text)
  | [] => none
  | 0x5c :: 0x78 :: high :: low :: t => do
    let b ← Byte.ofHex? high low
    let (s, rest) ← readQuoted quote t
    return (b :: s, rest)
  | 0x5c :: c :: t => do
    let b ← Byte.unescaped? c
    let (s, rest) ← readQuoted quote t
    return (b :: s, rest)
  | b :: t =>
    if b = quote then some ([], t)
    else if b = Byte.newline then none
    else do
      let (s, rest) ← readQuoted quote t
      return (b :: s, rest)

/-- **Reading a string literal**: its text, and what is behind it. -/
def readLiteral : Text → Option (Text × Text)
  | [] => none
  | q :: t => if q = Byte.quote || q = Byte.doubleQuote then readQuoted q t else none

variable {q : UInt8} {s t rest : Text}

/-- A byte that stands for itself. -/
theorem readQuoted_plain {b : UInt8} (hq : b ≠ q) (hbackslash : b ≠ Byte.backslash)
    (hnewline : b ≠ Byte.newline) (h : readQuoted q t = some (s, rest)) :
    readQuoted q (b :: t) = some (b :: s, rest) := by
  rw [readQuoted.eq_4 q b t (fun _ _ _ hb _ => hbackslash hb) (fun _ _ hb _ => hbackslash hb),
    if_neg hq, if_neg hnewline, h]
  rfl

/-- An escape of one byte. -/
theorem readQuoted_escape {b c : UInt8} (hc : Byte.unescaped? c = some b)
    (h : readQuoted q t = some (s, rest)) :
    readQuoted q (Byte.backslash :: c :: t) = some (b :: s, rest) := by
  have hx := Byte.ne_of_unescaped? hc
  rw [Byte.backslash, readQuoted.eq_3 q c t (fun _ _ _ hx' _ => hx hx'), hc, h]
  rfl

/-- An escape of two digits. -/
theorem readQuoted_hex (b : UInt8) (h : readQuoted q t = some (s, rest)) :
    readQuoted q (ascii "\\x" ++ Byte.hex b ++ t) = some (b :: s, rest) := by
  change readQuoted q (0x5c :: 0x78 :: _ :: _ :: t) = _
  rw [readQuoted, Byte.ofHex?_hex, h]
  rfl

/-- **What a byte between quotes is written as**: itself, unless it is a
quote of the literal, a backslash or a control byte; an escape of one
byte; or an escape of two digits. -/
theorem literalByte_forms (hq : q = Byte.quote ∨ q = Byte.doubleQuote) (b : UInt8) :
    (literalByte q b = [b] ∧ b ≠ q ∧ b ≠ Byte.backslash ∧ Byte.isControl b = false) ∨
    (∃ c, literalByte q b = [Byte.backslash, c] ∧ Byte.unescaped? c = some b ∧
      Byte.isControl c = false) ∨
    literalByte q b = ascii "\\x" ++ Byte.hex b := by
  unfold literalByte
  split_ifs with hescaped hn hr ht hcontrol
  · have hb : b = q ∨ b = Byte.backslash := by simpa using hescaped
    refine .inr (.inl ⟨b, rfl, ?_⟩)
    rcases hb with rfl | rfl
    · rcases hq with rfl | rfl <;> exact ⟨rfl, rfl⟩
    · exact ⟨rfl, rfl⟩
  · exact .inr (.inl ⟨0x6e, rfl, by rw [beq_iff_eq.1 hn]; rfl, rfl⟩)
  · exact .inr (.inl ⟨0x72, rfl, by rw [beq_iff_eq.1 hr]; rfl, rfl⟩)
  · exact .inr (.inl ⟨0x74, rfl, by rw [beq_iff_eq.1 ht]; rfl, rfl⟩)
  · exact .inr (.inr rfl)
  · have hb : b ≠ q ∧ b ≠ Byte.backslash := by simpa using hescaped
    exact .inl ⟨rfl, hb.1, hb.2, eq_false_of_ne_true hcontrol⟩

/-- **A byte between quotes** is read back. -/
theorem readQuoted_literalByte (hq : q = Byte.quote ∨ q = Byte.doubleQuote) (b : UInt8)
    (h : readQuoted q t = some (s, rest)) :
    readQuoted q (literalByte q b ++ t) = some (b :: s, rest) := by
  obtain ⟨hform, hb, hbackslash, hcontrol⟩ | ⟨c, hform, hc, -⟩ | hform := literalByte_forms hq b <;>
    rw [hform]
  · refine readQuoted_plain hb hbackslash ?_ h
    rintro rfl
    cases hcontrol
  · exact readQuoted_escape hc h
  · exact readQuoted_hex b h

/-- **Reading what a text is written as gives the text back.** -/
theorem readLiteral_literal (t rest : Text) :
    readLiteral (t.literal ++ rest) = some (t, rest) := by
  have hq := quoteFor_cases t
  have hbytes : ∀ u : Text,
      readQuoted (quoteFor t) (u.flatMap (literalByte (quoteFor t)) ++ quoteFor t :: rest) =
        some (u, rest) := by
    intro u
    induction u with
    | nil => rcases hq with hq | hq <;> rw [hq] <;> rfl
    | cons b u ih =>
      rw [List.flatMap_cons, List.append_assoc]
      exact readQuoted_literalByte hq b ih
  rw [literal, List.append_assoc, List.append_assoc, List.singleton_append, List.singleton_append,
    readLiteral, hbytes, if_pos]
  rcases hq with hq | hq <;> rw [hq] <;> rfl

end Text

end ScriptSplice
