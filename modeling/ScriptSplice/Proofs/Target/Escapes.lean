import ScriptSplice.Proofs.Target.Quoted
/-!
# What stands between the quotes

A string literal is its quote, an interior, and the quote again. The
interior can be read on its own: a backslash and what is behind it stand
for one byte, and every other byte stands for itself
(`Text.decodeEscapes`). The interior of the literal of a text is read as
the text, no quote in it is without a backslash, and no byte of the
literal is a control byte (`Text.literal_faithful`).
-/

namespace ScriptSplice

namespace Text

/-- **Reading an interior.** A backslash has to begin an escape. -/
def decodeEscapes : Text → Option Text
  | [] => some []
  | 0x5c :: 0x78 :: high :: low :: t => do
    return (← Byte.ofHex? high low) :: (← decodeEscapes t)
  | 0x5c :: c :: t => do
    return (← Byte.unescaped? c) :: (← decodeEscapes t)
  | b :: t => do
    if b = Byte.backslash then none
    else return b :: (← decodeEscapes t)

/-- The bytes of an interior that stand behind no backslash, without the
backslashes they could stand behind. -/
def unescapedBytes : Text → Text
  | [] => []
  | 0x5c :: _ :: t => unescapedBytes t
  | b :: t => b :: unescapedBytes t

/-- What stands between the quotes of the literal of a text. -/
def interior (t : Text) : Text := t.flatMap (literalByte (quoteFor t))

theorem literal_eq (t : Text) : t.literal = quoteFor t :: t.interior ++ [quoteFor t] := rfl

/-! ## Bytes -/

variable {q b c : UInt8} {s t : Text}

/-- A byte that stands for itself. -/
theorem decodeEscapes_plain (hb : b ≠ Byte.backslash) (h : decodeEscapes t = some s) :
    decodeEscapes (b :: t) = some (b :: s) := by
  rw [decodeEscapes.eq_4 b t (fun _ _ _ hb' _ => hb hb') (fun _ _ hb' _ => hb hb'), if_neg hb, h]
  rfl

/-- An escape of one byte. -/
theorem decodeEscapes_escape (hc : Byte.unescaped? c = some b) (h : decodeEscapes t = some s) :
    decodeEscapes (Byte.backslash :: c :: t) = some (b :: s) := by
  have hx := Byte.ne_of_unescaped? hc
  rw [Byte.backslash, decodeEscapes.eq_3 c t (fun _ _ _ hx' _ => hx hx'), hc, h]
  rfl

/-- An escape of two digits. -/
theorem decodeEscapes_hex (b : UInt8) (h : decodeEscapes t = some s) :
    decodeEscapes (ascii "\\x" ++ Byte.hex b ++ t) = some (b :: s) := by
  change decodeEscapes (0x5c :: 0x78 :: _ :: _ :: t) = _
  rw [decodeEscapes, Byte.ofHex?_hex, h]
  rfl

theorem unescapedBytes_plain (hb : b ≠ Byte.backslash) :
    unescapedBytes (b :: t) = b :: unescapedBytes t :=
  unescapedBytes.eq_3 b t fun _ _ hb' _ => hb hb'

theorem unescapedBytes_atoms {u : Text} (hu : u.all Byte.isAtom = true) :
    unescapedBytes (u ++ t) = u ++ unescapedBytes t := by
  induction u with
  | nil => rfl
  | cons b u ih =>
    rw [List.all_cons, Bool.and_eq_true] at hu
    have hb : b ≠ Byte.backslash := Byte.ne_of_isAtom hu.1 rfl
    rw [List.cons_append, unescapedBytes_plain hb, ih hu.2, List.cons_append]

section

variable (hq : q = Byte.quote ∨ q = Byte.doubleQuote) (b : UInt8)

include hq

/-- **A byte between quotes** is read back. -/
theorem decodeEscapes_literalByte (h : decodeEscapes t = some s) :
    decodeEscapes (literalByte q b ++ t) = some (b :: s) := by
  obtain ⟨hform, -, hb, -⟩ | ⟨c, hform, hc, -⟩ | hform := literalByte_forms hq b <;> rw [hform]
  · exact decodeEscapes_plain hb h
  · exact decodeEscapes_escape hc h
  · exact decodeEscapes_hex b h

/-- It brings no quote that is not escaped. -/
theorem not_mem_unescapedBytes_literalByte (h : q ∉ unescapedBytes t) :
    q ∉ unescapedBytes (literalByte q b ++ t) := by
  obtain ⟨hform, hne, hb, -⟩ | ⟨c, hform, -, -⟩ | hform := literalByte_forms hq b <;> rw [hform]
  · rw [List.singleton_append, unescapedBytes_plain hb, List.mem_cons, not_or]
    exact ⟨hne.symm, h⟩
  · exact h
  · have hquote : Byte.isAtom q = false := by rcases hq with rfl | rfl <;> rfl
    change q ∉ unescapedBytes (Byte.hex b ++ t)
    rw [unescapedBytes_atoms (Byte.isAtom_hex b), List.mem_append, not_or]
    refine ⟨fun hmem => ?_, h⟩
    exact Byte.ne_of_isAtom (List.all_eq_true.1 (Byte.isAtom_hex b) q hmem) hquote rfl

/-- It is written without control bytes. -/
theorem isControl_of_mem_literalByte (hc : c ∈ literalByte q b) : Byte.isControl c = false := by
  have hatom : ∀ c, Byte.isAtom c = true → Byte.isControl c = false :=
    Byte.forall_of_ofNat (by decide +kernel)
  obtain ⟨hform, -, -, hb⟩ | ⟨d, hform, -, hd⟩ | hform := literalByte_forms hq b <;>
    rw [hform] at hc
  · rw [List.mem_singleton] at hc
    rwa [hc]
  · rw [List.mem_cons, List.mem_singleton] at hc
    rcases hc with rfl | rfl
    · rfl
    · exact hd
  · rcases List.mem_append.1 hc with hc | hc
    · have hx : c = 0x5c ∨ c = 0x78 := by simpa [ascii] using hc
      rcases hx with rfl | rfl <;> rfl
    · exact hatom c (List.all_eq_true.1 (Byte.isAtom_hex b) c hc)

end

/-! ## Literals -/

theorem decodeEscapes_interior (t : Text) : decodeEscapes t.interior = some t := by
  have hbytes (u : Text) : decodeEscapes (u.flatMap (literalByte (quoteFor t))) = some u := by
    induction u with
    | nil => rfl
    | cons b u ih => exact decodeEscapes_literalByte (quoteFor_cases t) b ih
  exact hbytes t

theorem quoteFor_not_mem_interior (t : Text) : quoteFor t ∉ unescapedBytes t.interior := by
  have hbytes (u : Text) :
      quoteFor t ∉ unescapedBytes (u.flatMap (literalByte (quoteFor t))) := by
    induction u with
    | nil => exact List.not_mem_nil
    | cons b u ih => exact not_mem_unescapedBytes_literalByte (quoteFor_cases t) b ih
  exact hbytes t

theorem isControl_of_mem_literal {b : UInt8} (h : b ∈ t.literal) : Byte.isControl b = false := by
  have hquote : Byte.isControl (quoteFor t) = false := by
    rcases quoteFor_cases t with h | h <;> rw [h] <;> rfl
  rw [literal_eq, List.cons_append, List.mem_cons, List.mem_append, List.mem_singleton] at h
  rcases h with rfl | h | rfl
  · exact hquote
  · obtain ⟨c, -, hc⟩ := List.mem_flatMap.1 h
    exact isControl_of_mem_literalByte (quoteFor_cases t) c hc
  · exact hquote

theorem quoteFor_eq_doubleQuote_iff (t : Text) :
    quoteFor t = Byte.doubleQuote ↔ Byte.quote ∈ t ∧ Byte.doubleQuote ∉ t := by
  have hne : Byte.quote ≠ Byte.doubleQuote := by decide
  unfold quoteFor
  split
  · rename_i h
    simpa using h
  · rename_i h
    simpa [hne] using h

theorem literal_injective : Function.Injective literal := by
  intro s t h
  have hs := readLiteral_literal s []
  rw [h, readLiteral_literal] at hs
  exact (congrArg Prod.fst (Option.some.inj hs)).symm

/-- **A string literal is faithful and on one line.** It has no control
bytes. It is an interior between two quotes of one sort, the double one
exactly if the text has single quotes and no double one. In the interior
every such quote is escaped, and reading the interior gives the text. So
different texts have different literals. -/
theorem literal_faithful :
    (∀ t : Text,
      (∀ b ∈ t.literal, 0x20 ≤ b ∧ b ≠ 0x7f) ∧
      ∃ q inside, t.literal = q :: inside ++ [q] ∧
        (q = Byte.quote ∨ q = Byte.doubleQuote) ∧
        (q = Byte.doubleQuote ↔ Byte.quote ∈ t ∧ Byte.doubleQuote ∉ t) ∧
        q ∉ unescapedBytes inside ∧ decodeEscapes inside = some t) ∧
    Function.Injective literal := by
  refine ⟨fun t => ⟨fun b hb => ?_, quoteFor t, t.interior, literal_eq t, quoteFor_cases t,
    quoteFor_eq_doubleQuote_iff t, quoteFor_not_mem_interior t, decodeEscapes_interior t⟩,
    literal_injective⟩
  have hcontrol := isControl_of_mem_literal hb
  simpa [Byte.isControl] using hcontrol

/-- Both quotes, a backslash, a line break, and the byte of highest value. -/
example : literal [0x27, 0x22, 0x5c, 0x0a, 0xff] =
    ascii "'\\'\"\\\\\\n" ++ [0xff, 0x27] := by decide

end Text

end ScriptSplice
