import ScriptSplice.Program.LineTable
import ScriptSplice.Proofs.Target.Literals
/-!
# The first line of a text

Whether a line of a program stays depends on how it begins, and a text
put together from pieces begins as its first pieces do.
-/

namespace ScriptSplice

/-- The first line of a text. -/
def Text.firstLine (t : Text) : Text := t.takeWhile (· != Byte.newline)

/-- The first line of a text is not blank. -/
def Text.Begins (t : Text) : Prop := isBlank t.firstLine = false

namespace Text

variable {t u : Text}

theorem firstLine_append (h : Byte.newline ∉ t) (u : Text) :
    firstLine (t ++ u) = t ++ firstLine u :=
  List.takeWhile_append_of_pos fun _ hb => bne_iff_ne.2 fun heq => h (heq ▸ hb)

theorem firstLine_of_not_mem (h : Byte.newline ∉ t) : firstLine t = t := by
  have happend := firstLine_append h []
  rw [List.append_nil] at happend
  rw [happend]
  exact List.append_nil t

theorem isBlank_append (t u : Text) : isBlank (t ++ u) = (isBlank t && isBlank u) :=
  List.all_append

/-- A text on one line that is not blank. -/
theorem Begins.of_not_mem (h : Byte.newline ∉ t) (hblank : isBlank t = false) : t.Begins := by
  rw [Begins, firstLine_of_not_mem h]
  exact hblank

/-- What comes later changes nothing. -/
theorem Begins.append (h : t.Begins) (u : Text) : (t ++ u).Begins := by
  rw [Begins, firstLine] at h ⊢
  rw [List.takeWhile_append]
  split
  · rename_i hlength
    have hwhole : t.takeWhile (· != Byte.newline) = t :=
      (List.takeWhile_prefix _).eq_of_length hlength
    rw [hwhole] at h
    rw [isBlank_append, h, Bool.false_and]
  · exact h

/-- And neither does what is before it on the line. -/
theorem Begins.prepend (h : u.Begins) (ht : Byte.newline ∉ t) : (t ++ u).Begins := by
  rw [Begins, firstLine_append ht, isBlank_append, h, Bool.and_false]

/-- A text begins if its first byte is not a blank. -/
theorem Begins.cons {b : UInt8} (hnewline : b ≠ Byte.newline) (hspace : b ≠ 0x20)
    (htab : b ≠ 0x09) (t : Text) : Begins (b :: t) := by
  have hbyte : Begins [b] :=
    .of_not_mem (by simpa using hnewline.symm) (by simp [isBlank, hspace, htab])
  exact hbyte.append t

theorem Begins.atom {b : UInt8} (h : Byte.isAtom b = true) (t : Text) : Begins (b :: t) :=
  .cons (Byte.ne_of_isAtom h rfl) (Byte.ne_of_isAtom h rfl) (Byte.ne_of_isAtom h rfl) t

theorem Begins.of_isIdentifier (h : t.isIdentifier = true) : t.Begins := by
  cases t with
  | nil => cases h
  | cons b t =>
    simp only [isIdentifier, Bool.and_eq_true, Bool.or_eq_true, beq_iff_eq] at h
    rcases h.1 with hb | rfl
    · exact .atom (by simp [Byte.isAtom, Byte.isAlphanumeric, hb]) t
    · exact .cons (by decide) (by decide) (by decide) t

theorem Begins.literal (l : Leaf) : l.literal.Begins := by
  obtain ⟨b, t, h, hb⟩ := l.exists_head_literal
  rw [h]
  rcases hb with hb | rfl | rfl
  · exact .atom hb t
  · exact .cons (by decide) (by decide) (by decide) t
  · exact .cons (by decide) (by decide) (by decide) t

end Text

end ScriptSplice
