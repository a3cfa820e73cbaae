import ScriptSplice.Program.Source
import ScriptSplice.Proofs.Target.FirstLine
import ScriptSplice.Proofs.Target.Lines
import ScriptSplice.Proofs.Target.Pieces
/-!
# Texts broken at marks

The mark of a line stands on a line of its own, so an expression in
brackets that carries one is broken before the mark and behind it. When
marks and blank lines are taken out of the text of a program, nothing but
those breaks tells it from the text of the same program without marks:
each text of a line (`Text.Unfolds`) comes to the same bytes.
-/

namespace ScriptSplice

namespace Text

/-- The first line of a text is neither a mark nor blank. -/
structure Stays (t : Text) : Prop where
  head : t.head? ≠ some Byte.hash
  begins : t.Begins

/-- **A text broken at marks**, and the same text unbroken. A mark stands
behind an opening bracket, and the line after it stays. -/
inductive Unfolds : Text → Text → Prop
  | plain {t : Text} : Byte.newline ∉ t → Unfolds t t
  | mark {p t q : Text} (line : Int) : Byte.newline ∉ p → t.Stays → Unfolds t q →
      Unfolds (p ++ ascii "(" ++ lineMark (some line) ++ t) (p ++ ascii "(" ++ q)

/-- A line that is neither a mark nor blank. -/
def isKept (l : Text) : Bool := !isMark l && !isBlank l

/-- The lines of a text that stay. -/
def keptLines (t : Text) : List Text := t.lines.filter isKept

variable {t u q r : Text}

/-- What comes later does not matter to the first line. -/
theorem Stays.append (h : t.Stays) (u : Text) : (t ++ u).Stays := by
  refine ⟨?_, h.begins.append u⟩
  cases t with
  | nil => exact absurd h.begins (by simp [Begins, firstLine, isBlank])
  | cons b t => exact h.head

/-! ## Putting texts together -/

namespace Unfolds

theorem append (h : Unfolds t q) (h' : Unfolds u r) : Unfolds (t ++ u) (q ++ r) := by
  induction h with
  | @plain t ht =>
    cases h' with
    | plain hu => exact .plain (by simp [ht, hu])
    | @mark p u r line hp hstays hu =>
      have hmark := Unfolds.mark line (p := t ++ p) (by simp [ht, hp]) hstays hu
      simpa only [List.append_assoc] using hmark
  | mark line hp hstays _ ih =>
    have hmark := Unfolds.mark line hp (hstays.append u) ih
    simpa only [List.append_assoc] using hmark

/-- The unbroken text is on one line. -/
theorem newline_not_mem (h : Unfolds t q) : Byte.newline ∉ q := by
  induction h with
  | plain ht => exact ht
  | mark line hp _ _ ih =>
    simp only [List.mem_append, not_or]
    exact ⟨⟨hp, by decide⟩, ih⟩

/-- The text of something in brackets. -/
theorem bracketed (h : Unfolds t q) (hhead : t.head? ≠ some Byte.hash) (line : Option Int) :
    Unfolds (ascii "(" ++ lineMark line ++ t ++ ascii ")") (ascii "(" ++ q ++ ascii ")") := by
  have hclosed : Unfolds (t ++ ascii ")") (q ++ ascii ")") := h.append (.plain (by decide))
  cases line with
  | none =>
    have hplain := Unfolds.append (.plain (by decide)) hclosed (t := ascii "(")
    simpa only [lineMark, List.append_nil, List.append_assoc] using hplain
  | some line =>
    have hstays : (t ++ ascii ")").Stays := by
      refine ⟨?_, ?_⟩
      · rw [List.head?_append]
        cases hh : t.head? with
        | none => decide
        | some b =>
          rw [hh] at hhead
          exact hhead
      · cases h with
        | plain ht => exact Begins.prepend (u := ascii ")") rfl ht
        | mark line hp _ _ =>
          exact (((Begins.prepend (u := ascii "(") rfl hp).append _).append _).append _
    have hmark := Unfolds.mark line (p := []) (by simp) hstays hclosed
    simpa only [List.append_assoc, List.nil_append] using hmark

end Unfolds

/-! ## What is left of the lines -/

theorem lines_append_newline (h : Byte.newline ∉ t) (u : Text) :
    lines (t ++ Byte.newline :: u) = t :: lines u := by
  have hne : ∀ b ∈ t, (b == Byte.newline) = false := fun b hb =>
    beq_false_of_ne fun heq => h (heq ▸ hb)
  exact splitWhere_append hne rfl u

/-- A mark is on a line of its own, behind a line that ends at it. -/
theorem lines_mark (h : Byte.newline ∉ t) (line : Int) (u : Text) :
    lines (t ++ lineMark (some line) ++ u) =
      t :: (Byte.hash :: ofInt line) :: lines u := by
  have hnumber : Byte.newline ∉ Byte.hash :: ofInt line := by
    rw [List.mem_cons, not_or]
    exact ⟨by decide, Byte.ne_newline_of_isAtom (isAtom_ofInt line).all⟩
  have hsplit : t ++ lineMark (some line) ++ u =
      t ++ Byte.newline :: ((Byte.hash :: ofInt line) ++ Byte.newline :: u) := by
    simp [lineMark, ascii, Byte.newline, Byte.hash]
  rw [hsplit, lines_append_newline h, lines_append_newline hnumber]

/-- A line on its own that stays. -/
theorem Stays.kept (h : t.Stays) (ht : Byte.newline ∉ t) : t.isKept = true := by
  have hblank : isBlank t = false := by
    have hbegins := h.begins
    rwa [Begins, firstLine_of_not_mem ht] at hbegins
  have hmark : isMark t = false := by
    rw [isMark, beq_eq_false_iff_ne]
    exact h.head
  rw [isKept, hmark, hblank]
  rfl

/-- **What is left of a broken text** are the bytes of the unbroken one. -/
theorem Unfolds.flatten_keptLines (h : Unfolds t q) (hstays : t.Stays) :
    t.keptLines.flatten = q := by
  unfold keptLines
  induction h with
  | @plain t ht =>
    rw [lines_of_not_mem ht, List.filter_cons_of_pos (hstays.kept ht)]
    simp
  | @mark p t q line hp ht _ ih =>
    have hopen : Byte.newline ∉ p ++ ascii "(" := by
      rw [List.mem_append, not_or]
      exact ⟨hp, by decide⟩
    have hfirst : (p ++ ascii "(").Stays := by
      refine ⟨?_, Begins.prepend (u := ascii "(") rfl hp⟩
      have hhead := hstays.head
      cases p with
      | nil => decide
      | cons b p => exact hhead
    rw [lines_mark hopen, List.filter_cons_of_pos (hfirst.kept hopen),
      List.filter_cons_of_neg (by simp [isKept, isMark]), List.flatten_cons, ih ht]

/-- The unbroken text stays where the broken one does. -/
theorem Unfolds.stays (h : Unfolds t q) (hstays : t.Stays) : q.Stays := by
  cases h with
  | plain => exact hstays
  | @mark p _ q line hp =>
    refine ⟨?_, (Begins.prepend (u := ascii "(") rfl hp).append q⟩
    have hhead := hstays.head
    cases p with
    | nil =>
      change some (0x28 : UInt8) ≠ some Byte.hash
      decide
    | cons b p => exact hhead

/-- So a text that is broken and one that is not leave the same, if they
do not begin with a mark: both lines are blank or both stay. -/
theorem Unfolds.flatten_keptLines_eq (h : Unfolds t q) (hhead : t.head? ≠ some Byte.hash) :
    t.keptLines.flatten = q.keptLines.flatten := by
  by_cases hbegins : t.Begins
  · have hstays : t.Stays := ⟨hhead, hbegins⟩
    have hwhole : Unfolds q q := .plain h.newline_not_mem
    rw [h.flatten_keptLines hstays, hwhole.flatten_keptLines (h.stays hstays)]
  · cases h with
    | plain => rfl
    | mark line hp =>
      exact absurd (((Begins.prepend (u := ascii "(") rfl hp).append _).append _) hbegins

/-- A broken text that does not begin with a mark. -/
structure Folds (t q : Text) : Prop where
  unfolds : Unfolds t q
  head : t.head? ≠ some Byte.hash

/-- A text on one line without marks. -/
theorem Folds.plain (hnewline : Byte.newline ∉ t) (hhash : Byte.hash ∉ t) : Folds t t :=
  ⟨.plain hnewline, fun h => hhash (List.mem_of_mem_head? h)⟩

theorem Folds.append (h : Folds t q) (h' : Folds u r) : Folds (t ++ u) (q ++ r) := by
  refine ⟨h.unfolds.append h'.unfolds, ?_⟩
  cases t with
  | nil => exact h'.head
  | cons b t => exact h.head

/-- The unbroken text is not broken itself. -/
theorem Folds.unbroken (h : Folds t q) : Folds q q := by
  refine ⟨.plain h.unfolds.newline_not_mem, ?_⟩
  have hhead := h.head
  cases h.unfolds with
  | plain => exact hhead
  | @mark p _ q line =>
    cases p with
    | nil => simp [ascii, Byte.hash]
    | cons b p => exact hhead

/-- On one line it is no mark. -/
theorem Folds.isMark_lines (h : Folds t q) : q.lines.any isMark = false := by
  rw [lines_of_not_mem h.unfolds.newline_not_mem, List.any_cons, List.any_nil, Bool.or_false,
    isMark, beq_eq_false_iff_ne]
  exact h.unbroken.head

end Text

/-! ## Programs -/

/-- Texts on one line without marks. -/
def Vocabulary.markless : Vocabulary where
  byte b := b ≠ Byte.newline ∧ b ≠ Byte.hash
  blank := True
  field t := ∀ b ∈ t, b ≠ Byte.newline ∧ b ≠ Byte.hash
  byte_space := by decide

namespace Text

/-- A text over the vocabulary is not broken. -/
theorem Folds.word {t : Text} (h : ∀ b ∈ t, b ≠ Byte.newline ∧ b ≠ Byte.hash) : Folds t t :=
  .plain (fun hmem => (h _ hmem).1 rfl) fun hmem => (h _ hmem).2 rfl

theorem Folds.of_isPlain {t : Text} (h : t.all Byte.isPlain = true) : Folds t t := by
  refine .word fun b hb => ?_
  have hplain := List.all_eq_true.1 h b hb
  constructor <;> rintro rfl <;> exact absurd hplain (by decide)

/-- A literal begins with an atom or a quote. -/
theorem Folds.literal (l : Leaf) : Folds l.literal l.literal := by
  refine ⟨.plain l.newline_not_mem_literal, ?_⟩
  obtain ⟨b, t, h, hb⟩ := l.exists_head_literal
  rw [h]
  rintro ⟨⟩
  rcases hb with hb | hb | hb <;> exact absurd hb (by decide)

/-- **Programs are broken at marks**, and nowhere else. -/
theorem Folds.pieces : Pieces .markless Folds where
  plain := .of_isPlain
  word := .word
  field := .word
  literal := .literal
  append := .append
  parentheses line h := ⟨h.unfolds.bracketed h.head line, by simp [ascii, Byte.hash]⟩
  brackets h :=
    (append (plain (t := ascii "[") (by decide) (by decide)) h).append
      (plain (by decide) (by decide))
  braces h :=
    (append (plain (t := ascii "\x7b") (by decide) (by decide)) h).append
      (plain (by decide) (by decide))

end Text

end ScriptSplice
