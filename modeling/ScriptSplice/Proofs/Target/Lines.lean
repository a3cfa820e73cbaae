import Mathlib.Data.List.Basic
import ScriptSplice.Program.Source
import ScriptSplice.Proofs.Target.Reading
/-!
# The lines of programs

The column of a line is told by its blanks. A line of which anything can
be read has no line break, is not blank and is not a mark; so a program
whose lines can all be read is split into exactly these lines again
(`Program.lines_source`).
-/

namespace ScriptSplice

variable {stem : Text}

/-- The column of a line is what its blanks come to. -/
theorem readLine_replicate {t : Text} {s : Statement} (hs : Statement.read t = some s) (k : Nat)
    (hblank : t.head? ≠ some 0x20) : readLine (List.replicate k 0x20 ++ t) = some (k, s) := by
  have hbreak : ∀ b ∈ List.replicate k (0x20 : UInt8), (b == 0x20) = true := by
    intro b hb
    rw [List.eq_of_mem_replicate hb]
    rfl
  have htake : t.takeWhile (· == 0x20) = [] ∧ t.dropWhile (· == 0x20) = t := by
    cases t with
    | nil => exact ⟨rfl, rfl⟩
    | cons b t =>
      have hb : (b == 0x20) = false := beq_false_of_ne fun h => hblank (by rw [h]; rfl)
      exact ⟨List.takeWhile_cons_of_neg (by simp [hb]), List.dropWhile_cons_of_neg (by simp [hb])⟩
  rw [readLine, List.dropWhile_append_of_pos hbreak, List.takeWhile_append_of_pos hbreak, htake.1,
    htake.2, hs, List.append_nil, List.length_replicate]
  rfl

theorem readLine_render {width depth : Nat} {stmt : Stmt} {s : Statement}
    (hs : Statement.read (stmt.render stem) = some s)
    (hblank : (stmt.render stem).head? ≠ some 0x20) :
    readLine (Line.render stem width ⟨depth, stmt⟩) = some (depth * width, s) :=
  readLine_replicate hs _ hblank

/-- What begins with a name does not begin with a blank. -/
theorem head?_name_append {x : Text} (hx : x.isName = true) (t : Text) :
    (x ++ t).head? ≠ some 0x20 := by
  cases x with
  | nil => simp [Text.isName] at hx
  | cons b x =>
    rw [List.cons_append, List.head?_cons]
    rintro ⟨rfl⟩
    cases hx

/-! ## What cannot be read -/

namespace Scanner

theorem step_newline (r : Scanner) : r.step Byte.newline = none := by
  unfold step
  split
  · rfl
  · rfl

theorem not_mem_newline {r r' : Scanner} {t : Text} (h : r.run t = some r') :
    Byte.newline ∉ t := by
  induction t generalizing r with
  | nil => simp
  | cons b t ih =>
    rw [run_cons] at h
    obtain ⟨r₁, hstep, hrun⟩ := Option.bind_eq_some_iff.1 h
    rw [List.mem_cons, not_or]
    refine ⟨?_, ih hrun⟩
    rintro rfl
    rw [step_newline] at hstep
    cases hstep

end Scanner

theorem Term.run_of_read {t : Text} {e : Term} (h : Term.read t = some e) :
    ∃ r, Scanner.start.run t = some r := by
  unfold Term.read at h
  cases hrun : Scanner.start.run t with
  | none => simp [hrun] at h
  | some r => exact ⟨r, rfl⟩

namespace Statement

private theorem not_mem_words (t : Text) : Byte.newline ∉ t.takeWhile Byte.isWord := fun h =>
  absurd (List.all_eq_true.1 List.all_takeWhile _ h) (by decide)

/-- What follows is split off. -/
private theorem not_mem_of_isPrefixOf? {w t rest : Text} (hw : Byte.newline ∉ w)
    (h : w.isPrefixOf? t = some rest) (hrest : Byte.newline ∉ rest) : Byte.newline ∉ t := by
  rw [← List.isPrefixOf?_eq_some_iff_append_eq.1 h, List.mem_append, not_or]
  exact ⟨hw, hrest⟩

private theorem not_mem_of_word {t : Text} (h : Byte.newline ∉ t.dropWhile Byte.isWord) :
    Byte.newline ∉ t := by
  rw [← List.takeWhile_append_dropWhile (p := Byte.isWord) (l := t), List.mem_append, not_or]
  exact ⟨not_mem_words t, h⟩

theorem not_mem_newline {t : Text} {s : Statement} (h : read t = some s) : Byte.newline ∉ t := by
  unfold read at h
  split at h
  · rename_i ht
    rw [ht]
    decide
  · split at h
    · rename_i rest hrest
      refine not_mem_of_isPrefixOf? (by decide) hrest ?_
      rw [readScope] at h
      obtain ⟨behind, hbehind, h⟩ := Option.bind_eq_some_iff.1 h
      obtain ⟨context, hcontext, h⟩ := Option.bind_eq_some_iff.1 h
      obtain ⟨e, he, -⟩ := Option.bind_eq_some_iff.1 h
      obtain ⟨r, hrun⟩ := Term.run_of_read he
      have hnot : Byte.newline ∉ context := by
        simpa using Scanner.not_mem_newline hrun
      simpa using not_mem_of_isPrefixOf? (by decide) hbehind
        (not_mem_of_word (not_mem_of_isPrefixOf? (by decide) hcontext hnot))
    · rw [readSimple] at h
      split at h
      · rename_i value hvalue
        split at h
        · obtain ⟨e, he, -⟩ := Option.map_eq_some_iff.1 h
          obtain ⟨r, hrun⟩ := Term.run_of_read he
          exact not_mem_of_word (not_mem_of_isPrefixOf? (by decide) hvalue
            (Scanner.not_mem_newline hrun))
        · cases h
      · obtain ⟨e, he, -⟩ := Option.map_eq_some_iff.1 h
        obtain ⟨r, hrun⟩ := Term.run_of_read he
        exact Scanner.not_mem_newline hrun

/-- A statement does not begin with what begins a mark, or with a tab. -/
theorem head_of_read {t : Text} {s : Statement} (h : read t = some s) :
    ∃ b u, t = b :: u ∧ b ≠ Byte.hash ∧ b ≠ 0x09 := by
  cases t with
  | nil => cases h
  | cons b u =>
    refine ⟨b, u, rfl, ?_, ?_⟩ <;> rintro rfl <;> cases h

end Statement

/-- **A line that can be read** has no line break, and is neither a mark
nor blank. -/
theorem readLine_clean {t : Text} {r : Nat × Statement} (h : readLine t = some r) :
    Byte.newline ∉ t ∧ isMark t = false ∧ isBlank t = false := by
  obtain ⟨s, hs, -⟩ := Option.map_eq_some_iff.1 h
  obtain ⟨b, u, hu, hhash, htab⟩ := Statement.head_of_read hs
  -- the line is blanks, and behind them a statement that begins with `b`
  have hmem : b ∈ t.dropWhile (· == 0x20) := by rw [hu]; exact List.mem_cons_self
  have hblank : b ≠ 0x20 := by
    have hhead := List.head?_dropWhile_not (· == (0x20 : UInt8)) t
    rw [hu] at hhead
    simpa using hhead
  have hblanks : ∀ c ∈ t.takeWhile (· == 0x20), c = 0x20 := by
    have hall := List.all_takeWhile (p := (· == (0x20 : UInt8))) (l := t)
    exact fun c hc => eq_of_beq (List.all_eq_true.1 hall c hc)
  have hsplit := List.takeWhile_append_dropWhile (p := (· == (0x20 : UInt8))) (l := t)
  refine ⟨?_, ?_, ?_⟩
  · rw [← hsplit, List.mem_append, not_or]
    refine ⟨fun hnewline => absurd (hblanks _ hnewline) (by decide), ?_⟩
    exact Statement.not_mem_newline hs
  · rw [isMark, ← hsplit, hu]
    cases hws : t.takeWhile (· == 0x20) with
    | nil => simpa using hhash
    | cons c ws =>
      rw [hblanks c (by rw [hws]; exact List.mem_cons_self)]
      rfl
  · rw [isBlank, List.all_eq_false]
    refine ⟨b, ?_, by simp [hblank, htab]⟩
    rw [← hsplit, List.mem_append]
    exact Or.inr hmem

/-! ## The lines of a program -/

namespace Text

private theorem beq_newline {t : Text} (h : Byte.newline ∉ t) :
    ∀ b ∈ t, (b == Byte.newline) = false := fun _ hb =>
  beq_false_of_ne fun heq => h (heq ▸ hb)

/-- A text without line breaks is a line. -/
theorem lines_of_not_mem {t : Text} (h : Byte.newline ∉ t) : lines t = [t] :=
  splitWhere_of_forall (beq_newline h)

/-- **Lines with breaks between them** are read back as these lines. -/
theorem lines_intercalate {ts : List Text} (hts : ∀ t ∈ ts, Byte.newline ∉ t) (hne : ts ≠ []) :
    lines (List.intercalate (ascii "\n") ts) = ts := by
  induction ts with
  | nil => exact absurd rfl hne
  | cons t ts ih =>
    rw [List.forall_mem_cons] at hts
    cases ts with
    | nil => rw [List.intercalate_singleton, lines_of_not_mem hts.1]
    | cons u us =>
      have hrest := ih hts.2 (List.cons_ne_nil _ _)
      rw [List.intercalate_cons_cons, List.append_assoc]
      change lines (t ++ Byte.newline :: List.intercalate (ascii "\n") (u :: us)) = _
      rw [lines] at hrest ⊢
      rw [splitWhere_append (beq_newline hts.1) (b := Byte.newline) rfl, hrest]

end Text

/-- Lines that are neither marks nor blank all stay. -/
private theorem foldl_step {ts : List Text} (hts : ∀ t ∈ ts, isMark t = false ∧ isBlank t = false)
    (a : Assembly) : ts.foldl Assembly.step a = { a with kept := ts.reverse ++ a.kept } := by
  induction ts generalizing a with
  | nil => rfl
  | cons t ts ih =>
    rw [List.forall_mem_cons] at hts
    have hstep : a.step t = { a with kept := t :: a.kept } := by
      rw [Assembly.step, hts.1.1, hts.1.2]
      rfl
    rw [List.foldl_cons, hstep, ih hts.2]
    simp

/-- The bindings of a program and its lines, one after the other. -/
def Program.texts (options : Options) (p : Program) : List Text :=
  p.helpers.map (bindingLine options) ++ p.lines.map (Line.render options.stem options.indent)

/-- **A program that can be read line by line** is its bindings and lines,
and nothing else. -/
theorem Program.lines_source {options : Options} {p : Program} (hne : p.texts options ≠ [])
    (hread : ∀ t ∈ p.texts options, ∃ r, readLine t = some r) :
    Text.lines (p.source options) = p.texts options := by
  have hclean : ∀ t ∈ p.texts options,
      Byte.newline ∉ t ∧ isMark t = false ∧ isBlank t = false := fun t ht => by
    obtain ⟨r, hr⟩ := hread t ht
    exact readLine_clean hr
  have hwritten : p.written options = p.texts options := by
    have hlines : ∀ ts : List Text, (∀ t ∈ ts, Byte.newline ∉ t) → ts.flatMap Text.lines = ts := by
      intro ts hts
      induction ts with
      | nil => rfl
      | cons t ts ih =>
        rw [List.forall_mem_cons] at hts
        rw [List.flatMap_cons, Text.lines_of_not_mem hts.1, ih hts.2]
        rfl
    exact hlines _ fun t ht => (hclean t ht).1
  have hsource : p.source options = List.intercalate (ascii "\n") (p.texts options) := by
    rw [source, Assembly.ofLines, hwritten, foldl_step fun t ht => (hclean t ht).2]
    simp [Assembly.initial]
  rw [hsource, Text.lines_intercalate (fun t ht => (hclean t ht).1) hne]

end ScriptSplice
