import ScriptSplice.Proofs.Target.Sources
/-!
# The lines of a source

The source of a program is its line table, if there is to be one, the
bindings of its helpers, and then what stays of each of its lines
(`Program.lines_source`). A binding is a line of its own that always
stays, so the head of a source is the bindings in the order of first use.
-/

namespace ScriptSplice

namespace Text

/-- A text on one line that stays is kept as it is. -/
theorem keptLines_of_stays {t : Text} (h : t.Stays) (hnewline : Byte.newline ∉ t) :
    t.keptLines = [t] := by
  rw [keptLines, lines_of_not_mem hnewline, List.filter_cons_of_pos (h.kept hnewline),
    List.filter_nil]

/-- A line of a text has no line break in it. -/
theorem newline_not_mem_of_mem_lines {t l : Text} (h : l ∈ t.lines) : Byte.newline ∉ l :=
  fun hmem => absurd (forall_mem_splitWhere _ t l h _ hmem) (by decide)

theorem newline_not_mem_of_mem_keptLines {t l : Text} (h : l ∈ t.keptLines) :
    Byte.newline ∉ l :=
  newline_not_mem_of_mem_lines (List.mem_filter.1 h).1

end Text

namespace Program

variable (o : Options) (p : Program)

/-- The line table of a program, if there is to be one. -/
def tableLines : List Text :=
  let a := Assembly.ofLines (p.written o)
  if a.marked && o.lineTable then [a.tableLine (tableName o)] else []

/-- What stays of the lines of a program. -/
def body : List Text := p.lines.flatMap fun l => (l.render o.stem o.indent).keptLines

/-- The bindings of a program, and what stays of its lines. -/
def layout : List Text := p.helpers.map (bindingLine o) ++ p.body o

end Program

/-! ## Stems

All that the stem has to do for this is to leave the lines alone that its
names stand on. An identifier does. -/

/-- **A harmless stem**: it does not break the line that a name with it
stands on, or make a mark of it. -/
structure Text.Harmless (stem : Text) : Prop where
  newline : Byte.newline ∉ stem
  head : stem.head? ≠ some Byte.hash

namespace Text.Harmless

theorem of_isIdentifier {stem : Text} (h : stem.isIdentifier = true) : stem.Harmless where
  newline hmem := absurd
    (List.all_eq_true.1 (all_isWord_of_isName (isName_of_isIdentifier h)) _ hmem) (by decide)
  head := by
    cases stem with
    | nil => simp
    | cons b t =>
      rw [List.head?_cons]
      rintro ⟨rfl⟩
      cases h

variable {o : Options} (h : o.stem.Harmless)

include h

/-- A name with the stem is on one line. -/
theorem newline_not_mem_append {t : Text} (ht : Byte.newline ∉ t) : Byte.newline ∉ o.stem ++ t := by
  rw [List.mem_append, not_or]
  exact ⟨h.newline, ht⟩

theorem newline_not_mem_bindingLine (helper : Helper) :
    Byte.newline ∉ Program.bindingLine o helper := by
  have hnormal : Byte.newline ∉ helper.key.normalize := fun hmem =>
    absurd (List.all_eq_true.1 (all_isWord_normalize _) _ hmem) (by decide)
  have hliteral := helper.key.newline_not_mem_literal
  simp only [Program.bindingLine, Helper.localName, runtimeName, List.append_assoc, List.mem_append,
    not_or]
  exact ⟨h.newline, by decide, hnormal, by decide, h.newline, by decide, by decide, hliteral,
    by decide⟩

theorem stays_bindingLine (helper : Helper) : (Program.bindingLine o helper).Stays := by
  simp only [Program.bindingLine, Helper.localName, List.append_assoc]
  refine ⟨?_, (Begins.append (t := ascii "_helper_") rfl _).prepend h.newline⟩
  rw [List.head?_append]
  cases hhead : o.stem.head? with
  | none => simp [ascii, Byte.hash]
  | some b =>
    rw [Option.some_or, ← hhead]
    exact h.head

/-- A binding is a line of its own that stays. -/
theorem keptLines_bindingLine (helper : Helper) :
    (Program.bindingLine o helper).keptLines = [Program.bindingLine o helper] :=
  keptLines_of_stays (h.stays_bindingLine helper) (h.newline_not_mem_bindingLine helper)

variable (p : Program)

/-- **The lines that stay** are the bindings and what stays of the lines. -/
theorem layout_eq : (p.written o).filter Text.isKept = p.layout o := by
  rw [Program.filter_written, Program.layout, Program.body, List.flatMap_map]
  congr 1
  rw [List.map_eq_flatMap]
  exact List.flatMap_congr fun helper _ => h.keptLines_bindingLine helper

/-- The source is these lines, one under the other. -/
theorem source_eq : p.source o = List.intercalate (ascii "\n") (p.tableLines o ++ p.layout o) := by
  rw [Program.source, Assembly.kept_ofLines, h.layout_eq p, Program.tableLines]

theorem newline_not_mem_layout : ∀ t ∈ p.layout o, Byte.newline ∉ t := by
  refine List.forall_mem_append.2 ⟨fun t ht => ?_, fun t ht => ?_⟩
  · obtain ⟨helper, -, rfl⟩ := List.mem_map.1 ht
    exact h.newline_not_mem_bindingLine helper
  · obtain ⟨l, -, hl⟩ := List.mem_flatMap.1 ht
    exact newline_not_mem_of_mem_keptLines hl

theorem newline_not_mem_tableLines : ∀ t ∈ p.tableLines o, Byte.newline ∉ t := by
  intro t ht
  simp only [Program.tableLines] at ht
  split at ht
  · rw [List.mem_singleton.1 ht]
    exact Assembly.newline_not_mem_tableLine _ (h.newline_not_mem_append (by decide))
  · exact absurd ht List.not_mem_nil

end Text.Harmless

namespace Program

variable {o : Options} (p : Program) (hstem : o.stem.isIdentifier = true)

include hstem

theorem layout_eq : (p.written o).filter Text.isKept = p.layout o :=
  (Text.Harmless.of_isIdentifier hstem).layout_eq p

theorem source_eq : p.source o = List.intercalate (ascii "\n") (p.tableLines o ++ p.layout o) :=
  (Text.Harmless.of_isIdentifier hstem).source_eq p

theorem newline_not_mem_tableLines : ∀ t ∈ p.tableLines o, Byte.newline ∉ t :=
  (Text.Harmless.of_isIdentifier hstem).newline_not_mem_tableLines p

/-- **The lines of a source**, unless it is empty. -/
theorem lines_source_of_ne_nil (hne : p.tableLines o ++ p.layout o ≠ []) :
    Text.lines (p.source o) = p.tableLines o ++ p.layout o := by
  have h := Text.Harmless.of_isIdentifier hstem
  rw [source_eq p hstem]
  exact Text.lines_intercalate (List.forall_mem_append.2
    ⟨h.newline_not_mem_tableLines p, h.newline_not_mem_layout p⟩) hne

end Program

end ScriptSplice
