import ScriptSplice.Proofs.Target.Marks
/-!
# Sources with and without marks

The text of a program keeps the lines that are neither marks nor blank.
For a program over a markless vocabulary these lines come to the same
bytes whether its marks are taken out of the text, or were never in the
program: a mark on a line of its own leaves nothing, and any other line
is broken at marks alone. A line table is before them only if there was a
mark.
-/

namespace ScriptSplice

open Text (Folds)

/-! ## Assembling -/

namespace Assembly

/-- The lines that stay are kept, the last one first. -/
theorem kept_foldl (ts : List Text) (a : Assembly) :
    (ts.foldl step a).kept = (ts.filter Text.isKept).reverse ++ a.kept := by
  induction ts generalizing a with
  | nil => rfl
  | cons t ts ih =>
    rw [List.foldl_cons, ih]
    unfold step
    by_cases hmark : isMark t
    · rw [if_pos hmark, List.filter_cons_of_neg (by simp [Text.isKept, hmark])]
    · rw [if_neg hmark]
      by_cases hblank : isBlank t
      · rw [if_pos hblank, List.filter_cons_of_neg (by simp [Text.isKept, hblank])]
      · rw [if_neg hblank, List.filter_cons_of_pos (by simp [Text.isKept, hmark, hblank])]
        simp

theorem marked_foldl (ts : List Text) (a : Assembly) :
    (ts.foldl step a).marked = (a.marked || ts.any isMark) := by
  induction ts generalizing a with
  | nil => simp
  | cons t ts ih =>
    rw [List.foldl_cons, ih, List.any_cons]
    unfold step
    by_cases hmark : isMark t
    · rw [if_pos hmark, hmark]
      simp
    · rw [if_neg hmark, Bool.eq_false_iff.2 hmark]
      split <;> simp

theorem kept_ofLines (ts : List Text) : (ofLines ts).kept.reverse = ts.filter Text.isKept := by
  simp [ofLines, kept_foldl, initial]

theorem marked_ofLines (ts : List Text) : (ofLines ts).marked = ts.any isMark :=
  marked_foldl ts initial

/-- The line table is on one line. -/
theorem newline_not_mem_tableLine (a : Assembly) {name : Text} (hname : Byte.newline ∉ name) :
    Byte.newline ∉ a.tableLine name := by
  have hcolumn (entries : List Int) : Byte.newline ∉ column entries := by
    have hentries := Folds.pieces.brackets (Folds.pieces.commaSeparated fun i (_ : i ∈ entries) =>
      Folds.of_isPlain (Text.isAtom_ofInt i).isPlain)
    exact hentries.unfolds.newline_not_mem
  simp only [tableLine, List.mem_append, not_or]
  exact ⟨⟨⟨⟨hname, by decide⟩, hcolumn _⟩, by decide⟩, hcolumn _⟩

end Assembly

/-! ## Lines -/

namespace Line

variable {stem : Text} {width : Nat}

theorem folds_indentation (width depth : Nat) :
    Folds (indentation width depth) (indentation width depth) := by
  refine .plain (fun hmem => ?_) fun hmem => ?_ <;>
    exact absurd (List.eq_of_mem_replicate hmem) (by decide)

/-- A mark on a line of its own leaves nothing. -/
theorem keptLines_mark (stem : Text) (width depth : Nat) (line : Int) :
    (render stem width ⟨depth, .mark line⟩).keptLines = [] := by
  have hindentation : Byte.newline ∉ indentation width depth :=
    (folds_indentation width depth).unfolds.newline_not_mem
  have hblank : isBlank (indentation width depth) = true :=
    List.all_eq_true.2 fun b hb => by rw [List.eq_of_mem_replicate hb]; rfl
  have hlines := Text.lines_mark hindentation line []
  rw [List.append_nil] at hlines
  rw [Text.keptLines, render, Stmt.render, hlines,
    List.filter_cons_of_neg (by simp [Text.isKept, hblank]),
    List.filter_cons_of_neg (by simp [Text.isKept, isMark])]
  rfl

variable (hstem : stem.isName = true)

include hstem

theorem folds_render (width : Nat) {l : Line} (h : l.stmt.Over .markless) :
    Folds (l.render stem width) (l.unmarked.render stem width) :=
  (folds_indentation width l.depth).append (h.pieces Folds.pieces hstem)

/-- **What is left of some lines** has the bytes that are left of them
without their marks. -/
theorem flatten_keptLines {ls : List Line} (h : ∀ l ∈ statements ls, l.stmt.Over .markless) :
    (ls.flatMap fun l => (l.render stem width).keptLines).flatten =
      ((unmarkedAll ls).flatMap fun l => (l.render stem width).keptLines).flatten := by
  induction ls with
  | nil => rfl
  | cons l ls ih =>
    obtain ⟨depth, s⟩ := l
    by_cases hmark : s.isMark
    · cases s <;> cases hmark
      rw [statements_mark] at h
      rw [List.flatMap_cons, keptLines_mark, List.nil_append, unmarkedAll_mark, ih h]
    · rw [Bool.not_eq_true] at hmark
      rw [statements_cons ls depth hmark, List.forall_mem_cons] at h
      have hl := folds_render hstem width h.1
      rw [unmarkedAll_cons ls depth hmark, List.flatMap_cons, List.flatMap_cons,
        List.flatten_append, List.flatten_append, ih h.2, hl.unfolds.flatten_keptLines_eq hl.head]
      rfl

/-- Lines without their marks are no marks, and have none. -/
theorem isMark_lines {ls : List Line} (h : ∀ l ∈ statements ls, l.stmt.Over .markless) :
    ∀ l ∈ unmarkedAll ls, (l.render stem width).lines.any isMark = false := by
  intro l hl
  obtain ⟨k, hk, rfl⟩ := List.mem_map.1 hl
  exact (folds_render hstem width (h k hk)).isMark_lines

end Line

/-! ## Programs -/

namespace Program

/-- The first source has the lines of the second one, broken elsewhere,
and may have a line table before them. -/
def SameText (o : Options) (source plain : Text) : Prop :=
  ∃ table body, Text.lines source = table ++ body ∧ body.flatten = (Text.lines plain).flatten ∧
    (table = [] ∨ o.lineTable = true ∧ ∃ xs ys : List Int,
      table = [tableName o ++ ascii " = " ++ Assembly.column xs ++ ascii ", " ++
        Assembly.column ys])

variable {o : Options}

theorem folds_bindingLine (hstem : o.stem.isName = true) (h : Helper) :
    Folds (bindingLine o h) (bindingLine o h) := by
  have hP := Folds.pieces
  have hhelpers := hP.append (hP.append (hP.append (hP.name (isName_localName hstem h))
    (hP.fixed " = " rfl)) (hP.name (isName_runtimeName hstem))) (hP.fixed ".helpers" rfl)
  have hline := hP.item hhelpers (hP.literal (.str h.key))
  simp only [List.append_assoc] at hline
  simp only [bindingLine, List.append_assoc]
  exact hline

/-- The lines of a program that stay. -/
theorem filter_written (o : Options) (p : Program) :
    (p.written o).filter Text.isKept =
      (p.helpers.map (bindingLine o)).flatMap Text.keptLines ++
        p.lines.flatMap fun l => (l.render o.stem o.indent).keptLines := by
  rw [written, List.filter_flatMap, List.flatMap_append, List.flatMap_map (l := p.lines)]
  rfl

/-- **The text of a program line by line**: a line table, if it is wanted
and there is a mark, and the lines that stay. -/
theorem lines_source_eq (hstem : o.stem.isName = true) (p : Program) :
    ∃ table body, Text.lines (p.source o) = table ++ body ∧
      body.flatten = ((p.written o).filter Text.isKept).flatten ∧
      (table = [] ∨ (p.written o).any isMark = true ∧ o.lineTable = true ∧ ∃ xs ys : List Int,
        table = [tableName o ++ ascii " = " ++ Assembly.column xs ++ ascii ", " ++
          Assembly.column ys]) := by
  have hname : Byte.newline ∉ tableName o :=
    (Folds.pieces.append (Folds.pieces.name hstem)
      (Folds.pieces.fixed "_lineno" rfl)).unfolds.newline_not_mem
  have hkept : ∀ t ∈ (p.written o).filter Text.isKept, Byte.newline ∉ t := by
    intro t ht hmem
    obtain ⟨u, -, hu⟩ := List.mem_flatMap.1 (List.mem_filter.1 ht).1
    exact absurd (Text.forall_mem_splitWhere _ u t hu _ hmem) (by decide)
  have hsource : p.source o = List.intercalate (ascii "\n")
      ((if (p.written o).any isMark && o.lineTable then
        [(Assembly.ofLines (p.written o)).tableLine (tableName o)] else []) ++
        (p.written o).filter Text.isKept) := by
    rw [source, Assembly.marked_ofLines, Assembly.kept_ofLines]
  by_cases htable : ((p.written o).any isMark && o.lineTable) = true
  · have htableLine := Assembly.newline_not_mem_tableLine (Assembly.ofLines (p.written o)) hname
    refine ⟨[(Assembly.ofLines (p.written o)).tableLine (tableName o)], _, ?_, rfl,
      Or.inr ⟨(Bool.and_eq_true_iff.1 htable).1, (Bool.and_eq_true_iff.1 htable).2, _, _, rfl⟩⟩
    rw [hsource, if_pos htable]
    exact Text.lines_intercalate (List.forall_mem_cons.2 ⟨htableLine, hkept⟩) (by simp)
  · rw [if_neg htable, List.nil_append] at hsource
    refine ⟨[], Text.lines (p.source o), rfl, ?_, Or.inl rfl⟩
    rw [hsource]
    by_cases hnil : (p.written o).filter Text.isKept = []
    · rw [hnil]
      rfl
    · rw [Text.lines_intercalate hkept hnil]

variable {p q : Program} (hstem : o.stem.isName = true) (hhelpers : q.helpers = p.helpers)
  (hlines : q.lines = Line.unmarkedAll p.lines)
  (hover : ∀ l ∈ Line.statements p.lines, l.stmt.Over .markless)

include hstem hhelpers hlines hover

/-- The program without marks is written without marks. -/
theorem isMark_written : (q.written o).any isMark = false := by
  rw [written, List.any_flatMap, hhelpers, hlines, List.any_eq_false]
  intro t ht
  rw [Bool.not_eq_true]
  rcases List.mem_append.1 ht with ht | ht
  · obtain ⟨h, -, rfl⟩ := List.mem_map.1 ht
    exact (folds_bindingLine hstem h).isMark_lines
  · obtain ⟨l, hl, rfl⟩ := List.mem_map.1 ht
    exact Line.isMark_lines hstem hover l hl

/-- **The text of a program with marks and that of the same program
without them** have lines of the same bytes, but for the line table. -/
theorem sameText_unmarked : SameText o (p.source o) (q.source o) := by
  obtain ⟨table, body, hsource, hbody, htable⟩ := lines_source_eq hstem p
  obtain ⟨table', body', hsource', hbody', htable'⟩ := lines_source_eq hstem q
  have hnone : table' = [] := by
    rcases htable' with h | ⟨hmarked, -⟩
    · exact h
    · rw [isMark_written hstem hhelpers hlines hover] at hmarked
      cases hmarked
  refine ⟨table, body, hsource, ?_, htable.imp_right And.right⟩
  rw [hsource', hnone, List.nil_append, hbody, hbody', filter_written, filter_written,
    List.flatten_append, List.flatten_append, hhelpers, hlines, Line.flatten_keptLines hstem hover]

end Program

end ScriptSplice
