import Mathlib.Data.List.Induction
import ScriptSplice.Proofs.Target.SourceMap
import ScriptSplice.Proofs.Target.Template
/-!
# Programs before the options are known

A sheet is the source of a program without its options: a line table and
lines, each a template at a depth. What the source keeps of the lines that
are written, and what the table says of them, is read off the lines with
the stem and the indentation already in them. But a mark and a blank line
are told by what stands before the first hole, and only a line that is not
indented can be a mark, so they are the same lines whatever the options
(`Row.isMark_write`, `Row.isBlank_write`), and every program has a sheet
(`Program.exists_sheet`).
-/

namespace ScriptSplice

namespace Text

/-! ## Line breaks -/

/-- A text without line breaks goes to the first line of what follows it. -/
theorem lines_append_of_not_mem {t : Text} (h : Byte.newline ∉ t) (u : Text) :
    lines (t ++ u) = (lines u).modifyHead (t ++ ·) := by
  obtain ⟨rest, hrest⟩ := exists_lines_eq u
  induction t with
  | nil =>
    rw [List.nil_append, hrest]
    rfl
  | cons b t ih =>
    rw [List.mem_cons, not_or] at h
    have hb : (b == Byte.newline) = false := beq_false_of_ne (Ne.symm h.1)
    rw [List.cons_append, lines_cons, hb, if_neg Bool.false_ne_true, ih h.2, hrest]
    rfl

theorem newline_not_mem_of_isIdentifier {x : Text} (h : x.isIdentifier = true) :
    Byte.newline ∉ x :=
  (Harmless.of_isIdentifier h).newline

/-! ## Where a number ends -/

/-- A text that begins like an identifier, if it is not empty: a number
before it does not go on in it. -/
def Apart (u : Text) : Prop :=
  ∀ b, u.head? = some b → (Byte.isAlpha b || b == Byte.underscore) = true

theorem Apart.nil : Apart [] := nofun

theorem Apart.of_isIdentifier {x : Text} (h : x.isIdentifier = true) (t : Text) :
    Apart (x ++ t) := by
  cases x with
  | nil => cases h
  | cons c x =>
    rintro b ⟨⟩
    rw [isIdentifier, Bool.and_eq_true] at h
    exact h.1

/-- The byte that a text begins with is no blank, digit, sign or mark. -/
theorem Apart.head_ne {u : Text} (h : u.Apart) : ∀ b, u.head? = some b →
    Byte.isSpace b = false ∧ Byte.isDigit b = false ∧ b ≠ 0x2d ∧ b ≠ 0x2b ∧ b ≠ Byte.hash := by
  have hbyte : ∀ b, (Byte.isAlpha b || b == Byte.underscore) = true →
      Byte.isSpace b = false ∧ Byte.isDigit b = false ∧ b ≠ 0x2d ∧ b ≠ 0x2b ∧ b ≠ Byte.hash :=
    Byte.forall_of_ofNat (by decide +kernel)
  exact fun b hb => hbyte b (h b hb)

variable {p : UInt8 → Bool} {u : Text}

private theorem dropWhile_append_of_head (hu : ∀ b, u.head? = some b → p b = false) (t : Text) :
    (t ++ u).dropWhile p = t.dropWhile p ++ u := by
  have hself : u.dropWhile p = u := by
    cases u with
    | nil => rfl
    | cons b u => exact List.dropWhile_cons_of_neg (by simp [hu b rfl])
  rw [List.dropWhile_append, hself]
  split
  · rename_i hempty
    rw [List.isEmpty_iff.1 hempty, List.nil_append]
  · rfl

private theorem takeWhile_append_of_head (hu : ∀ b, u.head? = some b → p b = false) (t : Text) :
    (t ++ u).takeWhile p = t.takeWhile p := by
  have hnone : u.takeWhile p = [] := by
    cases u with
    | nil => rfl
    | cons b u => exact List.takeWhile_cons_of_neg (by simp [hu b rfl])
  rw [List.takeWhile_append, hnone, List.append_nil]
  split
  · rename_i hlength
    exact ((List.takeWhile_prefix p).eq_of_length hlength).symm
  · rfl

theorem sign_append (hu : u.Apart) (t : Text) : sign (t ++ u) = ((sign t).1, (sign t).2 ++ u) := by
  cases t with
  | nil =>
    refine sign_of_head fun b hb => ?_
    obtain ⟨-, -, hminus, hplus, -⟩ := hu.head_ne b hb
    exact ⟨hminus, hplus⟩
  | cons b t =>
    by_cases hminus : b = 0x2d
    · subst hminus
      rfl
    · by_cases hplus : b = 0x2b
      · subst hplus
        rfl
      · have hsign (v : Text) : sign (b :: v) = (false, b :: v) :=
          sign_of_head fun c hc => by cases hc; exact ⟨hminus, hplus⟩
        rw [List.cons_append, hsign, hsign, List.cons_append]

/-- **A number is read alike** whatever stands apart behind it. -/
theorem leadingInt_append (hu : u.Apart) (t : Text) :
    (leadingInt (t ++ u)).map Prod.fst = (leadingInt t).map Prod.fst := by
  have hhead := hu.head_ne
  have hspace := dropWhile_append_of_head (fun b hb => (hhead b hb).1) t
  have hdigits (v : Text) : (v ++ u).takeWhile Byte.isDigit = v.takeWhile Byte.isDigit :=
    takeWhile_append_of_head (fun b hb => (hhead b hb).2.1) v
  rw [leadingInt_eq, leadingInt_eq, hspace, sign_append hu]
  dsimp only
  rw [hdigits]
  split <;> rfl

end Text

namespace Template

/-! ## The lines of a template -/

/-- Something done to the first of some texts that are filled in. -/
private theorem modifyHead_map_fill (stem : Text) {f : Text → Text} {g : Template → Template}
    (h : ∀ t, fill stem (g t) = f (fill stem t)) (ts : List Template) :
    (ts.map (fill stem)).modifyHead f = (ts.modifyHead g).map (fill stem) := by
  cases ts with
  | nil => rfl
  | cons t ts => exact congrArg (· :: ts.map (fill stem)) (h t).symm

/-- Fixed text before a template breaks where it breaks itself. -/
private theorem exists_lines_fixed (u : Text) {t : Template}
    (h : ∃ ts : List Template, ∀ stem : Text, stem.isIdentifier = true →
      Text.lines (fill stem t) = ts.map (fill stem)) :
    ∃ ts : List Template, ∀ stem : Text, stem.isIdentifier = true →
      Text.lines (u ++ fill stem t) = ts.map (fill stem) := by
  induction u with
  | nil => exact h
  | cons b u ih =>
    obtain ⟨ts, hts⟩ := ih
    cases hb : b == Byte.newline with
    | true =>
      refine ⟨[] :: ts, fun stem hstem => ?_⟩
      rw [List.cons_append, Text.lines_cons, hb, if_pos rfl, hts stem hstem]
      rfl
    | false =>
      refine ⟨ts.modifyHead (.fixed [b] :: ·), fun stem hstem => ?_⟩
      rw [List.cons_append, Text.lines_cons, hb, if_neg Bool.false_ne_true, hts stem hstem]
      exact modifyHead_map_fill stem (fun _ => rfl) ts

/-- **The lines of a template** are templates, since no stem has a line
break. -/
theorem exists_lines (t : Template) : ∃ ts : List Template, ∀ stem : Text,
    stem.isIdentifier = true → Text.lines (fill stem t) = ts.map (fill stem) := by
  induction t with
  | nil => exact ⟨[[]], fun _ _ => rfl⟩
  | cons s t ih =>
    cases s with
    | fixed u => exact exists_lines_fixed u ih
    | hole =>
      obtain ⟨ts, hts⟩ := ih
      refine ⟨ts.modifyHead (.hole :: ·), fun stem hstem => ?_⟩
      have hnewline := Text.newline_not_mem_of_isIdentifier hstem
      rw [fill_cons, Segment.fill, Text.lines_append_of_not_mem hnewline, hts stem hstem]
      exact modifyHead_map_fill stem (fun _ => rfl) ts

/-! ## Reading a template -/

/-- The text before the first hole. -/
def opening : Template → Text
  | [] => []
  | .fixed u :: t => u ++ opening t
  | .hole :: _ => []

/-- Nothing but blanks and tabs, and no hole. -/
def isBlank (t : Template) : Bool :=
  t.all fun
    | .fixed u => ScriptSplice.isBlank u
    | .hole => false

variable {stem : Text} (hstem : stem.isIdentifier = true) (t : Template)

include hstem

/-- What is filled in is the opening and something apart from it. -/
theorem exists_fill_eq : ∃ u, fill stem t = t.opening ++ u ∧ u.Apart := by
  induction t with
  | nil => exact ⟨[], rfl, .nil⟩
  | cons s t ih =>
    cases s with
    | fixed v =>
      obtain ⟨u, hfill, hu⟩ := ih
      exact ⟨u, by rw [fill_cons, hfill, opening, List.append_assoc]; rfl, hu⟩
    | hole => exact ⟨stem ++ fill stem t, rfl, .of_isIdentifier hstem _⟩

theorem isMark_fill : isMark (fill stem t) = isMark t.opening := by
  obtain ⟨u, hfill, hu⟩ := exists_fill_eq hstem t
  rw [hfill]
  cases hopening : t.opening with
  | cons b v => rfl
  | nil =>
    have hhead : u.head? ≠ some Byte.hash := fun hhash => (hu.head_ne _ hhash).2.2.2.2 rfl
    rw [List.nil_append, isMark, beq_eq_false_iff_ne.2 hhead]
    rfl

theorem markValue_fill (hmark : isMark t.opening = true) :
    markValue (fill stem t) = markValue t.opening := by
  obtain ⟨u, hfill, hu⟩ := exists_fill_eq hstem t
  rw [hfill, markValue, markValue, Text.leadingWord, Text.leadingWord]
  cases hopening : t.opening with
  | nil =>
    rw [hopening] at hmark
    cases hmark
  | cons b v => rw [List.cons_append, List.drop_one, List.drop_one, List.tail_cons, List.tail_cons,
      Text.leadingInt_append hu]

theorem isBlank_fill : ScriptSplice.isBlank (fill stem t) = t.isBlank := by
  have hblank : ScriptSplice.isBlank stem = false := by
    have hbegins := Text.Begins.of_isIdentifier hstem
    rwa [Text.Begins, Text.firstLine_of_not_mem (Text.newline_not_mem_of_isIdentifier hstem)]
      at hbegins
  induction t with
  | nil => rfl
  | cons s t ih =>
    rw [fill_cons, Text.isBlank_append, ih]
    cases s with
    | fixed u => rfl
    | hole => rw [Segment.fill, hblank]; rfl

end Template

/-! ## Templates at a depth -/

/-- A line of a sheet. -/
structure Row where
  depth : Nat
  text : Template

namespace Row

/-- **A line written out**: a level of indentation is so many blanks wide,
and the stem is filled in. -/
def write (stem : Text) (width : Nat) (r : Row) : Text :=
  List.replicate (r.depth * width) 0x20 ++ r.text.fill stem

/-- A line that begins with a mark and is not indented. -/
def isMark (r : Row) : Bool := r.depth == 0 && ScriptSplice.isMark r.text.opening

/-- A line that the source keeps. -/
def isKept (r : Row) : Bool := !r.isMark && !r.text.isBlank

/-- **The lines of a line**: only the first one is indented. -/
theorem exists_lines (r : Row) : ∃ rs : List Row, ∀ (stem : Text) (width : Nat),
    stem.isIdentifier = true → Text.lines (r.write stem width) = rs.map (write stem width) := by
  obtain ⟨ts, hts⟩ := r.text.exists_lines
  have hwrite (stem : Text) (width : Nat) (hstem : stem.isIdentifier = true) :
      Text.lines (r.write stem width) = (ts.map (Template.fill stem)).modifyHead
        (List.replicate (r.depth * width) 0x20 ++ ·) := by
    have hnewline : Byte.newline ∉ List.replicate (r.depth * width) (0x20 : UInt8) := fun hmem =>
      absurd (List.eq_of_mem_replicate hmem) (by decide)
    rw [write, Text.lines_append_of_not_mem hnewline, hts stem hstem]
  cases ts with
  | nil => exact ⟨[], hwrite⟩
  | cons t ts =>
    refine ⟨⟨r.depth, t⟩ :: ts.map (⟨0, ·⟩), fun stem width hstem => ?_⟩
    rw [hwrite stem width hstem, List.map_cons, List.map_cons, List.modifyHead_cons, List.map_map]
    congr 1
    refine List.map_congr_left fun u _ => ?_
    simp [write]

section

variable {stem : Text} {width : Nat} (hstem : stem.isIdentifier = true)

include hstem

theorem isBlank_write (width : Nat) (r : Row) :
    ScriptSplice.isBlank (r.write stem width) = r.text.isBlank := by
  have hblanks : ScriptSplice.isBlank (List.replicate (r.depth * width) 0x20) = true :=
    List.all_eq_true.2 fun b hb => by rw [List.eq_of_mem_replicate hb]; rfl
  rw [write, Text.isBlank_append, hblanks, Template.isBlank_fill hstem, Bool.true_and]

/-- An indented line begins with a blank. -/
theorem isMark_write (hwidth : 1 ≤ width) (r : Row) :
    ScriptSplice.isMark (r.write stem width) = r.isMark := by
  rw [write, isMark]
  cases hdepth : r.depth with
  | zero => rw [Nat.zero_mul, List.replicate_zero, List.nil_append, Template.isMark_fill hstem]; rfl
  | succ d =>
    obtain ⟨k, hk⟩ : ∃ k, (d + 1) * width = k + 1 :=
      Nat.exists_eq_add_one.2 (Nat.mul_pos d.succ_pos hwidth)
    rw [hk, List.replicate_succ]
    rfl

theorem markValue_write (width : Nat) {r : Row} (hmark : r.isMark = true) :
    markValue (r.write stem width) = markValue r.text.opening := by
  rw [isMark, Bool.and_eq_true, beq_iff_eq] at hmark
  rw [write, hmark.1, Nat.zero_mul, List.replicate_zero, List.nil_append,
    Template.markValue_fill hstem _ hmark.2]

theorem isKept_write (hwidth : 1 ≤ width) (r : Row) :
    Text.isKept (r.write stem width) = r.isKept := by
  rw [Text.isKept, isMark_write hstem hwidth, isBlank_write hstem, isKept]

end

end Row

/-! ## Sheets -/

/-- Two ways of writing some things make the same table, if they write marks
of one number for the same things, and blank lines for the same. -/
theorem Assembly.table_ofLines_congr {α : Type} {f g : α → Text} (l : List α)
    (hmark : ∀ x, isMark (f x) = isMark (g x)) (hkept : ∀ x, (f x).isKept = (g x).isKept)
    (hvalue : ∀ x, isMark (f x) = true → markValue (f x) = markValue (g x)) :
    (ofLines (l.map f)).table = (ofLines (l.map g)).table := by
  have hlength (w : List Text) : (ofLines w).kept.length = (w.filter Text.isKept).length := by
    rw [← kept_ofLines, List.length_reverse]
  induction l using List.reverseRecOn with
  | nil => rfl
  | append_singleton l x ih =>
    have hstep (h : α → Text) :
        ofLines ((l ++ [x]).map h) = (ofLines (l.map h)).step (h x) := by
      rw [ofLines, List.map_append, List.foldl_append]
      rfl
    have hkeptLength : (ofLines (l.map f)).kept.length = (ofLines (l.map g)).kept.length := by
      rw [hlength, hlength, List.filter_map, List.filter_map, List.length_map, List.length_map]
      exact congrArg List.length (List.filter_congr fun y _ => hkept y)
    rw [hstep, hstep]
    cases h : isMark (f x) with
    | true =>
      have hg : isMark (g x) = true := by rw [← hmark, h]
      simp only [step, h, hg, if_true, ih, hkeptLength, hvalue x h]
    | false =>
      have hg : isMark (g x) = false := by rw [← hmark, h]
      have hblank (t : Text) (a : Assembly) (ht : isMark t = false) :
          (a.step t).table = a.table := by
        rw [step, ht, if_neg Bool.false_ne_true]
        split <;> rfl
      rw [hblank _ _ h, hblank _ _ hg, ih]

namespace Row

/-- The table that a source of some lines has, read off them with one stem
and width. -/
def table (rs : List Row) : List (Nat × Int) :=
  (Assembly.ofLines (rs.map (write Options.standard.stem 1))).table

variable {stem : Text} {width : Nat} (hstem : stem.isIdentifier = true) (hwidth : 1 ≤ width)
  (rs : List Row)

include hstem hwidth

/-- **Any other stem and width give the same table.** -/
theorem table_ofLines_write : (Assembly.ofLines (rs.map (write stem width))).table = table rs := by
  have hstandard : Options.standard.stem.isIdentifier = true := by decide
  refine Assembly.table_ofLines_congr rs (fun r => ?_) (fun r => ?_) fun r hmark => ?_
  · rw [isMark_write hstem hwidth, isMark_write hstandard le_rfl]
  · rw [isKept_write hstem hwidth, isKept_write hstandard le_rfl]
  · rw [isMark_write hstem hwidth] at hmark
    rw [markValue_write hstem _ hmark, markValue_write hstandard _ hmark]

theorem marked_ofLines_write :
    (Assembly.ofLines (rs.map (write stem width))).marked = rs.any isMark := by
  rw [Assembly.marked_ofLines, List.any_map]
  exact congrArg rs.any (funext fun r => isMark_write hstem hwidth r)

theorem filter_isKept_write : (rs.map (write stem width)).filter Text.isKept =
    (rs.filter isKept).map (write stem width) := by
  rw [List.filter_map]
  exact congrArg _ (List.filter_congr fun r _ => isKept_write hstem hwidth r)

end Row

/-- **A source without the options**: its line table and its other lines,
and whether there is a mark, without which no table is written. -/
structure Sheet where
  marked : Bool
  table : Template
  body : List Row

namespace Sheet

/-- The sheet of the lines that are written. -/
def ofRows (rs : List Row) : Sheet where
  marked := rs.any Row.isMark
  table :=
    let columns := (Row.table rs).reverse
    [.hole, .fixed (ascii "_lineno = " ++ Assembly.column (columns.map fun r => (r.1 : Int)) ++
      ascii ", " ++ Assembly.column (columns.map (·.2)))]
  body := rs.filter Row.isKept

variable (stem : Text) (width : Nat) (lineTable : Bool) (sheet : Sheet)

/-- The lines of a source. -/
def lines : List Text :=
  (if sheet.marked && lineTable then [sheet.table.fill stem] else []) ++
    sheet.body.map (Row.write stem width)

/-- **A sheet written out.** -/
def write : Text := List.intercalate (ascii "\n") (sheet.lines stem width lineTable)

end Sheet

namespace Program

/-- The bindings and lines of a program are templates at a depth. -/
theorem exists_rows_texts (p : Program) :
    ∃ rs : List Row, ∀ o, p.texts o = rs.map (Row.write o.stem o.indent) := by
  choose binding hbinding using isTemplate_bindingLine
  choose statement hstatement using Stmt.isTemplate
  refine ⟨p.helpers.map (fun h => ⟨0, binding h⟩) ++
    p.lines.map fun l => ⟨l.depth, statement l.stmt⟩, fun o => ?_⟩
  rw [texts, List.map_append, List.map_map, List.map_map]
  congr 1
  · refine List.map_congr_left fun h _ => ?_
    simp [Row.write, hbinding]
  · refine List.map_congr_left fun l _ => ?_
    simp [Row.write, Line.render, Line.indentation, hstatement]

/-- **So are the lines that are written.** -/
theorem exists_rows (p : Program) : ∃ rs : List Row, ∀ o : Options, o.stem.isIdentifier = true →
    p.written o = rs.map (Row.write o.stem o.indent) := by
  obtain ⟨rs, hrs⟩ := p.exists_rows_texts
  choose split hsplit using Row.exists_lines
  refine ⟨rs.flatMap split, fun o hstem => ?_⟩
  have hwritten : p.written o = (p.texts o).flatMap Text.lines := rfl
  rw [hwritten, hrs, List.flatMap_map, List.map_flatMap]
  exact List.flatMap_congr fun r _ => hsplit r o.stem o.indent hstem

/-- The lines of a sheet are those of the source. -/
theorem lines_ofRows {p : Program} {rs : List Row} {o : Options}
    (hstem : o.stem.isIdentifier = true) (hwidth : 1 ≤ o.indent)
    (hrs : p.written o = rs.map (Row.write o.stem o.indent)) :
    (Sheet.ofRows rs).lines o.stem o.indent o.lineTable =
      p.tableLines o ++ (p.written o).filter Text.isKept := by
  have htable : (Sheet.ofRows rs).table.fill o.stem =
      (Assembly.ofLines (p.written o)).tableLine (tableName o) := by
    rw [Assembly.tableLine, hrs, Row.table_ofLines_write hstem hwidth]
    simp [Sheet.ofRows, Template.fill, Segment.fill, tableName, ascii]
  rw [Sheet.lines, htable, tableLines, hrs, Row.marked_ofLines_write hstem hwidth,
    Row.filter_isKept_write hstem hwidth]
  rfl

/-- **Every program has a sheet**, and its source is the sheet written out. -/
theorem exists_sheet (p : Program) : ∃ sheet : Sheet, ∀ o : Options,
    o.stem.isIdentifier = true → 1 ≤ o.indent →
      p.source o = sheet.write o.stem o.indent o.lineTable ∧
      sheet.marked = (p.written o).any isMark ∧
      ∀ line ∈ sheet.lines o.stem o.indent o.lineTable, Byte.newline ∉ line := by
  obtain ⟨rs, hrs⟩ := p.exists_rows
  refine ⟨.ofRows rs, fun o hstem hwidth => ?_⟩
  have hlines := lines_ofRows hstem hwidth (hrs o hstem)
  refine ⟨?_, ?_, ?_⟩
  · rw [Sheet.write, hlines, source, Assembly.kept_ofLines, tableLines]
  · rw [← Assembly.marked_ofLines, hrs o hstem, Row.marked_ofLines_write hstem hwidth]
    rfl
  · rw [hlines]
    refine List.forall_mem_append.2 ⟨newline_not_mem_tableLines p hstem, fun line hline => ?_⟩
    obtain ⟨t, -, ht⟩ := List.mem_flatMap.1 (List.mem_filter.1 hline).1
    exact Text.newline_not_mem_of_mem_lines ht

end Program

end ScriptSplice
