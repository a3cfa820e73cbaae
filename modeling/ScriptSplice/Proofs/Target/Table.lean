import Mathlib.Data.List.Chain
import Mathlib.Data.List.Induction
import Mathlib.Data.List.TakeWhile
import ScriptSplice.Proofs.Target.Layout
/-!
# What a line table says

The entries of a line table come in the order of the lines that they are
for (`Assembly.Ordered`). The last one that is not behind a line is for
this line, and says what the last mark before it says
(`Assembly.place?_of_isKept`); so for a statement that stands behind a mark
it says what the mark says (`Program.place_of_marked`).
-/

namespace ScriptSplice

namespace Text

/-- The sign a text begins with, and what follows it. -/
def sign (t : Text) : Bool × Text :=
  match t with
  | 0x2d :: rest => (true, rest)
  | 0x2b :: rest => (false, rest)
  | _ => (false, t)

theorem leadingInt_eq (t : Text) : leadingInt t =
    let s := sign (t.dropWhile Byte.isSpace)
    let digits := s.2.takeWhile Byte.isDigit
    if digits.isEmpty then none
    else
      let n : Int := digitsValue digits
      some (if s.1 then -n else n, s.2.dropWhile Byte.isDigit) := rfl

theorem sign_of_head {t : Text} (h : ∀ b, t.head? = some b → b ≠ 0x2d ∧ b ≠ 0x2b) :
    sign t = (false, t) := by
  unfold sign
  split
  · exact absurd rfl (h _ rfl).1
  · exact absurd rfl (h _ rfl).2
  · rfl

/-- **A written integer, read back.** -/
theorem leadingInt_ofInt (i : Int) : leadingInt (ofInt i) = some (i, []) := by
  have hdigits (n : Nat) : (ofNat n).takeWhile Byte.isDigit = ofNat n ∧
      (ofNat n).dropWhile Byte.isDigit = [] := by
    have hall := List.all_eq_true.1 (isDigit_ofNat n)
    exact ⟨List.takeWhile_eq_self_iff.2 hall, List.dropWhile_eq_nil_iff.2 hall⟩
  cases i with
  | ofNat n =>
    have hfirst : ∀ b, Byte.isDigit b = true →
        Byte.isSpace b = false ∧ b ≠ 0x2d ∧ b ≠ 0x2b := Byte.forall_of_ofNat (by decide +kernel)
    obtain ⟨d, ds, hn⟩ := List.exists_cons_of_ne_nil (ofNat_ne_nil n)
    have hd : Byte.isDigit d = true :=
      List.all_eq_true.1 (isDigit_ofNat n) d (hn ▸ List.mem_cons_self)
    obtain ⟨hspace, hsign⟩ := hfirst d hd
    have hdrop : (ofNat n).dropWhile Byte.isSpace = ofNat n := by
      rw [hn, List.dropWhile_cons_of_neg (by simp [hspace])]
    have hunsigned : sign (ofNat n) = (false, ofNat n) := by
      refine sign_of_head fun b hb => ?_
      rw [hn, List.head?_cons, Option.some_inj] at hb
      exact hb ▸ hsign
    rw [ofInt, leadingInt_eq, hdrop, hunsigned]
    simp [hdigits, digitsValue_ofNat, ofNat_ne_nil]
  | negSucc n =>
    have hdrop : (0x2d :: ofNat (n + 1)).dropWhile Byte.isSpace = 0x2d :: ofNat (n + 1) := rfl
    have hsigned : sign (0x2d :: ofNat (n + 1)) = (true, ofNat (n + 1)) := rfl
    rw [ofInt, leadingInt_eq, hdrop, hsigned]
    simp only [hdigits, digitsValue_ofNat, List.isEmpty_iff, ofNat_ne_nil, if_false, if_true]
    rfl

/-- A number of 32 bits is one of them. -/
@[simp] theorem word_word (i : Int) : word (word i) = word i :=
  congrArg Int32.toInt (Int32.ofInt_toInt _)

/-- A number of 32 bits is read back. -/
theorem leadingWord_ofInt {i : Int} (h : word i = i) : leadingWord (ofInt i) = i := by
  have hlow : -2 ^ 31 ≤ i := h ▸ Int32.le_toInt _
  have hhigh : i < 2 ^ 31 := h ▸ Int32.toInt_lt _
  have hclamp : max Int64.minValue.toInt (min i Int64.maxValue.toInt) = i := by
    rw [Int64.toInt_minValue, Int64.toInt_maxValue]
    omega
  rw [leadingWord, leadingInt_ofInt, Option.map_some, Option.getD_some, hclamp, h]

/-- The number of a mark. -/
theorem markValue_hash {i : Int} (h : word i = i) : markValue (Byte.hash :: ofInt i) = i :=
  leadingWord_ofInt h

/-- The first line of a text is the first one of its lines. -/
theorem exists_lines_eq (t : Text) : ∃ rest, t.lines = t.firstLine :: rest := by
  have hfirst : Byte.newline ∉ t.firstLine := fun hmem =>
    absurd (List.mem_takeWhile_imp hmem) (by decide)
  have hsplit : t.firstLine ++ t.dropWhile (· != Byte.newline) = t :=
    List.takeWhile_append_dropWhile
  cases hdrop : t.dropWhile (· != Byte.newline) with
  | nil =>
    rw [hdrop, List.append_nil] at hsplit
    rw [hsplit] at hfirst ⊢
    exact ⟨[], lines_of_not_mem hfirst⟩
  | cons b rest =>
    have hb : b = Byte.newline := by
      have hhead := List.head?_dropWhile_not (· != Byte.newline) t
      simpa [hdrop] using hhead
    rw [hdrop, hb] at hsplit
    have hlines := lines_append_newline hfirst rest
    rw [hsplit] at hlines
    exact ⟨_, hlines⟩

/-- It stays where the text does. -/
theorem Stays.isKept_firstLine {t : Text} (h : t.Stays) : t.firstLine.isKept = true := by
  have hmark : isMark t.firstLine = false := by
    rw [isMark, beq_eq_false_iff_ne]
    intro hhead
    refine h.head ?_
    obtain ⟨u, hu⟩ := List.takeWhile_prefix (l := t) (· != Byte.newline)
    rw [← hu, List.head?_append, ← firstLine, hhead]
    rfl
  have hblank : isBlank t.firstLine = false := h.begins
  rw [isKept, hmark, hblank]
  rfl

end Text

/-! ## The entries of a table -/

/-- The source line that the last of the marks gives, the first line if
there is none. -/
def lastMark (lines : List Text) : Int := (((lines.filter isMark).getLast?).map markValue).getD 1

theorem lastMark_concat (lines : List Text) (line : Text) :
    lastMark (lines ++ [line]) = if isMark line then markValue line else lastMark lines := by
  cases hmark : isMark line with
  | true => simp [lastMark, hmark]
  | false => simp [lastMark, hmark]

namespace Assembly

/-- What one line does to the table. -/
theorem table_step (a : Assembly) (t : Text) :
    ∃ new, (step a t).table = new ++ a.table ∧ ∀ r ∈ new, r.1 = a.kept.length + 1 := by
  by_cases hmark : isMark t
  · by_cases hsame : (a.table.head?.map (·.2)) == some (markValue t)
    · exact ⟨[], by simp [step, hmark, hsame], by simp⟩
    · exact ⟨[(a.kept.length + 1, markValue t)], by simp [step, hmark, hsame], by simp⟩
  · by_cases hblank : isBlank t
    · exact ⟨[], by simp [step, hmark, hblank], by simp⟩
    · exact ⟨[], by simp [step, hmark, hblank], by simp⟩

theorem length_kept_foldl (ts : List Text) (a : Assembly) :
    (ts.foldl step a).kept.length = (ts.filter Text.isKept).length + a.kept.length := by
  rw [kept_foldl, List.length_append, List.length_reverse]

/-- **Entries are only added**, none for a line before those that come. -/
theorem table_foldl (ts : List Text) (a : Assembly) :
    ∃ new, (ts.foldl step a).table = new ++ a.table ∧
      ∀ r ∈ new, a.kept.length < r.1 ∧ r.1 ≤ (ts.foldl step a).kept.length + 1 := by
  induction ts generalizing a with
  | nil => exact ⟨[], rfl, by simp⟩
  | cons t ts ih =>
    obtain ⟨new, htable, hnew⟩ := ih (step a t)
    obtain ⟨first, hstep, hfirst⟩ := table_step a t
    refine ⟨new ++ first, by rw [List.foldl_cons, htable, hstep, List.append_assoc], ?_⟩
    have hone := length_kept_foldl [t] a
    have hall := length_kept_foldl (t :: ts) a
    rw [List.foldl_cons, List.foldl_nil] at hone
    rw [List.foldl_cons] at hall ⊢
    refine List.forall_mem_append.2 ⟨fun r hr => ⟨?_, (hnew r hr).2⟩, fun r hr => ?_⟩
    · have hlt := (hnew r hr).1
      omega
    · have heq := hfirst r hr
      omega

/-- What a mark says is what the table says from then on. -/
theorem head?_table_step {t : Text} (h : isMark t = true) (a : Assembly) :
    (step a t).table.head?.map (·.2) = some (markValue t) := by
  by_cases hsame : (a.table.head?.map (·.2)) == some (markValue t)
  · simp only [step, h, hsame, if_true]
    exact eq_of_beq hsame
  · simp [step, h, hsame]

/-- **The laws of a table**, whose last entries come first: it begins with
line 1 for line 1, no entry is for a line before that of an earlier entry
or behind the next line of the program, and no entry says what the one
before it says. -/
structure Ordered (a : Assembly) : Prop where
  first : a.table.getLast? = some (1, 1)
  reached : ∀ r ∈ a.table, r.1 ≤ a.kept.length + 1
  sorted : a.table.Pairwise fun r s => s.1 ≤ r.1
  changing : a.table.IsChain fun r s => r.2 ≠ s.2

theorem ordered_initial : initial.Ordered where
  first := rfl
  reached := by simp [initial]
  sorted := List.pairwise_singleton _ _
  changing := List.IsChain.singleton _

/-- **One line preserves the laws.** -/
theorem Ordered.step {a : Assembly} (h : a.Ordered) (line : Text) : (a.step line).Ordered := by
  unfold Assembly.step
  split
  · dsimp only
    split
    · exact ⟨h.first, h.reached, h.sorted, h.changing⟩
    · rename_i hnew
      refine ⟨?_, List.forall_mem_cons.2 ⟨le_rfl, h.reached⟩, ?_, ?_⟩
      · rw [List.getLast?_cons, h.first]
        rfl
      · exact List.pairwise_cons.2 ⟨h.reached, h.sorted⟩
      · refine List.IsChain.cons h.changing fun r hr heq => hnew ?_
        rw [Option.mem_def] at hr
        simp [hr, ← heq]
  · split
    · exact h
    · refine ⟨h.first, fun r hr => ?_, h.sorted, h.changing⟩
      have hle := h.reached r hr
      rw [List.length_cons]
      omega

theorem ordered_ofLines (ts : List Text) : (ofLines ts).Ordered := by
  induction ts using List.reverseRecOn with
  | nil => exact ordered_initial
  | append_singleton ts t ih =>
    rw [ofLines, List.foldl_append]
    exact ih.step t

/-- The source line of a line of the program: that of the last entry that
is not behind it. -/
def place? (rows : List (Nat × Int)) (k : Nat) : Option Int :=
  ((rows.filter fun r => r.1 ≤ k).getLast?).map (·.2)

/-- Entries behind a line do not matter to it. -/
theorem place?_append {rows more : List (Nat × Int)} {k : Nat} (hrows : ∀ r ∈ rows, r.1 ≤ k)
    (hmore : ∀ r ∈ more, k < r.1) : place? (rows ++ more) k = rows.getLast?.map (·.2) := by
  have hkeep : rows.filter (fun r => r.1 ≤ k) = rows :=
    List.filter_eq_self.2 fun r hr => decide_eq_true (hrows r hr)
  have hdrop : more.filter (fun r => r.1 ≤ k) = [] := by
    refine List.filter_eq_nil_iff.2 fun r hr => ?_
    have hlt := hmore r hr
    simpa using hlt
  rw [place?, List.filter_append, hkeep, hdrop, List.append_nil]

/-- **What the table says last** is what the last mark says. -/
theorem head?_table_ofLines (ts : List Text) :
    (ofLines ts).table.head?.map (·.2) = some (lastMark ts) := by
  induction ts using List.reverseRecOn with
  | nil => rfl
  | append_singleton ts t ih =>
    rw [ofLines, List.foldl_append, ← ofLines, lastMark_concat]
    cases hmark : isMark t with
    | true => exact head?_table_step hmark _
    | false =>
      rw [if_neg Bool.false_ne_true, ← ih]
      cases hblank : isBlank t <;> simp [step, hmark, hblank]

/-- **Looking a line up.** Whatever comes behind it, the table has for a
line that stays what the last mark before it says. -/
theorem place?_of_isKept (before : List Text) {line : Text} (hline : line.isKept = true)
    (after : List Text) :
    place? (ofLines (before ++ line :: after)).table.reverse
      (1 + (before.filter Text.isKept).length) = some (lastMark before) := by
  simp only [Text.isKept, Bool.and_eq_true, Bool.not_eq_true'] at hline
  have hstep : (ofLines before).step line =
      { ofLines before with kept := line :: (ofLines before).kept } := by
    simp [step, hline.1, hline.2]
  have hlines : ofLines (before ++ line :: after) =
      after.foldl step ((ofLines before).step line) := by
    rw [ofLines, List.foldl_append]
    rfl
  have hlength : (ofLines before).kept.length = (before.filter Text.isKept).length := by
    rw [← kept_ofLines, List.length_reverse]
  obtain ⟨new, hnew, hbehind⟩ := table_foldl after ((ofLines before).step line)
  rw [hlines, hnew, List.reverse_append]
  rw [hstep] at hbehind ⊢
  rw [place?_append, List.getLast?_reverse, head?_table_ofLines]
  · intro r hr
    have hle := (ordered_ofLines before).reached r (List.mem_reverse.1 hr)
    omega
  · intro r hr
    have hlt := (hbehind r (List.mem_reverse.1 hr)).1
    rw [List.length_cons] at hlt
    omega

/-- **The line behind a mark** comes from where the mark says. The line of
the table itself is line zero. -/
theorem place?_ofLines {pre post : List Text} {mark first : Text} (hmark : isMark mark = true)
    (hfirst : first.isKept = true) :
    place? (ofLines (pre ++ mark :: [] :: first :: post)).table.reverse
      (1 + (pre.filter Text.isKept).length) = some (markValue mark) := by
  have hplace := place?_of_isKept (pre ++ [mark, []]) hfirst post
  have hlast : lastMark (pre ++ [mark, []]) = markValue mark := by
    rw [List.append_cons, lastMark_concat, lastMark_concat, hmark]
    rfl
  have hkept : (pre ++ [mark, []]).filter Text.isKept = pre.filter Text.isKept := by
    simp [Text.isKept, hmark, isBlank]
  rwa [hlast, hkept, List.append_assoc] at hplace

end Assembly

/-! ## Programs -/

namespace Line

variable {stem : Text} {width depth : Nat} {s : Stmt}

/-- A statement stays where it stands. -/
theorem stays_render (h : (s.render stem).Stays) : (render stem width ⟨depth, s⟩).Stays := by
  have hindentation := folds_indentation width depth
  refine ⟨?_, h.begins.prepend hindentation.unfolds.newline_not_mem⟩
  rw [render, List.head?_append]
  cases hhead : (indentation width depth).head? with
  | none => exact h.head
  | some b =>
    rw [← hhead]
    exact hhead ▸ hindentation.head

/-- The lines of a mark: its number is on a line of its own. -/
theorem lines_render_mark (stem : Text) (width depth : Nat) (line : Int) :
    Text.lines (render stem width ⟨depth, .mark line⟩) =
      [indentation width depth, Byte.hash :: Text.ofInt line, []] := by
  have hlines := Text.lines_mark (folds_indentation width depth).unfolds.newline_not_mem line []
  rw [List.append_nil] at hlines
  exact hlines

end Line

namespace Program

variable {o : Options} (hstem : o.stem.isIdentifier = true) (htable : o.lineTable = true)

include hstem htable

/-- **The place of a statement behind a mark**, in the text of a program
with its line table. Behind the table stands what stays of the lines before
the statement, then the statement, and the table says of its first line
what the mark says. -/
theorem place_of_marked {p : Program} {before after : List Line} {depth : Nat} {line : Int}
    (hline : Text.word line = line) {s : Stmt}
    (hlines : p.lines = before ++ ⟨depth, .mark line⟩ :: ⟨depth, s⟩ :: after)
    (hstays : (s.render o.stem).Stays) :
    let statement := Line.render o.stem o.indent ⟨depth, s⟩
    ∃ rows, Text.lines (p.source o) =
        (tableName o ++ ascii " = " ++ Assembly.column (rows.map fun r => (r.1 : Int)) ++
          ascii ", " ++ Assembly.column (rows.map (·.2))) ::
        (layout o ⟨p.helpers, before⟩ ++ statement.keptLines ++ body o ⟨p.helpers, after⟩) ∧
      statement.keptLines.head? = some statement.firstLine ∧
      Assembly.place? rows (1 + (layout o ⟨p.helpers, before⟩).length) = some line := by
  intro statement
  have hstatement : statement.Stays := Line.stays_render hstays
  obtain ⟨rest, hrest⟩ := statement.exists_lines_eq
  have hfirst := hstatement.isKept_firstLine
  have hkept : statement.keptLines.head? = some statement.firstLine := by
    rw [Text.keptLines, hrest, List.filter_cons_of_pos hfirst]
    rfl
  have hmark : isMark (Byte.hash :: Text.ofInt line) = true := by simp [isMark]
  -- the lines as written: the mark is between blank ones
  have hwritten : p.written o = (written o ⟨p.helpers, before⟩ ++
      [Line.indentation o.indent depth]) ++ (Byte.hash :: Text.ofInt line) :: [] ::
        statement.firstLine :: (rest ++ (after.map (Line.render o.stem o.indent)).flatMap
          Text.lines) := by
    simp only [written, hlines, List.map_append, List.map_cons, List.flatMap_append,
      List.flatMap_cons, Line.lines_render_mark, List.append_assoc, List.cons_append,
      List.nil_append]
    rw [← List.cons_append (a := statement.firstLine), ← hrest]
  have hindentation : (Line.indentation o.indent depth).isKept = false := by
    have hblank : isBlank (Line.indentation o.indent depth) = true :=
      List.all_eq_true.2 fun b hb => by rw [List.eq_of_mem_replicate hb]; rfl
    simp [Text.isKept, hblank]
  have hbefore : ((written o ⟨p.helpers, before⟩ ++ [Line.indentation o.indent depth]).filter
      Text.isKept) = layout o ⟨p.helpers, before⟩ := by
    rw [List.filter_append, layout_eq _ hstem, List.filter_cons_of_neg (by simp [hindentation]),
      List.filter_nil, List.append_nil]
  have hmarked : (Assembly.ofLines (p.written o)).marked = true := by
    rw [Assembly.marked_ofLines, hwritten]
    simp [hmark]
  have htables : p.tableLines o = [(Assembly.ofLines (p.written o)).tableLine (tableName o)] := by
    simp [tableLines, hmarked, htable]
  refine ⟨(Assembly.ofLines (p.written o)).table.reverse, ?_, hkept, ?_⟩
  · rw [lines_source_of_ne_nil p hstem (by simp [htables]), htables, List.singleton_append]
    congr 1
    simp only [layout, body, hlines, List.flatMap_append, List.flatMap_cons,
      Line.keptLines_mark, List.nil_append, List.append_assoc]
    rfl
  · rw [hwritten, ← hbefore, Assembly.place?_ofLines hmark hfirst]
    exact congrArg some (Text.markValue_hash hline)

end Program

end ScriptSplice
