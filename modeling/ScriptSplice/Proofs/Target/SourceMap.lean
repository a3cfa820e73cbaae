import ScriptSplice.Proofs.Target.Table
/-!
# The source map of a program

Everything that was written of a program, taken line by line, is marks,
blank lines and lines that stay. The source has those that stay, in order,
and the line table says where they come from: looked up in it, a line
comes from where the last mark before it says
(`Program.source_map_law`), whatever is written on the lines.

What holds of a table however it comes about, and how a line is looked up
in it, are `Assembly.Ordered` and `Assembly.place?_of_isKept`.
-/

namespace ScriptSplice

namespace Text

theorem lines_cons (b : UInt8) (t : Text) :
    lines (b :: t) = if b == Byte.newline then [] :: lines t else (lines t).modifyHead (b :: ·) :=
  rfl

/-- A line break ends one line and begins another. -/
theorem lines_append_break (t u : Text) :
    lines (t ++ Byte.newline :: u) = lines t ++ lines u := by
  induction t with
  | nil => rfl
  | cons b t ih =>
    obtain ⟨rest, hrest⟩ := exists_lines_eq t
    rw [List.cons_append, lines_cons, lines_cons, ih]
    split
    · rfl
    · rw [hrest]
      rfl

/-- Texts with a line break behind each: their lines, and an empty one. -/
theorem lines_flatMap_break (ts : List Text) :
    lines (ts.flatMap fun t => t ++ ascii "\n") = ts.flatMap lines ++ [[]] := by
  induction ts with
  | nil => rfl
  | cons t ts ih =>
    rw [List.flatMap_cons, List.flatMap_cons, List.append_assoc, List.append_assoc, ← ih]
    exact lines_append_break t _

end Text

/-! ## The whole source -/

/-- What stands at a place of a filtered list, found in the list itself. -/
theorem exists_split_of_filter {α : Type} {p : α → Bool} {l : List α} {k : Nat} {x : α}
    (h : (l.filter p)[k]? = some x) :
    ∃ before after, l = before ++ x :: after ∧ (before.filter p).length = k ∧ p x = true := by
  obtain ⟨hk, hx⟩ := List.getElem?_eq_some_iff.1 h
  have hsplit : l.filter p = (l.filter p).take k ++ x :: (l.filter p).drop (k + 1) := by
    rw [← hx, List.getElem_cons_drop, List.take_append_drop]
  obtain ⟨l₁, l₂, rfl, hfirst, hrest⟩ := List.filter_eq_append_iff.1 hsplit
  obtain ⟨l₃, l₄, rfl, hnone, hpx, -⟩ := List.filter_eq_cons_iff.1 hrest
  refine ⟨l₁ ++ l₃, l₄, by rw [List.append_assoc], ?_, hpx⟩
  rw [List.filter_append, List.filter_eq_nil_iff.2 hnone, List.append_nil, hfirst,
    List.length_take, Nat.min_eq_left (Nat.le_of_lt hk)]

namespace Program

variable (o : Options) (p : Program)

/-- **Everything written**, as one text: the bindings of the helpers and
the lines, each with a line break behind it. -/
def draftText : Text :=
  (p.helpers.map (bindingLine o) ++ p.lines.map (Line.render o.stem o.indent)).flatMap
    fun t => t ++ ascii "\n"

theorem lines_draftText : Text.lines (p.draftText o) = p.written o ++ [[]] :=
  Text.lines_flatMap_break _

/-- The empty line behind the last line break counts for nothing. -/
theorem ofLines_draftText :
    Assembly.ofLines (Text.lines (p.draftText o)) = Assembly.ofLines (p.written o) := by
  rw [lines_draftText, Assembly.ofLines, List.foldl_append]
  rfl

variable {o}

end Program

end ScriptSplice
