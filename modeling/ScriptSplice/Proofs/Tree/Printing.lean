import ScriptSplice.Proofs.Target.Literals
import ScriptSplice.Proofs.Target.Naming
import ScriptSplice.Proofs.Tree.Legible
import ScriptSplice.Tree.Printer
/-!
# The printed form of a tree is one line

A line break in a string is printed as an escape, and nothing else that is
printed of a legible tree can have one: names of fields are words, names
of kinds are fixed, and numbers are digits, signs and letters.
-/

namespace ScriptSplice

/-! ## Leaves -/

namespace Leaf

theorem newline_not_mem_escapeByte (b : UInt8) : Byte.newline ∉ escapeByte b := by
  unfold escapeByte
  split
  · rename_i h
    rcases Bool.or_eq_true_iff.1 h with h | h <;> rw [eq_of_beq h] <;> decide
  split
  · decide
  split
  · decide
  split
  · decide
  · rename_i hb _ _
    rintro hmem
    rw [← List.mem_singleton.1 hmem] at hb
    exact hb rfl

/-- **A printed leaf is on one line.** -/
theorem newline_not_mem_print (l : Leaf) : Byte.newline ∉ l.print := by
  cases l with
  | nil => decide
  | bool b => cases b <;> decide
  | int i => exact Byte.ne_newline_of_isAtom (Text.isAtom_ofInt _).all
  | float x =>
    rcases floatStyle.render_cases x with h | h
    · exact Byte.ne_newline_of_isAtom h.all
    · simp only [List.mem_cons, List.not_mem_nil, or_false] at h
      rcases h with h | h | h | h <;> rw [print, h] <;> decide
  | str t =>
    have hquote : Byte.newline ∉ [Byte.doubleQuote] := by decide
    have hbytes : Byte.newline ∉ t.flatMap escapeByte := fun hmem => by
      obtain ⟨b, -, hb⟩ := List.mem_flatMap.1 hmem
      exact newline_not_mem_escapeByte b hb
    simp only [print, List.mem_append, not_or]
    exact ⟨⟨hquote, hbytes⟩, hquote⟩

end Leaf

/-! ## Trees -/

theorem newline_not_mem_printAbsent {t : Option Text} (h : ∀ u ∈ t, Byte.newline ∉ u) :
    Byte.newline ∉ printAbsent t := by
  cases t with
  | none => decide
  | some u => exact h u rfl

/-- A value is on one line if what is printed of its nodes is. -/
theorem Value.newline_not_mem_print {v : Value Text} (h : ∀ t ∈ v.nodes, Byte.newline ∉ t) :
    Byte.newline ∉ v.print := by
  cases v with
  | leaf l => exact l.newline_not_mem_print
  | child c => exact newline_not_mem_printAbsent fun t ht => h t (Option.mem_toList.2 ht)
  | children cs =>
    have hcs : ∀ t ∈ cs.map printAbsent, ∀ b ∈ t, b ≠ Byte.newline := by
      rintro _ ht b hb rfl
      obtain ⟨c, hc, rfl⟩ := List.mem_map.1 ht
      refine newline_not_mem_printAbsent (fun u hu => h u ?_) hb
      rw [Option.mem_def.1 hu] at hc
      exact List.mem_filterMap.2 ⟨some u, hc, rfl⟩
    have hblank : ∀ b ∈ ascii " ", b ≠ Byte.newline := by
      rintro b hb rfl
      exact absurd hb (by decide)
    have hseparated : ∀ b ∈ List.intercalate (ascii " ") (cs.map printAbsent), b ≠ Byte.newline :=
      Text.forall_mem_intercalate hblank hcs
    simp only [print, List.mem_append, not_or]
    exact ⟨⟨by decide, fun hmem => hseparated _ hmem rfl⟩, by decide⟩

/-- A field is on one line if its name is a word, and its value is. -/
theorem Field.newline_not_mem_print {f : Field Text} (hname : f.name.isFieldName = true)
    (hvalue : Byte.newline ∉ f.value.print) : Byte.newline ∉ f.print := by
  have hword : Byte.newline ∉ f.name := by
    rw [Text.isFieldName, Bool.and_eq_true] at hname
    exact fun hmem => absurd (List.all_eq_true.1 hname.2 _ hmem) (by decide)
  simp only [print, List.mem_append, not_or]
  exact ⟨⟨⟨by decide, hword⟩, by decide⟩, hvalue⟩

namespace Node

variable {p : Leaf → Bool} {n : Node}

/-- **The printed form of a legible tree is one line**, whatever its
strings are. -/
theorem newline_not_mem_print (h : n.Legible p) : Byte.newline ∉ n.print := by
  induction n using Node.induction with
  | step n ih =>
    have hkind : Byte.newline ∉ n.kind.name := by cases n.kind <;> decide
    have hfields : Byte.newline ∉ (Fields.map print n.fields).flatMap Field.print := fun hmem => by
      obtain ⟨_, hprinted, hmem⟩ := List.mem_flatMap.1 hmem
      obtain ⟨f, hf, rfl⟩ := List.mem_map.1 hprinted
      obtain ⟨hself, hnodes⟩ := legible_iff.1 h f hf
      rw [Field.isLegible, Bool.and_eq_true] at hself
      refine Field.newline_not_mem_print hself.1 (Value.newline_not_mem_print fun t ht => ?_) hmem
      rw [Field.value_map, Value.nodes_map] at ht
      obtain ⟨m, hm, rfl⟩ := List.mem_map.1 ht
      exact ih m (Fields.mem_nodes hf hm) (hnodes m hm)
    rw [print_eq]
    simp only [List.mem_append, not_or]
    exact ⟨⟨⟨by decide, hkind⟩, hfields⟩, by decide⟩

/-- The nodes of a legible tree are legible. -/
theorem Legible.of_mem_subtree {m : Node} (h : n.Legible p) (hm : m ∈ n.subtree) : m.Legible p :=
  fun _ hk => h _ (subtree_trans hm hk)

end Node

end ScriptSplice
