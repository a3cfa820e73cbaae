import Mathlib.Data.List.Basic
import ScriptSplice.Program.Source
import ScriptSplice.Proofs.Target.Reading
/-!
# How generated code is read

What the expressions and the statements of a generated program read as,
one law for each that rebuilding uses. A statement is told by its first
word: only scopes begin with theirs and a blank, and no generated name is
as short as that word.
-/

namespace ScriptSplice

variable {stem : Text} (hstem : stem.isName = true)

/-! ## Expressions -/

namespace Reads

section

include hstem

/-- A referenced node is an item of the table. -/
theorem ref (i : Nat) :
    Reads ((Expr.ref i).render stem) (.item (.name (refsName stem)) (.number i)) := by
  rw [Expr.render]
  exact (name (isName_refsName hstem)).item (number i)

/-- A run of referenced nodes is a slice of the table. -/
theorem run (i j : Nat) :
    Reads ((Expr.slice i j).render stem)
      (.slice (.name (refsName stem)) (.number i) (.number j)) := by
  rw [Expr.render]
  exact (name (isName_refsName hstem)).slice (number i) (number j)

theorem var (n : Nat) : Reads ((Expr.var n).render stem) (.name (variableName stem n)) := by
  rw [Expr.render]
  exact name (isName_variableName hstem n)

theorem commands :
    Reads (commandsName stem) (.attribute (.name (runtimeName stem)) (ascii "commands")) := by
  have hmember := (name (isName_runtimeName hstem)).member (f := ascii "commands") rfl
  rwa [List.append_assoc] at hmember

/-- A call of a helper is a call of its local name. -/
theorem apply (h : Helper) (ps : List (Expr × Term))
    (hps : ∀ p ∈ ps, ReadsItem (.call (.name (h.localName stem))) (p.1.render stem) p.2) :
    Reads ((Expr.apply h (ps.map (·.1))).render stem)
      (.call (.name (h.localName stem)) (ps.map (·.2))) := by
  have hcall := (name (isName_localName hstem h)).call
    (ps.map fun p => (p.1.render stem, p.2)) (List.forall_mem_map.2 hps)
  rw [Expr.render, Expr.renderAll_eq]
  simpa only [List.map_map, Function.comp_def] using hcall

end

/-- Brackets without a mark only group. -/
theorem bracketed {e : Expr} {t : Term} (h : Reads (e.render stem) t) :
    Reads ((Expr.bracketed none e).render stem) t := by
  rw [Expr.render, lineMark, List.append_nil]
  exact h.group

theorem exprs (ps : List (Expr × Term)) (hps : ∀ p ∈ ps, Reads (p.1.render stem) p.2) :
    Reads ((Expr.list (ps.map (·.1))).render stem) (.list (ps.map (·.2))) := by
  have hlist := list (ps.map fun p => (p.1.render stem, p.2)) (List.forall_mem_map.2 hps)
  rw [Expr.render, Expr.renderAll_eq]
  simpa only [List.map_map, Function.comp_def] using hlist

/-- A text that reads as a term wherever it stands does so standing alone. -/
theorem read {t : Text} {e : Term} (h : Reads t e) : Term.read t = some e := by
  obtain ⟨c, hrun, hc⟩ := h .start rfl
  rw [Term.read, hrun]
  exact hc

end Reads

/-! ## Statements -/

namespace Statement

/-- A word ends where its bytes do. -/
private theorem span_word {w : Text} (hw : w.all Byte.isWord = true) {b : UInt8}
    (hb : Byte.isWord b = false) (t : Text) :
    (w ++ b :: t).takeWhile Byte.isWord = w ∧ (w ++ b :: t).dropWhile Byte.isWord = b :: t := by
  rw [List.all_eq_true] at hw
  rw [List.takeWhile_append_of_pos hw, List.dropWhile_append_of_pos hw,
    List.takeWhile_cons_of_neg (by simp [hb]), List.dropWhile_cons_of_neg (by simp [hb]),
    List.append_nil]
  exact ⟨rfl, rfl⟩

/-- A statement that begins with a word is simple, unless the word is the
one for scopes and has a blank behind it. -/
private theorem read_of_word {w : Text} (hw : w.all Byte.isWord = true) {b : UInt8}
    (hb : Byte.isWord b = false) (t : Text) (hscope : w = ascii "with" → b ≠ 0x20) :
    read (w ++ b :: t) = readSimple (w ++ b :: t) := by
  obtain ⟨htake, hdrop⟩ := span_word hw hb t
  have hpass : w ++ b :: t ≠ ascii "pass" := by
    intro h
    rw [h] at hdrop
    exact List.cons_ne_nil b t hdrop.symm
  have hwith : (ascii "with ").isPrefixOf? (w ++ b :: t) = none := by
    rw [Option.eq_none_iff_forall_ne_some]
    intro rest hrest
    -- a text has one first word, and one byte behind it
    obtain ⟨htake', hdrop'⟩ := span_word (w := ascii "with") rfl (b := 0x20) rfl rest
    have hrest := List.isPrefixOf?_eq_some_iff_append_eq.1 hrest
    have heq : ascii "with" ++ 0x20 :: rest = w ++ b :: t := hrest
    rw [heq, htake] at htake'
    rw [heq, hdrop, List.cons.injEq] at hdrop'
    exact hscope htake' hdrop'.1
  rw [read, if_neg hpass, hwith]

/-- A word with anything but a blank behind it begins an expression. -/
theorem read_eval {w : Text} (hw : w.all Byte.isWord = true) {b : UInt8}
    (hb : Byte.isWord b = false) (hblank : b ≠ 0x20) (t : Text) :
    read (w ++ b :: t) = (Term.read (w ++ b :: t)).map eval := by
  have hassign : (ascii " = ").isPrefixOf? (b :: t) = none := by
    rw [Option.eq_none_iff_forall_ne_some]
    intro rest hrest
    have heq : ascii " = " ++ rest = b :: t := List.isPrefixOf?_eq_some_iff_append_eq.1 hrest
    exact hblank (List.cons.inj heq).1.symm
  rw [read_of_word hw hb t fun _ => hblank, readSimple, (span_word hw hb t).2, hassign]

/-- An assignment. No generated name is as short as the word for scopes. -/
theorem read_assign {x : Text} (hx : x.isName = true) (hlength : 4 < x.length) (value : Text) :
    read (x ++ ascii " = " ++ value) = (Term.read value).map (assign x) := by
  have hwith : x ≠ ascii "with" := by
    rintro rfl
    exact absurd hlength (by decide)
  have hassign : (ascii " = ").isPrefixOf? (0x20 :: (ascii "= " ++ value)) = some value := rfl
  have hwords := Text.all_isWord_of_isName hx
  obtain ⟨htake, hdrop⟩ := span_word hwords (b := 0x20) rfl (ascii "= " ++ value)
  have heq : x ++ ascii " = " ++ value = x ++ 0x20 :: (ascii "= " ++ value) := by
    rw [List.append_assoc]
    rfl
  rw [heq, read_of_word hwords rfl _ fun h => absurd h hwith, readSimple, hdrop, hassign, htake]
  simp only [hx, if_true]

/-- A scope. -/
theorem read_scope {x : Text} (hx : x.isName = true) (context : Text) :
    read (ascii "with " ++ context ++ ascii " as " ++ x ++ ascii ":") =
      (Term.read context).map (scope · x) := by
  have hwords : x.reverse.all Byte.isWord = true := by
    rw [List.all_reverse]
    exact Text.all_isWord_of_isName hx
  obtain ⟨htake, hdrop⟩ := span_word hwords (b := 0x20) rfl (ascii "sa " ++ context.reverse)
  have hreverse : (context ++ ascii " as " ++ x ++ ascii ":").reverse =
      0x3a :: (x.reverse ++ 0x20 :: (ascii "sa " ++ context.reverse)) := by
    simp [ascii]
  -- a scope is read from its end, where the name stands between marks
  have hscope : readScope (context ++ ascii " as " ++ x ++ ascii ":") =
      (Term.read context).map (scope · x) := by
    rw [readScope, hreverse]
    change (Option.bind (some (x.reverse ++ 0x20 :: (ascii "sa " ++ context.reverse))) _) = _
    simp only [Option.bind_some, htake, hdrop, List.reverse_reverse, hx, if_true]
    change (Option.bind (some context.reverse) _) = _
    rw [Option.bind_some, List.reverse_reverse]
    cases Term.read context <;> rfl
  rw [read, if_neg (by simp [ascii])]
  have hwith : (ascii "with ").isPrefixOf?
      (ascii "with " ++ context ++ ascii " as " ++ x ++ ascii ":") =
        some (context ++ ascii " as " ++ x ++ ascii ":") := by
    simp only [List.append_assoc]
    rfl
  rw [hwith]
  exact hscope

end Statement

section

include hstem

/-- A call of a method of the commands collected so far. -/
private theorem read_method {m : Text} (hm : m.isName = true) {t : Text} {e : Term}
    (h : Reads t e) :
    Statement.read (commandsName stem ++ ascii "." ++ m ++ ascii "(" ++ t ++ ascii ")") =
      some (.eval (.call (.attribute (.attribute (.name (runtimeName stem)) (ascii "commands")) m)
        [e])) := by
  have hcall := ((Reads.commands hstem).member hm).call [(t, e)] (by simpa using h.readsItem _)
  have hword := Text.all_isWord_of_isName (isName_runtimeName hstem)
  have heq : commandsName stem ++ ascii "." ++ m ++ ascii "(" ++ t ++ ascii ")" =
      runtimeName stem ++ 0x2e :: (ascii "commands." ++ m ++ ascii "(" ++ t ++ ascii ")") := by
    simp [commandsName, ascii]
  rw [heq, Statement.read_eval hword rfl (by decide), ← heq]
  simp only [Text.commaSeparated, List.map_cons, List.map_nil, List.intercalate_singleton] at hcall
  rw [hcall.read]
  rfl

theorem read_append {e : Expr} {t : Term} (h : Reads (e.render stem) t) :
    Statement.read ((Stmt.append e).render stem) =
      some (.eval (.call (.attribute (.attribute (.name (runtimeName stem)) (ascii "commands"))
        (ascii "append")) [t])) := by
  rw [← read_method hstem rfl h, Stmt.render]
  simp [ascii]

theorem read_extend {e : Expr} {t : Term} (h : Reads (e.render stem) t) :
    Statement.read ((Stmt.extend e).render stem) =
      some (.eval (.call (.attribute (.attribute (.name (runtimeName stem)) (ascii "commands"))
        (ascii "extend")) [t])) := by
  rw [← read_method hstem rfl h, Stmt.render]
  simp [ascii]

theorem read_scope (n : Nat) :
    Statement.read ((Stmt.scope n).render stem) =
      some (.scope (.call (.attribute (.name (runtimeName stem)) (ascii "scope")) [])
        (variableName stem n)) := by
  have hscope := ((Reads.name (isName_runtimeName hstem)).member (f := ascii "scope") rfl).call []
    (by simp)
  rw [List.map_nil, List.map_nil] at hscope
  have heq : (Stmt.scope n).render stem =
      ascii "with " ++ (runtimeName stem ++ ascii "." ++ ascii "scope" ++ ascii "(" ++
        Text.commaSeparated [] ++ ascii ")") ++ ascii " as " ++ variableName stem n ++
        ascii ":" := by
    simp [Stmt.render, ascii, Text.commaSeparated]
  rw [heq, Statement.read_scope (isName_variableName hstem n), hscope.read]
  rfl

theorem read_output {e : Expr} {t : Term} (n : Nat) (h : Reads (e.render stem) t) :
    Statement.read ((Stmt.output n e).render stem) = some (.assign (variableName stem n) t) := by
  have hlength : 4 < (variableName stem n).length := by
    have hstem := List.length_pos_iff.2 (Text.ne_nil_of_isName hstem)
    simp only [variableName, List.length_append, ascii, List.length_map]
    change 4 < stem.length + 4 + _
    omega
  rw [Stmt.render, Statement.read_assign (isName_variableName hstem n) hlength, h.read]
  rfl

/-- The head of a program binds the local name of a helper to an item of the
helpers of the runtime. -/
theorem read_bindingLine (options : Options) (hoptions : options.stem = stem) {h : Helper}
    (hh : h.Plain) :
    Statement.read (Program.bindingLine options h) =
      some (.assign (h.localName stem)
        (.item (.attribute (.name (runtimeName stem)) (ascii "helpers")) (.text h.key))) := by
  have hvalue := ((Reads.name (isName_runtimeName hstem)).member (f := ascii "helpers") rfl).item
    (Reads.text hh.isWord_key)
  have hlength : 4 < (h.localName stem).length := by
    simp only [Helper.localName, List.length_append, ascii, List.length_map]
    change 4 < stem.length + 8 + _
    omega
  have heq : Program.bindingLine options h = h.localName stem ++ ascii " = " ++
      (runtimeName stem ++ ascii "." ++ ascii "helpers" ++ ascii "[" ++ Text.literal h.key ++
        ascii "]") := by
    simp [Program.bindingLine, hoptions, ascii]
  rw [heq, Statement.read_assign (isName_localName hstem h) hlength, hvalue.read]
  rfl

end

end ScriptSplice
