import ScriptSplice.Proofs.Rules.Accounts
import ScriptSplice.Proofs.Rules.Nesting
import ScriptSplice.Proofs.Target.Table
/-!
# Statements and their source lines

The line table of a compiled program says where its statements come from.
The statement of a command stands right behind the mark of the command
(`Line.Attributed`), so the last entry of the table that is not behind the
first line of the statement is the line of the command. A statement does
not begin with a mark of its own, whatever its expressions are broken at
(`Stmt.Over.head`).
-/

namespace ScriptSplice

open Compile

/-! ## Beginnings of statements -/

/-- Texts without `#`. -/
def Vocabulary.unmarked : Vocabulary where
  byte b := b ≠ Byte.hash
  blank := True
  field _ := True
  byte_space := by decide

namespace Text

variable {t u : Text}

theorem head_append (h : t.head? ≠ some Byte.hash) (h' : u.head? ≠ some Byte.hash) :
    (t ++ u).head? ≠ some Byte.hash := by
  cases t with
  | nil => exact h'
  | cons b t => exact h

theorem head_word (h : Vocabulary.unmarked.Word t) : t.head? ≠ some Byte.hash :=
  fun hhead => h _ (List.mem_of_mem_head? hhead) rfl

theorem head_keyword (h : t.isKeyword = true) : t.head? ≠ some Byte.hash := by
  rw [isKeyword, Bool.and_eq_true, List.all_eq_true] at h
  exact fun hhead => absurd (h.2 _ (List.mem_of_mem_head? hhead)) (by decide)

theorem head_names {names : List Text} (h : ∀ t ∈ names, Vocabulary.unmarked.Name t) :
    (commaSeparated names).head? ≠ some Byte.hash := by
  intro hhead
  refine forall_mem_intercalate (P := (· ≠ Byte.hash)) ?_ (fun t ht => (h t ht).1) _
    (List.mem_of_mem_head? hhead) rfl
  rintro b hb rfl
  exact absurd hb (by decide)

end Text

/-- A fixed word that is not empty. -/
theorem head_fixed (s : String) (h : (ascii s).head?.any (· != Byte.hash) = true) (t : Text) :
    (ascii s ++ t).head? ≠ some Byte.hash := by
  cases hs : ascii s with
  | nil =>
    rw [hs] at h
    cases h
  | cons b u =>
    rw [hs] at h
    rintro ⟨⟩
    cases h

section

variable {stem : Text} (hstem : stem.isIdentifier = true)

include hstem

theorem head_stem (t : Text) : (stem ++ t).head? ≠ some Byte.hash := by
  cases stem with
  | nil => cases hstem
  | cons b stem =>
    rintro ⟨⟩
    rw [Text.isIdentifier, Bool.and_eq_true] at hstem
    exact absurd hstem.1 (by decide)

theorem Expr.Over.head {e : Expr} (h : e.Over .unmarked) :
    (e.render stem).head? ≠ some Byte.hash := by
  induction h with
  | verbatim h => exact Text.head_word h.1
  | literal l => exact (Text.Folds.literal l).head
  | ref | slice | var | commands | apply | replace =>
    simp only [render, refsName, variableName, commandsName, runtimeName, Helper.localName,
      List.append_assoc]
    exact head_stem hstem _
  | bracketed | tuple | list | dict =>
    simp only [render, List.append_assoc]
    exact head_fixed _ rfl _
  | format template =>
    simp only [render, List.append_assoc]
    exact Text.head_append (Text.Folds.literal (.str template)).head (head_fixed _ rfl _)
  | binary _ _ _ ih | entry _ _ ih | lookup _ _ ih | call _ _ ih =>
    simp only [render, List.append_assoc]
    exact Text.head_append ih (head_fixed _ rfl _)
  | unary hoperator =>
    simp only [render, List.append_assoc]
    exact Text.head_append (Text.head_word hoperator) (head_fixed _ rfl _)

/-- **A statement does not begin with a mark.** -/
theorem Stmt.Over.head {s : Stmt} (h : s.Over .unmarked) :
    (s.render stem).head? ≠ some Byte.hash := by
  cases h with
  | eval he => exact he.head hstem
  | output | append | extend | extendBody =>
    simp only [render, commandsName, runtimeName, variableName, List.append_assoc]
    exact head_stem hstem _
  | bind hname _ =>
    simp only [render, List.append_assoc]
    exact Text.head_append (Text.head_word hname.1) (head_fixed _ rfl _)
  | bindModule _ hname =>
    simp only [render, List.append_assoc]
    exact Text.head_append (Text.head_word hname) (head_fixed _ rfl _)
  | pass => exact head_fixed "pass" rfl []
  | otherwise => exact head_fixed "else:" rfl []
  | @control keyword operand hkeyword _ =>
    cases operand with
    | none => exact Text.head_keyword hkeyword
    | some e =>
      simp only [render, List.append_assoc]
      exact Text.head_append (Text.head_keyword hkeyword) (head_fixed _ rfl _)
  | branch hkeyword _ =>
    simp only [render, List.append_assoc]
    exact Text.head_append (Text.head_keyword hkeyword) (head_fixed _ rfl _)
  | loop | define | default | scope | importNative | importNativeAs | fromNative =>
    simp only [render, List.append_assoc]
    exact head_fixed _ rfl _
  | bindNames _ hnames =>
    simp only [render, List.append_assoc]
    exact Text.head_append (Text.head_names hnames) (head_fixed _ rfl _)

end

/-! ## Programs -/

/-- A stock of everything. -/
def Stock.everything : Stock := ⟨fun _ => True, fun _ => True, fun _ => True⟩

theorem Node.lends_everything (n : Node) : n.Lends .everything :=
  ⟨trivial, fun _ _ => trivial, fun _ _ => trivial, fun _ _ _ _ _ => trivial⟩

/-- The line of a place is a number of 32 bits. -/
theorem Location.word_of_line? (l : Location) {line : Int} (h : l.line? = some line) :
    Text.word line = line := by
  unfold line? at h
  split at h
  · cases h
  · cases h
    exact Text.word_word l.line

namespace Compiler

variable (o : Options) (parsers : Parsers)

/-- **The lines of a compiled program** are the statements of the commands
of its tree. -/
theorem attributed_compileRoot {root : Node} {outcome : Option Nat} {draft : Draft}
    (hrun : exec ((builtin o parsers).compileRoot root) .empty = (.ok outcome, draft)) :
    Line.Attributed root.emitters draft.lines := by
  obtain ⟨lines, es, d, haccount, -, hlines⟩ :=
    account_compileRoot parsers o (fun m _ => m.lends_everything) hrun
  rcases hlines with ⟨-, -, hlines⟩ | ⟨e, -, -, hlines⟩
  · exact hlines ▸ haccount.attributed
  · have happend := haccount.attributed.append
      (.auxiliary (l := ⟨0, .output d.fresh e⟩) rfl .nil)
    rwa [List.append_nil, ← hlines] at happend

/-- A tree without a program has no commands that write. -/
theorem emitters_of_static {root : Node} {draft : Draft}
    (hrun : exec ((builtin o parsers).compileRoot root) .empty = (.ok none, draft)) :
    root.emitters = [] := by
  have hattributed := attributed_compileRoot o parsers hrun
  rw [lines_of_static o parsers hrun] at hattributed
  exact hattributed.eq_nil

/-- **Statements map to their source lines.** Let the names and operators
of a tree fit on one line, without marks, and not be blank, and let the
tree compile to a program with its line table. Its statements that are not
auxiliary are those of the commands `root.emitters`. Of the text of the
program, the first line is the table; behind what stays of the lines of
the commands before a command stands the statement of this command; and if
the line of the command is known, it is that of the last entry of the
table that is not behind the first line of the statement. -/
theorem statements_on_their_lines (hstem : o.stem.isIdentifier = true)
    (htable : o.lineTable = true) {root : Node}
    (hverbatims : ∀ m ∈ root.subtree, ∀ t ∈ m.verbatims,
      Byte.newline ∉ t ∧ Byte.hash ∉ t ∧ isBlank t = false)
    {compiled : Compiled} (hcompile : ((builtin o parsers).compile root).1 = .ok compiled)
    {earlier later : List Node} {m : Node} (hm : root.emitters = earlier ++ m :: later)
    {line : Int} (hline : m.location.line? = some line) :
    ∃ n draft source, (builtin o parsers).run root = (.ok (some n), draft) ∧
      compiled.program = some (source, variableName o.stem n) ∧
      ∃ before after depth s rows,
        draft.lines = before ++ ⟨depth, .mark line⟩ :: ⟨depth, s⟩ :: after ∧
        Line.Attributed earlier before ∧ m.Writes s ∧ Line.Attributed later after ∧
        let above := Program.layout o ⟨draft.helpers, before⟩
        let statement := Line.render o.stem o.indent ⟨depth, s⟩
        Text.lines source =
          (Program.tableName o ++ ascii " = " ++
            Assembly.column (rows.map fun r => (r.1 : Int)) ++ ascii ", " ++
            Assembly.column (rows.map (·.2))) ::
          (above ++ statement.keptLines ++ Program.body o ⟨draft.helpers, after⟩) ∧
        statement.keptLines.head? = some statement.firstLine ∧
        Assembly.place? rows (1 + above.length) = some line := by
  obtain ⟨outcome, draft, hrun, rfl⟩ := compile_eq_ok.1 hcompile
  cases outcome with
  | none =>
    rw [emitters_of_static o parsers hrun] at hm
    simp at hm
  | some n =>
    have hattributed := attributed_compileRoot o parsers hrun
    rw [hm] at hattributed
    obtain ⟨before, after, depth, s, hlines, hs, hbefore, hafter⟩ := hattributed.exists_of_append
    rw [Line.markOf, hline, Option.map_some, Option.toList_some, List.append_assoc,
      List.singleton_append] at hlines
    have hmem : (⟨depth, s⟩ : Line) ∈ Line.statements draft.lines := by
      refine List.mem_filter.2 ⟨by simp [hlines], ?_⟩
      cases hs <;> rfl
    have honeLine : root.Within .oneLine := fun k hk =>
      { verbatims := fun t ht => ⟨fun b hb heq => (hverbatims k hk t ht).1 (heq ▸ hb),
          fun hblank => by simp [(hverbatims k hk t ht).2.2] at hblank⟩
        fields := fun _ _ => trivial }
    have hunmarked : root.Within .unmarked := fun k hk =>
      { verbatims := fun t ht => ⟨fun b hb heq => (hverbatims k hk t ht).2.1 (heq ▸ hb),
          fun _ => trivial⟩
        fields := fun _ _ => trivial }
    have hstays : (s.render o.stem).Stays :=
      ⟨(over_compileRoot o parsers hunmarked hrun _ hmem).head hstem,
        (over_compileRoot o parsers honeLine hrun _ hmem).begins hstem⟩
    obtain ⟨rows, htext, hfirst, hplace⟩ := Program.place_of_marked hstem htable
      (m.location.word_of_line? hline) (p := draft.program) hlines hstays
    exact ⟨n, draft, _, hrun, rfl, before, after, depth, s, rows, hlines, hbefore, hs, hafter,
      htext, hfirst, hplace⟩

/-- A command in the body of a branch, read from the seventh line. -/
theorem statements_on_their_lines_branch :
    let condition : Node := ⟨.identifier, [⟨ascii "value", .leaf (.str (ascii "x"))⟩], ⟨5, 4⟩⟩
    let command (identifier : String) (arguments : List (Option Node)) (line : Int) : Node :=
      ⟨.command, [⟨ascii "identifier", .leaf (.str (ascii identifier))⟩,
        ⟨ascii "arguments", .children arguments⟩], ⟨line, 1⟩⟩
    let pass := command "pass" [] 7
    let body : Node := ⟨.root, [⟨ascii "commands", .children [some pass]⟩], ⟨7, 1⟩⟩
    let branch := command "if:condition:body" [condition, body] 5
    let root : Node := ⟨.root, [⟨ascii "commands", .children [some branch]⟩], ⟨1, 1⟩⟩
    Options.standard.lineTable = true ∧ root.emitters = [branch] ++ pass :: [] ∧
      ∃ (compiled : Compiled) (n : Nat) (draft : Draft) (source : Text),
        ((builtin .standard []).compile root).1 = .ok compiled ∧
        compiled.program = some (source, variableName (ascii "_bolt") n) ∧
        ∃ before after depth s rows,
          draft.lines = before ++ ⟨depth, .mark 7⟩ :: ⟨depth, s⟩ :: after ∧ pass.Writes s ∧
          let above := Program.layout .standard ⟨draft.helpers, before⟩
          let statement := Line.render (ascii "_bolt") 4 ⟨depth, s⟩
          Text.lines source =
            (Program.tableName .standard ++ ascii " = " ++
              Assembly.column (rows.map fun r => (r.1 : Int)) ++ ascii ", " ++
              Assembly.column (rows.map (·.2))) ::
            (above ++ statement.keptLines ++ Program.body .standard ⟨draft.helpers, after⟩) ∧
          statement.keptLines.head? = some statement.firstLine ∧
          Assembly.place? rows (1 + above.length) = some 7 := by
  intro condition command pass body branch root
  have hcondition : condition.emitters = [] := by
    rw [Node.emitters_eq]
    rfl
  have hpass : pass.emitters = [pass] := by
    rw [Node.emitters_eq]
    rfl
  have hbranch : branch.emitters =
      condition.emitters ++ [] ++ [branch] ++ (pass.emitters ++ []) := by
    rw [branch.emitters_eq]
    rfl
  have hroot : root.emitters = branch.emitters ++ [] ++ [] ++ [] := by
    rw [root.emitters_eq]
    rfl
  have hemitters : root.emitters = [branch] ++ pass :: [] := by
    rw [hroot, hbranch, hcondition, hpass]
    rfl
  have hverbatims : ∀ m ∈ root.subtree, ∀ t ∈ m.verbatims,
      Byte.newline ∉ t ∧ Byte.hash ∉ t ∧ isBlank t = false := by decide +kernel
  have hok : ((builtin .standard []).compile root).1.toOption.isSome = true := by decide +kernel
  refine ⟨rfl, hemitters, ?_⟩
  cases hcompile : ((builtin .standard []).compile root).1 with
  | error e =>
    rw [hcompile] at hok
    cases hok
  | ok compiled =>
    obtain ⟨n, draft, source, -, hprogram, before, after, depth, s, rows, hlines, -, hs, -, h⟩ :=
      statements_on_their_lines .standard [] rfl rfl hverbatims hcompile hemitters rfl
    exact ⟨compiled, n, draft, source, rfl, hprogram, before, after, depth, s, rows, hlines, hs, h⟩

end Compiler

end ScriptSplice
