import ScriptSplice.Proofs.Rules.Form
import ScriptSplice.Proofs.Target.Sheet
/-!
# What the options are for

A compilation with the standard rules writes the same program whatever the
options. They come in when it is handed out: the stem fills the holes of a
template, the width is that of a level of indentation, and the line table
is left out or not (`Compiler.options_law`).
-/

namespace ScriptSplice

/-- **A compiled tree without the options**: a sheet and the number of the
variable it binds, unless the tree stays as it is, and the nodes referred
to. -/
structure Blueprint where
  program : Option (Sheet × Nat)
  refs : List (Option Node)

/-- The compiled tree for a stem, a width of indentation, and with a line
table or without. -/
def Blueprint.write (stem : Text) (width : Nat) (lineTable : Bool) (b : Blueprint) : Compiled :=
  ⟨b.program.map fun p => (p.1.write stem width lineTable, variableName stem p.2), b.refs⟩

namespace Compiler

variable (parsers : Parsers)

/-- No rule looks at the options. -/
theorem run_options (o o' : Options) (root : Node) :
    (builtin o parsers).run root = (builtin o' parsers).run root := rfl

/-- What is handed out of a draft, without the options. -/
def blueprint (sheet : Sheet) (draft : Draft) (outcome : Option Nat) : Blueprint :=
  ⟨outcome.map fun n => (sheet, n), draft.refs⟩

/-- The options only write it out. -/
theorem present_eq_write {o : Options} {sheet : Sheet} {draft : Draft}
    (hsource : draft.program.source o = sheet.write o.stem o.indent o.lineTable)
    (outcome : Option Nat) : (builtin o parsers).present draft outcome =
      (blueprint sheet draft outcome).write o.stem o.indent o.lineTable := by
  cases outcome with
  | none => rfl
  | some n =>
    rw [present, Option.map_some]
    dsimp only [builtin]
    rw [hsource]
    rfl

/-- **The law of the options.** With the standard rules a tree has one
outcome: an error, or a blueprint that the options only write out. So the
flags of the report change nothing. The line table is there or not, and is
never there unless there is a mark. The width of indentation changes the
blanks before the other lines, each of which has a depth and a text of its
own. The stem fills the holes of the table, of these texts and of the name
of the variable. The lines of a sheet are the lines of the source. -/
theorem options_law (root : Node) :
    ∃ outcome : Except Diagnostic Blueprint, ∀ o : Options,
      o.stem.isIdentifier = true → 1 ≤ o.indent →
        ((builtin o parsers).compile root).1 =
          outcome.map (Blueprint.write o.stem o.indent o.lineTable) ∧
        ∀ b sheet n, outcome = .ok b → b.program = some (sheet, n) →
          sheet.marked = (((builtin o parsers).run root).2.program.written o).any isMark ∧
          ∀ line ∈ sheet.lines o.stem o.indent o.lineTable, Byte.newline ∉ line := by
  rcases hstandard : (builtin .standard parsers).run root with ⟨outcome, draft⟩
  obtain ⟨sheet, hsheet⟩ := draft.program.exists_sheet
  refine ⟨(outcome.mapError Compile.Failure.diagnostic).map (blueprint sheet draft),
    fun o hstem hwidth => ?_⟩
  have hrun := (run_options parsers o .standard root).trans hstandard
  obtain ⟨hsource, hmarked, hlines⟩ := hsheet o hstem hwidth
  constructor
  · rw [compile, hrun]
    cases outcome with
    | error failure => rfl
    | ok bound => exact congrArg Except.ok (present_eq_write parsers hsource bound)
  · intro b sheet' n hb hprogram
    rw [hrun]
    cases outcome with
    | error failure => cases hb
    | ok bound =>
      cases hb
      obtain ⟨m, -, hm⟩ := Option.map_eq_some_iff.1 hprogram
      cases hm
      exact ⟨hmarked, hlines⟩

/-- A branch with a body, with two stems and widths. -/
theorem options_law_branch :
    let condition : Node := ⟨.identifier, [⟨ascii "value", .leaf (.str (ascii "x"))⟩], ⟨2, 8⟩⟩
    let say : Node := ⟨.command, [⟨ascii "identifier", .leaf (.str (ascii "say"))⟩], ⟨3, 25⟩⟩
    let body : Node := ⟨.root, [⟨ascii "commands", .children [some say]⟩], ⟨3, 8⟩⟩
    let branch : Node := ⟨.command, [⟨ascii "identifier", .leaf (.str (ascii "if:condition:body"))⟩,
      ⟨ascii "arguments", .children [some condition, some body]⟩], ⟨1, 18⟩⟩
    let root : Node := ⟨.root, [⟨ascii "commands", .children [some branch]⟩], ⟨1, 1⟩⟩
    let o : Options := ⟨ascii "q", 1, false, true, true⟩
    let source := ascii "q_helper_children = q_runtime.helpers['children']\n" ++
      ascii "q_helper_replace = q_runtime.helpers['replace']\n" ++
      ascii "with q_runtime.scope() as q_var0:\n if (\nx):\n" ++
      ascii "  q_runtime.commands.extend(q_refs[0].commands)\n" ++
      ascii "q_var1 = q_helper_replace(q_refs[1], commands=q_helper_children(q_var0))"
    Options.standard.stem.isIdentifier = true ∧ 1 ≤ Options.standard.indent ∧
      o.stem.isIdentifier = true ∧ 1 ≤ o.indent ∧
      ∃ (sheet : Sheet) (refs : List (Option Node)),
        ((builtin .standard []).compile root).1 =
          .ok ⟨some (sheet.write (ascii "_bolt") 4 true, ascii "_bolt_var1"), refs⟩ ∧
        ((builtin o []).compile root).1 = .ok ⟨some (source, ascii "q_var1"), refs⟩ ∧
        source = sheet.write (ascii "q") 1 false ∧ sheet.marked = true := by
  intro condition say body branch root o source
  have hstem : o.stem.isIdentifier = true := by decide
  have hstandard : Options.standard.stem.isIdentifier = true := by decide
  have hprogram : ((builtin o []).compile root).1.toOption.map Compiled.program =
      some (some (source, ascii "q_var1")) := by decide +kernel
  have hmark : (((builtin o []).run root).2.program.written o).any isMark = true := by
    decide +kernel
  obtain ⟨outcome, houtcome⟩ := options_law [] root
  obtain ⟨hcompile, hsheet⟩ := houtcome o hstem le_rfl
  rw [hcompile] at hprogram
  cases outcome with
  | error diagnostic => cases hprogram
  | ok b =>
    obtain ⟨⟨sheet, n⟩, hb, hwritten⟩ := Option.map_eq_some_iff.1 (Option.some.inj hprogram)
    obtain ⟨hsource, hvariable⟩ := Prod.mk.inj hwritten
    obtain rfl : n = 1 := by
      have hname : variableName (ascii "q") 1 = ascii "q_var1" := by decide
      exact variableName_injective (hvariable.trans hname.symm)
    obtain ⟨program, refs⟩ := b
    cases hb
    refine ⟨hstandard, by decide, hstem, le_rfl, sheet, refs, ?_, ?_, hsource.symm, ?_⟩
    · have hname : variableName (ascii "_bolt") 1 = ascii "_bolt_var1" := by decide
      rw [← hname]
      exact (houtcome .standard hstandard (by decide)).1
    · rw [hcompile, ← hsource, ← hvariable]
      rfl
    · rw [(hsheet _ sheet 1 rfl rfl).1, hmark]

end Compiler

end ScriptSplice
