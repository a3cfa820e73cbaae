import ScriptSplice.Proofs.Rules.Twin
import ScriptSplice.Proofs.Target.Sources
import ScriptSplice.Proofs.Tree.Legible
import ScriptSplice.Proofs.Tree.Places
/-!
# Places never change the program

A tree read with places and the same tree read without compile to the
same program. The two compilations are twins (`Compiler.twin_compileRoot`):
their drafts differ by marks alone, and so the texts of their programs
differ by line breaks and the line table.
-/

namespace ScriptSplice

open Compile

/-- A word of the textual format has neither line breaks nor marks. -/
theorem Text.markless_of_isFieldName {t : Text} (h : t.isFieldName = true) :
    ∀ b ∈ t, b ≠ Byte.newline ∧ b ≠ Byte.hash := by
  intro b hb
  rw [Text.isFieldName, Bool.and_eq_true] at h
  have hword := List.all_eq_true.1 h.2 b hb
  constructor <;> rintro rfl <;> exact absurd hword (by decide)

namespace Compiler

variable (o : Options) (parsers : Parsers)

/-- What compiling gives, read off the run. -/
theorem fst_compile (c : Compiler) (root : Node) :
    (c.compile root).1 =
      ((exec (c.compileRoot root) .empty).1.mapError Failure.diagnostic).map
        (c.present (exec (c.compileRoot root) .empty).2) := rfl

/-- **Places never change the program.** Let a text be accepted, and let
the names and operators of its tree fit on one line and have no mark. Then
it is accepted without places too, and both trees fail to compile with the
same code; or they stay as they are; or the programs bind the same
variable and are the same text but for line breaks, marks and the line
table. The nodes referred to are the same but for their places. -/
theorem locations_irrelevant (hstem : o.stem.isIdentifier = true) {text : Text} {located : Node}
    (hparse : Node.parse text true = .ok located)
    (hverbatims : ∀ m ∈ located.subtree, ∀ t ∈ m.verbatims, Byte.newline ∉ t ∧ Byte.hash ∉ t) :
    ∃ plain, Node.parse text false = .ok plain ∧
      match ((builtin o parsers).compile located).1, ((builtin o parsers).compile plain).1 with
      | .error e, .error e' => e'.code = e.code
      | .ok r, .ok r' => r'.refs = r.refs.map (·.map Node.unlocated) ∧
        match r.program, r'.program with
        | none, none => True
        | some (source, output), some (source', output') =>
          output' = output ∧ Program.SameText o source source'
        | _, _ => False
      | _, _ => False := by
  have hwithin : located.Within .markless := fun m hm =>
    { verbatims := fun t ht => ⟨fun b hb => ⟨fun heq => (hverbatims m hm t ht).1 (heq ▸ hb),
        fun heq => (hverbatims m hm t ht).2 (heq ▸ hb)⟩, fun _ => trivial⟩
      fields := fun f hf => by
        have hlegible := Node.legible_of_parse hparse m hm f hf
        rw [Field.isLegible, Bool.and_eq_true] at hlegible
        exact Text.markless_of_isFieldName hlegible.1 }
  refine ⟨located.unlocated, by rw [Node.parse_false text true, hparse]; rfl, ?_⟩
  have htwin := twin_compileRoot o parsers hwithin
  rw [fst_compile, fst_compile]
  generalize exec ((builtin o parsers).compileRoot located) .empty = x,
    exec ((builtin o parsers).compileRoot located.unlocated) .empty = y at htwin
  cases htwin with
  | error hcause => exact congrArg Cause.code hcause
  | @ok outcome outcome' new d d' hlines hblocks _ hdrafts houtcome =>
    obtain ⟨rfl, -⟩ := houtcome
    refine ⟨hdrafts.refs, ?_⟩
    cases outcome' with
    | none => trivial
    | some n =>
      refine ⟨rfl, Program.sameText_unmarked (p := d.program) (q := d'.program)
        (Text.isName_of_isIdentifier hstem) hdrafts.helpers hdrafts.lines ?_⟩
      have hnew : d.lines = new := hlines
      change ∀ l ∈ Line.statements d.lines, _
      rw [hnew]
      exact hblocks.isOver

set_option maxRecDepth 20000 in
/-- A branch with a body, read from a text of three lines. -/
theorem locations_irrelevant_branch :
    let text := ascii "(root :commands [(command :identifier \"if:condition:body\" :arguments
      [(identifier :value \"x\")
       (root :commands [(command :identifier \"say\")])])])"
    let condition : Node := ⟨.identifier, [⟨ascii "value", .leaf (.str (ascii "x"))⟩], ⟨2, 8⟩⟩
    let say : Node := ⟨.command, [⟨ascii "identifier", .leaf (.str (ascii "say"))⟩], ⟨3, 25⟩⟩
    let body : Node := ⟨.root, [⟨ascii "commands", .children [some say]⟩], ⟨3, 8⟩⟩
    let branch : Node := ⟨.command, [⟨ascii "identifier", .leaf (.str (ascii "if:condition:body"))⟩,
      ⟨ascii "arguments", .children [some condition, some body]⟩], ⟨1, 18⟩⟩
    let located : Node := ⟨.root, [⟨ascii "commands", .children [some branch]⟩], ⟨1, 1⟩⟩
    Node.parse text true = .ok located ∧
      (∀ m ∈ located.subtree, ∀ t ∈ m.verbatims, Byte.newline ∉ t ∧ Byte.hash ∉ t) ∧
      ∃ plain r r' source source' output, Node.parse text false = .ok plain ∧
        ((builtin .standard []).compile located).1 = .ok r ∧
        ((builtin .standard []).compile plain).1 = .ok r' ∧
        r'.refs = r.refs.map (·.map Node.unlocated) ∧ r.program = some (source, output) ∧
        r'.program = some (source', output) ∧ Program.SameText .standard source source' := by
  intro text condition say body branch located
  have hparse : Node.parse text true = .ok located := by rfl
  have hverbatims : ∀ m ∈ located.subtree, ∀ t ∈ m.verbatims,
      Byte.newline ∉ t ∧ Byte.hash ∉ t := by decide +kernel
  have hprogram : (((builtin .standard []).compile located).1.toOption.bind
      Compiled.program).isSome = true := by decide +kernel
  refine ⟨hparse, hverbatims, ?_⟩
  obtain ⟨plain, hplain, h⟩ := locations_irrelevant .standard [] rfl hparse hverbatims
  cases hr : ((builtin .standard []).compile located).1 with
  | error e =>
    rw [hr] at hprogram
    cases hprogram
  | ok r =>
    rw [hr] at h hprogram
    cases hr' : ((builtin .standard []).compile plain).1 with
    | error e =>
      rw [hr'] at h
      exact h.elim
    | ok r' =>
      rw [hr'] at h
      obtain ⟨hrefs, h⟩ := h
      rcases hprogram₁ : r.program with _ | ⟨source, output⟩
      · rw [Except.toOption, Option.bind_some, hprogram₁] at hprogram
        cases hprogram
      · rcases hprogram₂ : r'.program with _ | ⟨source', output'⟩
        · rw [hprogram₁, hprogram₂] at h
          exact h.elim
        · rw [hprogram₁, hprogram₂] at h
          obtain ⟨rfl, htext⟩ := h
          exact ⟨plain, r, r', source, source', output', hplain, rfl, hr', hrefs, hprogram₁,
            hprogram₂, htext⟩

end Compiler

end ScriptSplice
