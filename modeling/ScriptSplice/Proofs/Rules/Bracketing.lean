import ScriptSplice.Proofs.Rules.Twin
import ScriptSplice.Proofs.Target.Tidy
import ScriptSplice.Proofs.Tree.Legible
/-!
# Line breaks stay inside brackets

The marks of lines break the text of an expression, which is harmless in
brackets alone. Whatever a node is compiled to is a program over the texts
of its tree (`Compiler.twin_part`), so if these texts do nothing to what
stands around them, its fragments and statements are tidy.
-/

namespace ScriptSplice

open Compile

/-- A word of the textual format does nothing to what stands around it. -/
theorem Text.isPlain_of_isFieldName {t : Text} (h : t.isFieldName = true) :
    t.all Byte.isPlain = true := by
  have hall : ∀ b, Reader.isWordByte b = true → Byte.isPlain b = true :=
    Byte.forall_of_ofNat (by decide +kernel)
  rw [isFieldName, Bool.and_eq_true] at h
  exact List.all_eq_true.2 fun b hb => hall b (List.all_eq_true.1 h.2 b hb)

/-- The draft without marks and places. -/
def Draft.unmarked (d : Draft) : Draft :=
  { d with lines := Line.unmarkedAll d.lines, refs := d.refs.map (·.map Node.unlocated) }

theorem Draft.twin_unmarked (d : Draft) : d.Twin d.unmarked := ⟨rfl, rfl, rfl, rfl, rfl⟩

/-- A statement over plain texts is tidy, behind its blanks too. -/
theorem Line.tidy {stem : Text} (hstem : stem.isName = true) {l : Line}
    (h : l.stmt.Over .plain) (width : Nat) : (l.render stem width).Tidy := by
  have hblanks : (indentation width l.depth).Tidy := by
    refine .of_isPlain (List.all_eq_true.2 fun b hb => ?_)
    rw [List.eq_of_mem_replicate hb]
    rfl
  exact hblanks.append (h.pieces Text.Tidy.pieces hstem)

namespace Compiler

variable (o : Options) (parsers : Parsers)

/-- **Line breaks stay inside brackets.** Let the names and operators of a
tree have no line breaks, quotes, backslashes, brackets or marks, and let
its fields be named by words. Then every fragment that it is compiled to,
in whatever draft, is tidy; and so is every line of a compiled program but
for the marks. -/
theorem breaks_in_brackets (hstem : o.stem.isIdentifier = true) {n : Node}
    (hverbatims : ∀ m ∈ n.subtree, ∀ t ∈ m.verbatims, t.all Byte.isPlain = true)
    (hfields : ∀ m ∈ n.subtree, ∀ f ∈ m.fields, f.name.isFieldName = true) :
    (∀ d fragments d', exec ((builtin o parsers).part n).run d = (.ok (some fragments), d') →
      ∀ e ∈ fragments, (e.render o.stem).Tidy) ∧
    ∀ outcome draft, (builtin o parsers).run n = (.ok outcome, draft) →
      ∀ l ∈ Line.statements draft.lines, (l.render o.stem o.indent).Tidy := by
  have hname := Text.isName_of_isIdentifier hstem
  have hwithin : n.Within .plain := fun m hm =>
    { verbatims := fun t ht =>
        ⟨fun b hb => List.all_eq_true.1 (hverbatims m hm t ht) b hb, fun _ => trivial⟩
      fields := fun f hf => Text.isPlain_of_isFieldName (hfields m hm f hf) }
  refine ⟨fun d fragments d' hrun => ?_, fun outcome draft hrun => ?_⟩
  · have htwin := twin_part o parsers hwithin d.depth d _ rfl d.twin_unmarked
    rw [hrun] at htwin
    generalize exec ((builtin o parsers).part n.unlocated).run d.unmarked = y at htwin
    cases htwin with
    | ok _ _ _ _ hresult =>
      cases hresult with
      | some hes => exact fun e he => (hes.isOver e he).pieces Text.Tidy.pieces hname
  · have htwin := twin_compileRoot o parsers hwithin
    have hexec : exec ((builtin o parsers).compileRoot n) .empty = (.ok outcome, draft) := hrun
    rw [hexec] at htwin
    generalize exec ((builtin o parsers).compileRoot n.unlocated) .empty = y at htwin
    cases htwin with
    | @ok _ _ new _ _ hlines hblocks =>
      have hnew : draft.lines = new := hlines
      rw [hnew]
      exact fun l hl => Line.tidy hname (hblocks.isOver l hl) o.indent

/-- A call, with a quote, a bracket and a line break in the string that is
its argument, as a statement of its own. -/
theorem breaks_in_brackets_call :
    let name : Node := ⟨.identifier, [⟨ascii "value", .leaf (.str (ascii "f"))⟩], ⟨3, 4⟩⟩
    let string : Node := ⟨.value, [⟨ascii "value", .leaf (.str (ascii "it's (\n"))⟩], ⟨4, 1⟩⟩
    let call : Node := ⟨.call, [⟨ascii "value", .child (some name)⟩,
      ⟨ascii "arguments", .children [some string]⟩], ⟨3, 4⟩⟩
    let statement : Node := ⟨.command, [⟨ascii "identifier", .leaf (.str (ascii "statement"))⟩,
      ⟨ascii "arguments", .children [some call]⟩], ⟨3, 1⟩⟩
    let root : Node := ⟨.root, [⟨ascii "commands", .children [some statement]⟩], ⟨1, 1⟩⟩
    let c := builtin .standard []
    (∃ e d, exec (c.part call).run .empty = (.ok (some [e]), d) ∧
      e.render (ascii "_bolt") = ascii "(\n#3\n(\n#3\nf)(\"it's (\\n\"))" ∧
      (e.render (ascii "_bolt")).Tidy) ∧
    (c.run root).1 = .ok (some 1) ∧ (c.run root).2.lines.length = 4 ∧
      ∀ l ∈ Line.statements (c.run root).2.lines, (l.render (ascii "_bolt") 4).Tidy := by
  intro name string call statement root c
  have hok : (c.run root).1 = .ok (some 1) := by decide +kernel
  have hfragments := (breaks_in_brackets .standard [] rfl (n := call) (by decide +kernel)
    (by decide +kernel)).1
  have hlines := (breaks_in_brackets .standard [] rfl (n := root) (by decide +kernel)
    (by decide +kernel)).2
  have htext : (exec (c.part call).run .empty).1.toOption.join.map
      (·.map fun e => e.render (ascii "_bolt")) =
      some [ascii "(\n#3\n(\n#3\nf)(\"it's (\\n\"))"] := by decide +kernel
  refine ⟨?_, hok, by decide +kernel, hlines (some 1) _ (Prod.ext hok rfl)⟩
  rcases hrun : exec (c.part call).run .empty with ⟨_ | _ | _ | ⟨e, _ | _⟩, d⟩ <;>
    simp only [hrun] at htext
  case ok.some.cons.nil =>
    have hrender := List.head_eq_of_cons_eq (Option.some.inj htext)
    exact ⟨e, d, rfl, hrender, hfragments .empty [e] d hrun e List.mem_cons_self⟩
  all_goals simp [Except.toOption] at htext

end Compiler

end ScriptSplice
