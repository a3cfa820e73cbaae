import ScriptSplice.Proofs.Compile.Wanting
import ScriptSplice.Proofs.Diagnostics.Notices
import ScriptSplice.Proofs.Rules.Deeds
import ScriptSplice.Proofs.Rules.Parsers
/-!
# Where errors are said to be

A compilation fails at a node of its tree, or for want of an operand or of
a body. What is missing has no place of its own, and it is not reported at
the node that lacks it. So for a tree whose nodes all have known places, an
error has the place of one of them, unless it is one of these two, which
have none. These come only from trees in which a node is compiled that has
not all that it needs (`Compiler.errors_located`).
-/

namespace ScriptSplice

open Compile

/-! ## Texts of errors -/

theorem Text.zero_not_mem_of_isAtom {t : Text} (h : t.IsAtom) : 0 ∉ t := fun hmem =>
  absurd (List.all_eq_true.1 h.all 0 hmem) (by decide)

/-- Only the name of a parser can bring a zero byte into an error. -/
theorem Compile.Cause.zero_not_mem_text {cause : Cause}
    (h : cause.code ≠ .unknownArgumentType) : 0 ∉ cause.text := by
  have hkind (kind : Kind) : 0 ∉ kind.name := by cases kind <;> decide
  have hcount (count : Nat) : 0 ∉ Text.ofNat count :=
    Text.zero_not_mem_of_isAtom (Text.isAtom_ofNat count)
  cases cause with
  | noRule kind => simpa [text, hkind] using And.intro (by decide) (by decide)
  | notSingle kind count => simpa [text, hkind, hcount] using And.intro (by decide) (by decide)
  | rootFragments count => simpa [text, hcount] using And.intro (by decide) (by decide)
  | unknownParser parser => exact absurd rfl h
  | _ => decide

namespace Diagnostic

/-- **A diagnostic tells a place**: it has the place, its message ends with
the line, and so do the numbers of its JSON. A message with a zero byte is
cut off there, which only the name of a parser can bring about. -/
structure Tells (e : Diagnostic) (place : Location) : Prop where
  location : e.location = place
  message : (e.code = .unknownArgumentType → 0 ∉ e.text) →
    e.message = e.code.text ++ ascii ": " ++ e.text ++
      ascii " (line " ++ Text.ofInt place.line ++ ascii ")"
  json : Json.ofText? e.json = some (.failure e.code.text e.message e.hint place)

end Diagnostic

/-- A failure at a known place tells it. -/
theorem Compile.Failure.tells {f : Failure} (hplace : f.location.isUnknown = false) :
    f.diagnostic.Tells f.location where
  location := rfl
  message hzero := by
    have htext : 0 ∉ f.cause.text := by
      by_cases hcode : f.cause.code = .unknownArgumentType
      · exact hzero hcode
      · exact Cause.zero_not_mem_text hcode
    have hline : 0 ∉ Text.ofInt f.location.line :=
      Text.zero_not_mem_of_isAtom (Text.isAtom_ofInt _)
    have hcode : ∀ code : ErrorCode, 0 ∉ code.text := by
      rintro (_ | _ | _ | _) <;> decide
    have hfull : 0 ∉ f.diagnostic.notice.fullMessage := by
      simp only [Diagnostic.notice, Failure.diagnostic, Diagnostic.lineNote, hplace,
        Bool.false_eq_true, if_false, List.mem_append, htext, hline, hcode, not_or, or_false,
        false_or]
      exact ⟨by decide, by decide, by decide⟩
    rw [Diagnostic.message, Notice.message, Text.untilNul, List.takeWhile_eq_self_iff.2]
    · simp [Diagnostic.notice, Failure.diagnostic, Diagnostic.lineNote, hplace]
    · exact fun b hb => bne_iff_ne.2 fun hb0 => hfull (hb0 ▸ hb)
  json := Notice.ofText?_json _

namespace Compiler

variable (o : Options) (parsers : Parsers) {root : Node} {e : Diagnostic}

/-- Every error is about the tree. -/
theorem concerns_of_compile_eq_error (he : ((builtin o parsers).compile root).1 = .error e) :
    ∃ (f : Failure) (d : Draft), f.Concerns parsers root ∧
      exec ((builtin o parsers).compileRoot root) .empty = (.error f, d) ∧ e = f.diagnostic := by
  obtain ⟨f, d, hrun, rfl⟩ := compile_eq_error.1 he
  have hroot := widens_compileRoot o (List.Subset.refl parsers) root .empty
  rw [hrun] at hroot
  exact ⟨f, d, by cases hroot <;> assumption, hrun, rfl⟩

/-- Compiling a node fails for want of something only if a node that is
compiled has not all that it needs. -/
theorem wants_part (n : Node) :
    Wants (∃ m ∈ n.invocations, none ∈ m.needs) ((builtin o parsers).part n).run := by
  induction n using Node.induction_descendants with
  | step n ih =>
    refine (does_part o parsers n).wants (fun h => ⟨n, n.mem_invocations_self, h⟩) ?_
    intro x hx k hk
    refine (ih k (Node.mem_descendants_of_mem_nodes hx hk)).mono ?_
    rintro ⟨m, hm, h⟩
    exact ⟨m, Node.mem_invocations_iff.2 (.inr ⟨x, hx, k, hk, hm⟩), h⟩

/-- And so does a whole tree. -/
theorem wants_compileRoot : Wants (∃ m ∈ root.invocations, none ∈ m.needs)
    ((builtin o parsers).compileRoot root) := by
  intro d f d' hrun habsent
  rw [exec_compileRoot] at hrun
  rcases hpart : exec ((builtin o parsers).part root).run d with
    ⟨g | _ | _ | ⟨e, _ | _⟩, d₁⟩ <;> rw [hpart] at hrun <;> cases hrun
  · exact wants_part o parsers root d f _ hpart habsent
  all_goals cases habsent

/-- **Errors have places.** If all nodes of a tree have known places, an
error tells the place of one of them, or else a node that is compiled lacks
an operand or its body; and that is reported without a place. -/
theorem errors_located (hknown : ∀ n ∈ root.subtree, n.location.isUnknown = false)
    (he : ((builtin o parsers).compile root).1 = .error e) :
    (∃ n ∈ root.subtree, e.Tells n.location) ∨
      (∃ n ∈ root.invocations, none ∈ n.needs) ∧
        (e = (Failure.mk .missingOperand .unknown).diagnostic ∨
          e = (Failure.mk .missingBody .unknown).diagnostic) := by
  obtain ⟨f, d, hf, hrun, rfl⟩ := concerns_of_compile_eq_error o parsers he
  cases hf with
  | absent hcause =>
    refine .inr ⟨wants_compileRoot o parsers _ _ _ hrun ?_,
      hcause.imp (by rintro rfl; rfl) (by rintro rfl; rfl)⟩
    rcases hcause with rfl | rfl <;> rfl
  | @node n cause hn _ => exact .inl ⟨n, hn, Failure.tells (hknown n hn)⟩
  | @parser n hn _ _ => exact .inl ⟨n, hn, Failure.tells (hknown n hn)⟩

/-- An import of a module with an empty path is refused at its argument. -/
theorem errors_located_import :
    let module : Node := ⟨.resourceLocation, [⟨ascii "path", .leaf (.str [])⟩], ⟨2, 9⟩⟩
    let n : Node := ⟨.command, [⟨ascii "identifier", .leaf (.str (ascii "import:module"))⟩,
      ⟨ascii "arguments", .children [some module]⟩], ⟨2, 1⟩⟩
    let e := (Failure.mk .emptyModulePath ⟨2, 9⟩).diagnostic
    (∀ m ∈ n.subtree, m.location.isUnknown = false) ∧
      ((builtin .standard []).compile n).1 = .error e ∧ (∃ m ∈ n.subtree, e.Tells m.location) ∧
      e.message = ascii "E2003: import target has an empty path (line 2)" := by
  intro module n e
  have hknown : ∀ m ∈ n.subtree, m.location.isUnknown = false := by decide
  have he : ((builtin .standard []).compile n).1 = .error e := by rfl
  refine ⟨hknown, he, ?_, by decide⟩
  obtain h | h := errors_located .standard [] hknown he
  · exact h
  · exact absurd h.2 (by decide)

/-- A sum without its second operand fails at no place, though all its
nodes have places. -/
theorem missing_operand_unlocated :
    let left : Node := ⟨.value, [⟨ascii "value", .leaf (.int 1)⟩], ⟨1, 29⟩⟩
    let n : Node := ⟨.binary, [⟨ascii "operator", .leaf (.str (ascii "+"))⟩,
      ⟨ascii "left", .child (some left)⟩], ⟨1, 1⟩⟩
    (∀ m ∈ n.subtree, m.location.isUnknown = false) ∧
      ∃ e, ((builtin .standard standardParsers).compile n).1 = .error e ∧
        (¬∃ m ∈ n.subtree, e.location = m.location) ∧
        e.message = ascii "E2001: missing required child" ∧
        Json.ofText? e.json = some (.failure e.code.text e.message e.hint ⟨-1, -1⟩) := by
  intro left n
  refine ⟨by decide, (Failure.mk .missingOperand .unknown).diagnostic, rfl, by decide, by decide,
    Notice.ofText?_json _⟩

end Compiler

end ScriptSplice
