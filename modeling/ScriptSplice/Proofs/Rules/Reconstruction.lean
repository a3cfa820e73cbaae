import ScriptSplice.Proofs.Rules.Rebuilding
/-!
# Programs reconstruct their trees

A program binds the helpers it uses and then computes the tree. Executing
the bindings leaves a good state (`Runtime.run_bindings`), from which the
other lines do what is said of them; and the text of the program is split
into just these lines again. So executing the program that a
reconstructible tree is compiled to binds its variable to the
reconstructed tree.

The stem of the names has to be an identifier for this, and blocks have to
be further in than what is around them.
-/

namespace ScriptSplice

open Compile

variable {R : Runtime} {σ σ₀ τ : State} {k : Nat}

namespace Runtime

/-! ## Bindings -/

/-- Nothing but the table and the runtime is bound before the first line. -/
theorem good_start (R : Runtime) : R.start.Good R [] 0 where
  table := if_pos rfl
  runtime := (if_neg runtimeName_ne_refsName).trans (if_pos rfl)
  helper _ hh := nomatch hh
  header := rfl
  column := rfl
  innermost := Nat.zero_lt_one

/-- **A binding** adds to the helpers. It does no harm to a helper that has
been bound, since the same name means the same key. -/
theorem good_bind {helpers : List Helper} {h : Helper} (hh : h.Plain)
    (hhelpers : ∀ g ∈ helpers, g.Plain) (hσ : σ.Good R helpers 0) :
    (σ.bind (h.localName R.stem) (.helper h.key)).Good R (helpers ++ [h]) 0 where
  table := (if_neg (refsName_ne_localName h)).trans hσ.table
  runtime := (if_neg (runtimeName_ne_localName h)).trans hσ.runtime
  helper g hg := by
    by_cases hname : g.localName R.stem = h.localName R.stem
    · have hplain : g.Plain := by
        rcases List.mem_append.1 hg with hg | hg
        · exact hhelpers g hg
        · exact List.mem_singleton.1 hg ▸ hh
      rw [hplain.key_eq hh hname]
      exact if_pos hname
    · refine (if_neg hname).trans (hσ.helper g ((List.mem_append.1 hg).resolve_right fun hg => ?_))
      exact hname (by rw [List.mem_singleton.1 hg])
  header := hσ.header
  column := hσ.column
  innermost := hσ.innermost

/-- **The head of a program** binds its helpers. -/
theorem run_bindings {options : Options} (hoptions : options.stem = R.stem)
    (hstem : R.stem.isName = true) {done helpers : List Helper} (hdone : ∀ g ∈ done, g.Plain)
    (hhelpers : ∀ g ∈ helpers, g.Plain) (hσ : σ.Good R done 0) :
    ∃ τ, R.run (helpers.map (Program.bindingLine options)) σ = some τ ∧
      τ.Good R (done ++ helpers) 0 := by
  induction helpers generalizing done σ with
  | nil => exact ⟨σ, rfl, by rwa [List.append_nil]⟩
  | cons h helpers ih =>
    rw [List.forall_mem_cons] at hhelpers
    -- the state behind the first binding is good for one helper more
    have hgood := good_bind hhelpers.1 hdone hσ
    have hdone' : ∀ g ∈ done ++ [h], g.Plain :=
      List.forall_mem_append.2 ⟨hdone, List.forall_mem_singleton.2 hhelpers.1⟩
    obtain ⟨τ, hrun, hτ⟩ := ih hdone' hhelpers.2 hgood
    refine ⟨τ, ?_, by simpa using hτ⟩
    have hblank : (Program.bindingLine options h).head? ≠ some 0x20 := by
      simp only [Program.bindingLine, hoptions, List.append_assoc]
      exact head?_name_append (isName_localName hstem h) _
    have hread := readLine_replicate (read_bindingLine hstem options hoptions hhelpers.1) 0 hblank
    rw [List.replicate_zero, List.nil_append] at hread
    have heval : R.eval σ (.item (.attribute (.name (runtimeName R.stem)) (ascii "helpers"))
        (.text h.key)) = some (.helper h.key) := by
      simp only [eval, hσ.runtime]
      rfl
    have hperform : R.perform σ (.assign (h.localName R.stem) (.item (.attribute
        (.name (runtimeName R.stem)) (ascii "helpers")) (.text h.key))) =
          some (σ.bind (h.localName R.stem) (.helper h.key)) := by
      rw [perform, heval]
      rfl
    rw [List.map_cons, run_cons, line_eq R hread (State.resume_eq hσ.header hσ.column) hperform]
    exact hrun

/-- **A program is executed** by doing what its lines do and binding its
variable to what its expression denotes then. -/
theorem execute_source {options : Options} (hoptions : options.stem = R.stem)
    (hstem : R.stem.isName = true) {helpers : List Helper} (hhelpers : ∀ g ∈ helpers, g.Plain)
    {lines : List Line} {f f' : Nat} {e : Expr} {v : Datum}
    (h : R.Does helpers 0 (lines.map (Line.render R.stem options.indent)) f f' [] [(e, v)]) :
    ∃ σ, R.execute (Program.source options ⟨helpers, lines ++ [⟨0, .output f' e⟩]⟩) = some σ ∧
      σ.names (variableName R.stem f') = some v := by
  obtain ⟨σ, hbindings, hσ⟩ :=
    run_bindings hoptions hstem (List.forall_mem_nil _) hhelpers (good_start R)
  obtain ⟨τ, hleads, heffect, hitems⟩ := h σ hσ
  obtain ⟨t, hread, heval⟩ := hitems _ (List.mem_singleton_self _)
  have hτ := hσ.effect heffect
  have hline : readLine (Line.render R.stem options.indent ⟨0, .output f' e⟩) =
      some (0, .assign (variableName R.stem f') t) := by
    rw [readLine_render (read_output hstem f' hread), Nat.zero_mul]
    simp only [Stmt.render, List.append_assoc]
    exact head?_name_append (isName_variableName hstem f') _
  have hperform : R.perform τ (.assign (variableName R.stem f') t) =
      some (τ.bind (variableName R.stem f') v) := by
    rw [perform, heval f' [] τ (.refl _ _ _)]
    rfl
  have hall := hleads.append (.statement hline hperform hτ.header hτ.column)
  obtain ⟨τ₀, hrun, hresume, hheader⟩ := hall σ (State.resume_eq hσ.header hσ.column)
  have hrun' : R.run (Program.texts options ⟨helpers, lines ++ [⟨0, .output f' e⟩]⟩) R.start =
      some τ₀ := by
    rw [Program.texts, List.map_append, hoptions, run_append, hbindings]
    exact hrun
  -- all lines have been executed, so they can be read and are found again
  have hlines := Program.lines_source (List.append_ne_nil_of_right_ne_nil _ (by simp))
    (readLine_of_run R hrun')
  refine ⟨τ₀, ?_, ?_⟩
  · rw [execute, hlines, hrun']
    have hnone := hheader (by simp)
    simp [hnone]
  · rw [← State.names_of_resume hresume]
    exact if_pos rfl

end Runtime

namespace Compiler

/-- A tree with a program is one whose root gives one fragment. -/
theorem exec_part_of_program_eq_some {c : Compiler} {root : Node} {compiled : Compiled}
    {source output : Text} (h : (c.compile root).1 = .ok compiled)
    (hprogram : compiled.program = some (source, output)) :
    ∃ e d, exec (c.part root).run .empty = (.ok (some [e]), d) ∧ compiled.refs = d.refs ∧
      source = Program.source c.options ⟨d.helpers, d.lines ++ [⟨d.depth, .output d.fresh e⟩]⟩ ∧
      output = variableName c.options.stem d.fresh := by
  obtain ⟨outcome, draft, hrun, rfl⟩ := compile_eq_ok.1 h
  rw [exec_compileRoot] at hrun
  rcases hpart : exec (c.part root).run .empty with ⟨_ | _ | _ | ⟨e, _ | _⟩, d⟩ <;>
    rw [hpart] at hrun <;> cases hrun
  · cases hprogram
  · cases hprogram
    exact ⟨e, d, rfl, rfl, rfl, rfl⟩

variable (o : Options) (parsers : Parsers)

end Compiler

end ScriptSplice
