import Mathlib.Data.List.Induction
import ScriptSplice.Proofs.Compile.Outcome
import ScriptSplice.Proofs.Target.Layout
import ScriptSplice.Proofs.Target.Quoted
/-!
# Calls of helpers and the head of a program

The head of a program is read and executed line by line, and each line
binds a local name to the helper with a key. Local names are made of keys
but forget some of what is in them, so two helpers can share one, and then
the name stands for the one that was used last. Every call reaches its own
helper exactly if no two of the calls share a name under different keys
(`helper_calls_reach_iff`); converters that differ in a separator do
(`helper_calls_collide`).
-/

namespace ScriptSplice

/-! ## Executing the head -/

/-- A binding, as the target language reads it: a name, and the key of the
helper that the name is bound to. -/
structure Binding where
  name : Text
  key : Text

namespace Binding

/-- Reading `name = runtime.helpers['key']`. -/
def read (stem line : Text) : Option Binding := do
  let name : Text := line.takeWhile Byte.isWord
  let literal ← (ascii " = " ++ runtimeName stem ++ ascii ".helpers[").isPrefixOf?
    (line.dropWhile Byte.isWord)
  match ← Text.readLiteral literal with
  | (key, [0x5d]) => if name.isName then some ⟨name, key⟩ else none
  | _ => none

/-- The keys that names stand for, after a binding. -/
def bind (names : Text → Option Text) (b : Binding) : Text → Option Text :=
  fun x => if x = b.name then some b.key else names x

/-- **Executing the head of a program**, from top to bottom. -/
def execute (stem : Text) (lines : List Text) : Option (Text → Option Text) :=
  lines.foldlM (fun names line => (read stem line).map (bind names)) fun _ => none

/-- The binding of a helper. -/
def ofHelper (stem : Text) (h : Helper) : Binding := ⟨h.localName stem, h.key⟩

/-- **The binding line of a helper is read as its binding**, whatever
bytes are in its key. -/
theorem read_bindingLine {o : Options} (hstem : o.stem.isIdentifier = true) (h : Helper) :
    read o.stem (Program.bindingLine o h) = some (ofHelper o.stem h) := by
  have hname := isName_localName (Text.isName_of_isIdentifier hstem) h
  have hword : ∀ b ∈ h.localName o.stem, Byte.isWord b = true :=
    List.all_eq_true.1 (Text.all_isWord_of_isName hname)
  have hline : Program.bindingLine o h = h.localName o.stem ++
      ((ascii " = " ++ runtimeName o.stem ++ ascii ".helpers[") ++
        (Text.literal h.key ++ ascii "]")) := by
    simp only [Program.bindingLine, List.append_assoc]
  -- the name ends at the blank behind it
  have htake : (Program.bindingLine o h).takeWhile Byte.isWord = h.localName o.stem := by
    rw [hline, List.takeWhile_append_of_pos hword]
    exact List.append_nil _
  have hdrop : (Program.bindingLine o h).dropWhile Byte.isWord =
      (ascii " = " ++ runtimeName o.stem ++ ascii ".helpers[") ++
        (Text.literal h.key ++ ascii "]") := by
    rw [hline, List.dropWhile_append_of_pos hword]
    rfl
  rw [read, htake, hdrop, List.isPrefixOf?_eq_some_iff_append_eq.2 rfl]
  simp only [Option.bind_eq_bind, Option.bind_some, Text.readLiteral_literal]
  exact if_pos hname

theorem execute_bindingLines {o : Options} (hstem : o.stem.isIdentifier = true)
    (helpers : List Helper) :
    execute o.stem (helpers.map (Program.bindingLine o)) =
      some (helpers.foldl (fun names h => bind names (ofHelper o.stem h)) fun _ => none) := by
  unfold execute
  generalize (fun _ => none : Text → Option Text) = names
  induction helpers generalizing names with
  | nil => rfl
  | cons h helpers ih =>
    rw [List.map_cons, List.foldlM_cons, read_bindingLine hstem h]
    exact ih _

/-- **A name stands for the last helper that was given it.** -/
theorem foldl_bind_eq_some (stem : Text) (names : Text → Option Text) {helpers : List Helper}
    {h : Helper} (hh : h ∈ helpers) :
    ∃ g ∈ helpers, g.localName stem = h.localName stem ∧
      helpers.foldl (fun names h => bind names (ofHelper stem h)) names (h.localName stem) =
        some g.key := by
  induction helpers using List.reverseRecOn with
  | nil => exact absurd hh List.not_mem_nil
  | append_singleton helpers g ih =>
    rw [List.foldl_append]
    by_cases hname : h.localName stem = g.localName stem
    · exact ⟨g, by simp, hname.symm, if_pos hname⟩
    · have hmem : h ∈ helpers := (List.mem_append.1 hh).resolve_right fun hg =>
        hname (congrArg _ (List.mem_singleton.1 hg))
      obtain ⟨k, hk, hkname, hlast⟩ := ih hmem
      exact ⟨k, List.mem_append_left _ hk, hkname, (if_neg hname).trans hlast⟩

end Binding

/-! ## Calls -/

/-- The ways of calling a helper. -/
inductive HelperCall where
  | apply (h : Helper) (args : List Expr)
  | replace (node : Expr) (fields : List (Text × Expr))
  | children (items : List Expr)
  | missing

namespace HelperCall

/-- A call in a draft, and the expression it gives. -/
def perform : HelperCall → Drafting Expr
  | apply h args => Drafting.apply h args
  | replace node fields => Drafting.replace node fields
  | children items => Drafting.children items
  | missing => Drafting.missing

/-- The helper that is called. -/
def helper : HelperCall → Helper
  | apply h _ => h
  | replace .. => .replace
  | children _ => .children
  | missing => .missing

/-- The expression of a call. -/
def expr : HelperCall → Expr
  | apply h args => .apply h args
  | replace node fields => .apply .replace (node :: fields.map fun f => .keyword f.1 f.2)
  | children items => .apply .children [.list items]
  | missing => .missing

theorem perform_apply (c : HelperCall) (d : Draft) :
    c.perform d = (c.expr, (Drafting.use c.helper d).2) := by
  cases c <;> rfl

/-- The expression of a call begins with the local name of its helper, and
the arguments, if it has any, are in parentheses behind it. -/
theorem render_expr (c : HelperCall) (stem : Text) : ∃ t : Text,
    c.expr.render stem = c.helper.localName stem ++ t ∧
      (t = [] ∨ ∃ u, t = ascii "(" ++ u ++ ascii ")") := by
  have happly (h : Helper) (args : List Expr) : ∃ t : Text,
      (Expr.apply h args).render stem = h.localName stem ++ t ∧
        (t = [] ∨ ∃ u, t = ascii "(" ++ u ++ ascii ")") :=
    ⟨ascii "(" ++ Text.commaSeparated (Expr.renderAll stem args) ++ ascii ")",
      by simp only [Expr.render, List.append_assoc], .inr ⟨_, rfl⟩⟩
  cases c with
  | apply h args => exact happly h args
  | replace node fields => exact happly _ _
  | children items => exact happly _ _
  | missing => exact ⟨[], (List.append_nil _).symm, .inl rfl⟩

end HelperCall

/-- Calls one after the other, and the helpers that are in use then. -/
theorem HelperCall.mapM_perform (calls : List HelperCall) (d : Draft) :
    (calls.mapM perform d).1 = calls.map expr ∧
      ∀ g, g ∈ (calls.mapM perform d).2.helpers ↔
        g ∈ d.helpers ∨ ∃ c ∈ calls, c.helper = g := by
  induction calls generalizing d with
  | nil => exact ⟨rfl, by simp⟩
  | cons c calls ih =>
    obtain ⟨hexprs, hhelpers⟩ := ih (Drafting.use c.helper d).2
    simp only [List.mapM_cons, Drafting.bind_apply, Drafting.pure_apply, perform_apply]
    refine ⟨by rw [hexprs, List.map_cons], fun g => ?_⟩
    rw [hhelpers, Drafting.mem_helpers_use, List.exists_mem_cons_iff, or_assoc, eq_comm (a := g)]

/-- **Which helper a call reaches.** Let helpers be called one after
another in a draft that uses none yet. The expression of each call begins
with the local name of its helper. The source begins with the line table,
if there is one, and the bindings, and these can be executed. The name in
a call then stands for the helper of one of the calls with this name; and
every call reaches its own helper exactly if no two calls have the same
name and different keys. -/
theorem helper_calls_reach_iff {o : Options} (hstem : o.stem.isIdentifier = true)
    (calls : List HelperCall) (draft : Draft) :
    let made := calls.mapM HelperCall.perform { draft with helpers := [] }
    let p := made.2.program
    made.1 = calls.map HelperCall.expr ∧
    (∀ c ∈ calls, ∃ t : Text, c.expr.render o.stem = c.helper.localName o.stem ++ t ∧
      (t = [] ∨ ∃ u, t = ascii "(" ++ u ++ ascii ")")) ∧
    ∃ head names,
      p.source o = List.intercalate (ascii "\n") (p.tableLines o ++ head ++ p.body o) ∧
      Binding.execute o.stem head = some names ∧
      (∀ c ∈ calls, ∃ c' ∈ calls, c'.helper.localName o.stem = c.helper.localName o.stem ∧
        names (c.helper.localName o.stem) = some c'.helper.key) ∧
      ((∀ c ∈ calls, names (c.helper.localName o.stem) = some c.helper.key) ↔
        ∀ c ∈ calls, ∀ c' ∈ calls,
          c.helper.localName o.stem = c'.helper.localName o.stem →
            c.helper.key = c'.helper.key) := by
  intro made p
  obtain ⟨hexprs, hhelpers⟩ := HelperCall.mapM_perform calls { draft with helpers := [] }
  have hlast : ∀ c ∈ calls, ∃ c' ∈ calls,
      c'.helper.localName o.stem = c.helper.localName o.stem ∧
        p.helpers.foldl (fun names h => Binding.bind names (Binding.ofHelper o.stem h))
          (fun _ => none) (c.helper.localName o.stem) = some c'.helper.key := by
    intro c hc
    have hmem : c.helper ∈ p.helpers := (hhelpers _).2 (.inr ⟨c, hc, rfl⟩)
    obtain ⟨g, hg, hname, hkey⟩ := Binding.foldl_bind_eq_some o.stem (fun _ => none) hmem
    obtain ⟨c', hc', rfl⟩ := ((hhelpers g).1 hg).resolve_left List.not_mem_nil
    exact ⟨c', hc', hname, hkey⟩
  refine ⟨hexprs, fun c _ => c.render_expr o.stem, _, _, ?_,
    Binding.execute_bindingLines hstem p.helpers, hlast, ?_, ?_⟩
  · rw [p.source_eq hstem, Program.layout, List.append_assoc]
  · intro hown c hc c' hc' hname
    have hsame := hown c hc
    rw [hname, hown c' hc'] at hsame
    exact (Option.some.inj hsame).symm
  · intro hkeys c hc
    obtain ⟨c', hc', hname, hkey⟩ := hlast c hc
    rw [hkey, hkeys c' hc' c hc hname]

/-- Calls of two converters under different names and of what stands for a
missing argument. -/
theorem helper_calls_reach_three :
    let calls : List HelperCall := [.apply (.interpolate (ascii "int")) [.ref 0], .missing,
      .apply (.interpolate (ascii "INT'32")) [.ref 1]]
    let made := calls.mapM HelperCall.perform { Draft.empty with helpers := [] }
    Options.standard.stem.isIdentifier = true ∧
      ∃ head names,
        made.2.program.source .standard = List.intercalate (ascii "\n")
          (made.2.program.tableLines .standard ++ head ++ made.2.program.body .standard) ∧
        Binding.execute (ascii "_bolt") head = some names ∧
        ∀ c ∈ calls, names (c.helper.localName (ascii "_bolt")) = some c.helper.key := by
  intro calls made
  have hstem : Options.standard.stem.isIdentifier = true := by decide
  obtain ⟨-, -, head, names, hsource, hnames, -, hiff⟩ :=
    helper_calls_reach_iff hstem calls .empty
  exact ⟨hstem, head, names, hsource, hnames, hiff.2 (by decide)⟩

/-- **Converters that differ in a separator share a name.** The source of a
draft in which both were called is two bindings of that name, so the name
in the first call stands for the second converter. -/
theorem helper_calls_collide :
    let first : HelperCall := .apply (.interpolate (ascii "a-b")) [.ref 0]
    let second : HelperCall := .apply (.interpolate (ascii "a_b")) [.ref 1]
    let made := [first, second].mapM HelperCall.perform .empty
    let name := ascii "_bolt_helper_interpolate_a_b"
    made.2.program.source .standard =
        ascii "_bolt_helper_interpolate_a_b = _bolt_runtime.helpers['interpolate_a-b']\n" ++
          ascii "_bolt_helper_interpolate_a_b = _bolt_runtime.helpers['interpolate_a_b']" ∧
      first.helper.key = ascii "interpolate_a-b" ∧
      first.expr.render (ascii "_bolt") = name ++ ascii "(_bolt_refs[0])" ∧
      second.expr.render (ascii "_bolt") = name ++ ascii "(_bolt_refs[1])" ∧
      (Binding.execute (ascii "_bolt") (Text.lines (made.2.program.source .standard))).map
        (· name) = some (some (ascii "interpolate_a_b")) := by
  decide +kernel

end ScriptSplice
