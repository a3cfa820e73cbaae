import ScriptSplice.Program.Source
/-!
# Texts with places for the stem

A program knows the stem of its generated names only when it is written
out. Until then an expression, a statement or a binding is a template: fixed
text, with holes where the stem comes. Nothing written looks at the stem in
any other way, so each of these is the same template for every stem
(`Expr.isTemplate`, `Stmt.isTemplate`, `Program.isTemplate_bindingLine`).
-/

namespace ScriptSplice

/-- A piece of a template. -/
inductive Segment where
  /-- Text that is taken as it is. -/
  | fixed (t : Text)
  /-- The place of the stem. -/
  | hole

/-- What a piece becomes. -/
def Segment.fill (stem : Text) : Segment → Text
  | fixed t => t
  | hole => stem

/-- A text with places for the stem. -/
abbrev Template := List Segment

/-- **Filling a template**: each of its holes gets the stem. -/
def Template.fill (stem : Text) (t : Template) : Text := t.flatMap (Segment.fill stem)

namespace Template

variable (stem : Text)

@[simp] theorem fill_cons (s : Segment) (t : Template) :
    fill stem (s :: t) = s.fill stem ++ fill stem t := rfl

@[simp] theorem fill_append (t u : Template) :
    fill stem (t ++ u) = fill stem t ++ fill stem u := List.flatMap_append

end Template

/-- What is made from the stem is one template filled in. -/
def IsTemplate (f : Text → Text) : Prop := ∃ t : Template, ∀ stem, f stem = t.fill stem

namespace IsTemplate

variable {f g : Text → Text}

theorem fixed (t : Text) : IsTemplate fun _ => t :=
  ⟨[.fixed t], fun _ => (List.append_nil t).symm⟩

theorem stem : IsTemplate fun stem => stem := ⟨[.hole], fun stem => (List.append_nil stem).symm⟩

theorem append (hf : IsTemplate f) (hg : IsTemplate g) :
    IsTemplate fun stem => f stem ++ g stem := by
  obtain ⟨t, ht⟩ := hf
  obtain ⟨u, hu⟩ := hg
  refine ⟨t ++ u, fun stem => ?_⟩
  dsimp only
  rw [Template.fill_append, ht, hu]

/-- Something behind a text. -/
theorem behind (t : Text) (hf : IsTemplate f) : IsTemplate fun stem => t ++ f stem :=
  (fixed t).append hf

/-- Something before a text. -/
theorem before (hf : IsTemplate f) (t : Text) : IsTemplate fun stem => f stem ++ t :=
  hf.append (fixed t)

variable {ι : Type} {h : Text → ι → Text} {l : List ι}

theorem flatMap (hl : ∀ i ∈ l, IsTemplate fun stem => h stem i) :
    IsTemplate fun stem => l.flatMap (h stem) := by
  induction l with
  | nil => exact fixed []
  | cons i l ih =>
    rw [List.forall_mem_cons] at hl
    simp only [List.flatMap_cons]
    exact hl.1.append (ih hl.2)

theorem commaSeparated (hl : ∀ i ∈ l, IsTemplate fun stem => h stem i) :
    IsTemplate fun stem => Text.commaSeparated (l.map (h stem)) := by
  induction l with
  | nil => exact fixed []
  | cons i l ih =>
    rw [List.forall_mem_cons] at hl
    cases l with
    | nil =>
      simpa only [Text.commaSeparated, List.map_cons, List.map_nil, List.intercalate_singleton]
        using hl.1
    | cons j l =>
      simp only [Text.commaSeparated, List.map_cons, List.intercalate_cons_cons] at ih ⊢
      exact (hl.1.before _).append (ih hl.2)

/-! ## Generated names -/

theorem localName (helper : Helper) : IsTemplate fun stem => helper.localName stem :=
  (stem.before _).before _

theorem runtimeName : IsTemplate fun stem => ScriptSplice.runtimeName stem := stem.before _

theorem commandsName : IsTemplate fun stem => ScriptSplice.commandsName stem := runtimeName.before _

theorem refsName : IsTemplate fun stem => ScriptSplice.refsName stem := stem.before _

theorem variableName (n : Nat) : IsTemplate fun stem => ScriptSplice.variableName stem n :=
  (stem.before _).before _

end IsTemplate

/-! ## Expressions -/

namespace Expr

open IsTemplate

mutual

/-- **Expressions are templates.** -/
theorem isTemplate (e : Expr) : IsTemplate fun stem => e.render stem := by
  cases e with
  | verbatim t => exact fixed t
  | adjoin parts =>
    have hparts := flatMap (isTemplate_of_mem parts)
    simpa only [render, renderAll_eq, List.flatMap] using hparts
  | ref i => exact ((IsTemplate.refsName.before _).before _).before _
  | slice start stop =>
    exact ((((IsTemplate.refsName.before _).before _).before _).before _).before _
  | var n => exact IsTemplate.variableName n
  | missing => exact localName .missing
  | commands => exact IsTemplate.commandsName
  | apply h args =>
    simp only [render, renderAll_eq]
    exact (((localName h).before _).append (commaSeparated (isTemplate_of_mem args))).before _
  | keyword name value => exact (isTemplate value).behind _
  | bracketed line e => exact ((isTemplate e).behind _).before _
  | literal l => exact fixed l.literal
  | binary left operator right =>
    exact ((((isTemplate left).before _).before _).before _).append (isTemplate right)
  | unary operator operand => exact (isTemplate operand).behind _
  | format template values =>
    simp only [render, renderAll_eq]
    exact ((commaSeparated (isTemplate_of_mem values)).behind _).before _
  | tuple items =>
    have hitems := flatMap fun e he => (isTemplate_of_mem items e he).before (ascii ",")
    simp only [render, renderAll_eq, List.flatMap_map]
    exact (hitems.behind _).before _
  | list items =>
    simp only [render, renderAll_eq]
    exact ((commaSeparated (isTemplate_of_mem items)).behind _).before _
  | dict items =>
    simp only [render, renderAll_eq]
    exact ((commaSeparated (isTemplate_of_mem items)).behind _).before _
  | entry key value => exact ((isTemplate key).before _).append (isTemplate value)
  | lookup base args =>
    simp only [render, renderAll_eq]
    exact (((isTemplate base).before _).append (commaSeparated (isTemplate_of_mem args))).before _
  | call base args =>
    simp only [render, renderAll_eq]
    exact (((isTemplate base).before _).append (commaSeparated (isTemplate_of_mem args))).before _

/-- Each of some expressions is one. -/
theorem isTemplate_of_mem (es : List Expr) : ∀ e ∈ es, IsTemplate fun stem => e.render stem := by
  cases es with
  | nil => exact fun e he => absurd he List.not_mem_nil
  | cons e es => exact List.forall_mem_cons.2 ⟨isTemplate e, isTemplate_of_mem es⟩

end

end Expr

/-! ## Statements -/

namespace Stmt

open IsTemplate

theorem isTemplate_parameter (p : Text × Bool) : IsTemplate fun stem => parameter stem p := by
  obtain ⟨name, optional⟩ := p
  cases optional with
  | true => exact (localName .missing).behind _
  | false => exact fixed name

/-- **Statements are templates.** -/
theorem isTemplate (s : Stmt) : IsTemplate fun stem => s.render stem := by
  cases s with
  | verbatim t => exact fixed t
  | eval e => exact e.isTemplate
  | mark line => exact fixed (lineMark (some line))
  | bind name value => exact value.isTemplate.behind _
  | output n value => exact ((IsTemplate.variableName n).before _).append value.isTemplate
  | append e => exact ((IsTemplate.commandsName.before _).append e.isTemplate).before _
  | extend e => exact ((IsTemplate.commandsName.before _).append e.isTemplate).before _
  | extendBody body => exact ((IsTemplate.commandsName.before _).append body.isTemplate).before _
  | pass => exact fixed (ascii "pass")
  | control keyword operand =>
    cases operand with
    | none => exact fixed keyword
    | some e => exact e.isTemplate.behind _
  | branch keyword condition => exact (condition.isTemplate.behind _).before _
  | otherwise => exact fixed (ascii "else:")
  | loop target iterable =>
    exact (((target.isTemplate.behind _).before _).append iterable.isTemplate).before _
  | define name parameters =>
    exact ((commaSeparated fun p _ => isTemplate_parameter p).behind _).before _
  | default name => exact ((localName .missing).behind _).before _
  | scope n =>
    exact (((IsTemplate.runtimeName.behind _).before _).append (IsTemplate.variableName n)).before _
  | importNative path => exact fixed (ascii "import " ++ path)
  | importNativeAs path name => exact fixed (ascii "import " ++ path ++ ascii " as " ++ name)
  | fromNative path names =>
    exact fixed (ascii "from " ++ path ++ ascii " import " ++ Text.commaSeparated names)
  | bindModule name target => exact ((Expr.isTemplate _).behind _).before _
  | bindNames names target => exact (Expr.isTemplate _).behind _

end Stmt

/-! ## Lines of their own -/

/-- The binding of a helper. -/
theorem Program.isTemplate_bindingLine (h : Helper) :
    ∃ t : Template, ∀ o, bindingLine o h = t.fill o.stem := by
  obtain ⟨t, ht⟩ := ((((IsTemplate.localName h).before _).append IsTemplate.runtimeName).before
    (ascii ".helpers[")).before (Text.literal h.key) |>.before (ascii "]")
  exact ⟨t, fun o => ht o.stem⟩

end ScriptSplice
