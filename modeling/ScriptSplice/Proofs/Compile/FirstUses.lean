import Mathlib.Data.List.Forall2
import ScriptSplice.Proofs.Compile.HelperCalls
/-!
# First uses of helpers

While a program is built, helpers are called and other things are done to
the draft, in any order (`Drafting.Step`). The draft keeps a helper when it
is called for the first time, and nothing else changes what it keeps, so
the head of the program binds each key that was used, once and in the
order of first use (`bindings_of_first_uses`). For this the stem of the
names must not break a line or make a mark of it: with such a stem the
bindings are lost (`bindings_lost_in_marks`).
-/

namespace ScriptSplice

/-- Different helpers have different keys. -/
theorem Helper.key_injective : Function.Injective key := by
  intro g h heq
  cases g <;> cases h <;> simp_all [key, ascii]

/-! ## The order of first use -/

/-- **Keys in the order of their first use**, each of them once. -/
structure FirstUses (keys head : List Text) : Prop where
  mem : ∀ k, k ∈ head ↔ k ∈ keys
  order : head.Pairwise fun k k' => keys.idxOf k < keys.idxOf k'

namespace FirstUses

variable {keys head : List Text} {k : Text}

theorem nil : FirstUses [] [] := ⟨fun _ => Iff.rfl, .nil⟩

/-- Later uses leave the order as it is. -/
theorem order_append (h : FirstUses keys head) (more : List Text) :
    head.Pairwise fun k k' => (keys ++ more).idxOf k < (keys ++ more).idxOf k' := by
  refine h.order.imp_of_mem fun hk hk' hlt => ?_
  rwa [List.idxOf_append_of_mem ((h.mem _).1 hk), List.idxOf_append_of_mem ((h.mem _).1 hk')]

/-- A key that was used already is used again. -/
theorem again (h : FirstUses keys head) (hk : k ∈ head) : FirstUses (keys ++ [k]) head where
  mem k' := by
    rw [List.mem_append, List.mem_singleton, h.mem]
    exact ⟨.inl, fun hk' => hk'.elim id fun heq => heq ▸ (h.mem k).1 hk⟩
  order := h.order_append [k]

/-- A key is used for the first time. -/
theorem first (h : FirstUses keys head) (hk : k ∉ head) :
    FirstUses (keys ++ [k]) (head ++ [k]) where
  mem k' := by rw [List.mem_append, List.mem_append, h.mem]
  order := by
    refine List.pairwise_append.2 ⟨h.order_append [k], List.pairwise_singleton _ _, ?_⟩
    intro k' hk' k'' hk''
    have hnew : k ∉ keys := fun hmem => hk ((h.mem k).2 hmem)
    have hold := (h.mem k').1 hk'
    rw [List.mem_singleton.1 hk'', List.idxOf_append_of_mem hold, List.idxOf_append_of_notMem hnew]
    exact Nat.lt_of_lt_of_le (List.idxOf_lt_length_of_mem hold) (Nat.le_add_right _ _)

end FirstUses

/-! ## Steps -/

/-- **A step of building a program**: a call of a helper, or anything else
that is done to a draft. -/
inductive Drafting.Step where
  | call (c : HelperCall)
  | emit (s : Stmt)
  | mark (place : Location)
  | enter
  | leave (depth : Nat)
  | ref (n : Option Node)
  | slice (ns : List (Option Node))
  /-- The table of references is given away. -/
  | releaseRefs
  | freshVariable
  | takeFrom (i : Nat)
  | appendLines (lines : List Line)
  | indentFrom (i : Nat)
  | insertLine (i : Nat) (line : Line)
  | note (e : Event)

namespace Drafting.Step

/-- The call, if the step is one. -/
def call? : Step → Option HelperCall
  | call c => some c
  | _ => none

/-- An action that is no call. -/
def silently {α : Type} (act : Drafting α) : Drafting (Option Expr) := (fun _ => none) <$> act

/-- A step is done. It gives the expression of a call. -/
def perform : Step → Drafting (Option Expr)
  | call c => some <$> c.perform
  | emit s => silently (Drafting.emit s)
  | mark place => silently (Drafting.mark place)
  | enter => silently Drafting.enter
  | leave depth => silently (Drafting.leave depth)
  | ref n => silently (Drafting.ref n)
  | slice ns => silently (Drafting.slice ns)
  | releaseRefs => silently (modify fun d => { d with refs := [] })
  | freshVariable => silently Drafting.freshVariable
  | takeFrom i => silently (Drafting.takeFrom i)
  | appendLines lines => silently (Drafting.appendLines lines)
  | indentFrom i => silently (Drafting.indentFrom i)
  | insertLine i line => silently (Drafting.insertLine i line)
  | note e => silently (Drafting.note e)

/-- A step gives the expression of its call. -/
theorem fst_perform (s : Step) (d : Draft) : (s.perform d).1 = s.call?.map HelperCall.expr := by
  cases s with
  | call c => simp only [perform, map_apply, HelperCall.perform_apply, call?, Option.map_some]
  | _ => rfl

/-- **Only a call changes which helpers are in use.** -/
theorem helpers_perform (s : Step) (d : Draft) :
    (s.perform d).2.helpers =
      (s.call?.elim d fun c => (Drafting.use c.helper d).2).helpers := by
  cases s with
  | call c => simp only [perform, map_apply, HelperCall.perform_apply, call?, Option.elim_some]
  | mark place => simp only [perform, silently, map_apply, mark_apply, call?, Option.elim_none]
  | _ => rfl

/-- **One step** keeps the helpers in the order of their first use. -/
theorem firstUses_perform (s : Step) {keys : List Text} {d : Draft}
    (h : FirstUses keys (d.helpers.map Helper.key)) :
    FirstUses (keys ++ s.call?.toList.map fun c => c.helper.key)
      ((s.perform d).2.helpers.map Helper.key) := by
  rw [helpers_perform]
  cases s.call? with
  | none =>
    rw [Option.toList_none, List.map_nil, List.append_nil]
    exact h
  | some c =>
    rw [Option.toList_some, List.map_singleton, Option.elim_some, use_apply]
    have hmem := List.mem_map_of_injective Helper.key_injective (a := c.helper) (l := d.helpers)
    split
    · rename_i hused
      exact h.again (hmem.2 hused)
    · rename_i hnew
      rw [List.map_append]
      exact h.first (mt hmem.1 hnew)

/-- **All steps**, one after the other. -/
theorem mapM_perform (steps : List Step) {keys : List Text} {d : Draft}
    (h : FirstUses keys (d.helpers.map Helper.key)) :
    (steps.mapM perform d).1 = steps.map (fun s => s.call?.map HelperCall.expr) ∧
      FirstUses (keys ++ (steps.filterMap call?).map fun c => c.helper.key)
        ((steps.mapM perform d).2.helpers.map Helper.key) := by
  induction steps generalizing keys d with
  | nil => exact ⟨rfl, by simpa using h⟩
  | cons s steps ih =>
    obtain ⟨hexprs, hfirst⟩ := ih (s.firstUses_perform h)
    have hcalls : (s :: steps).filterMap call? = s.call?.toList ++ steps.filterMap call? := by
      simp only [List.filterMap_eq_flatMap_toList, List.flatMap_cons]
    simp only [List.mapM_cons, bind_apply, pure_apply]
    refine ⟨by rw [hexprs, fst_perform, List.map_cons], ?_⟩
    rw [hcalls, List.map_append, ← List.append_assoc]
    exact hfirst

end Drafting.Step

/-! ## The head -/

namespace Binding

/-- **A line that binds a name to a helper**: the key of the helper is in
it as a literal that is read as the key. -/
def Stands (stem line : Text) (b : Binding) : Prop :=
  ∃ literal, Text.readLiteral literal = some (b.key, []) ∧
    line = b.name ++ ascii " = " ++ runtimeName stem ++ ascii ".helpers[" ++ literal ++ ascii "]"

theorem stands_bindingLine (o : Options) (h : Helper) :
    Stands o.stem (Program.bindingLine o h) (ofHelper o.stem h) := by
  have hread := Text.readLiteral_literal h.key []
  rw [List.append_nil] at hread
  exact ⟨h.key.literal, hread, rfl⟩

theorem forall₂_bindingLines (o : Options) (helpers : List Helper) :
    List.Forall₂ (Stands o.stem) (helpers.map (Program.bindingLine o))
      (helpers.map (ofHelper o.stem)) := by
  rw [List.forall₂_map_left_iff, List.forall₂_map_right_iff, List.forall₂_same]
  exact fun h _ => stands_bindingLine o h

end Binding

/-- **One binding for each key, in the order of first use.** Let the stem
not break a line or make a mark of it, and let helpers be called, and
anything else be done, in a draft that uses no helper yet. The source is
the line table, if there is one, the head, and what stays of the lines of
the draft, line by line. The lines of the head bind the keys of the helpers
that were called: each key once, and those that were used earlier before
the others. The expression of a call begins with the name that is bound to
its key. -/
theorem bindings_of_first_uses {o : Options} (hstem : o.stem.Harmless)
    (steps : List Drafting.Step) (draft : Draft) :
    let made := steps.mapM Drafting.Step.perform { draft with helpers := [] }
    let p := made.2.program
    let calls := steps.filterMap Drafting.Step.call?
    let keys := calls.map fun c => c.helper.key
    ∃ (head : List Text) (bindings : List Binding),
      p.source o = List.intercalate (ascii "\n") (p.tableLines o ++ head ++ p.body o) ∧
      (∀ line ∈ p.tableLines o ++ head ++ p.body o, Byte.newline ∉ line) ∧
      List.Forall₂ (Binding.Stands o.stem) head bindings ∧
      (∀ key, key ∈ bindings.map Binding.key ↔ key ∈ keys) ∧
      (bindings.map Binding.key).Pairwise (fun k k' => keys.idxOf k < keys.idxOf k') ∧
      made.1 = steps.map (fun s => s.call?.map HelperCall.expr) ∧
      ∀ c ∈ calls, ∃ b ∈ bindings, b.key = c.helper.key ∧ ∃ t : Text,
        c.expr.render o.stem = b.name ++ t ∧ (t = [] ∨ ∃ u, t = ascii "(" ++ u ++ ascii ")") := by
  intro made p calls keys
  have hnil : FirstUses [] (({ draft with helpers := [] } : Draft).helpers.map Helper.key) := .nil
  obtain ⟨hexprs, hfirst⟩ := Drafting.Step.mapM_perform steps hnil
  have hkeys : (p.helpers.map (Binding.ofHelper o.stem)).map Binding.key =
      p.helpers.map Helper.key := by
    rw [List.map_map]
    rfl
  refine ⟨p.helpers.map (Program.bindingLine o), p.helpers.map (Binding.ofHelper o.stem), ?_, ?_,
    Binding.forall₂_bindingLines o p.helpers, ?_, ?_, hexprs, fun c hc => ?_⟩
  · rw [hstem.source_eq p, Program.layout, List.append_assoc]
  · rw [List.append_assoc]
    exact List.forall_mem_append.2
      ⟨hstem.newline_not_mem_tableLines p, hstem.newline_not_mem_layout p⟩
  · rw [hkeys]
    exact hfirst.mem
  · rw [hkeys]
    exact hfirst.order
  · have hkey : c.helper.key ∈ p.helpers.map Helper.key :=
      (hfirst.mem _).2 (List.mem_map_of_mem hc)
    obtain ⟨h, hh, heq⟩ := List.mem_map.1 hkey
    refine ⟨Binding.ofHelper o.stem h, List.mem_map_of_mem hh, heq, ?_⟩
    rw [Helper.key_injective heq]
    exact c.render_expr o.stem

/-- Two converters whose names differ only in a line break and a blank, one
of them called twice, with lines written and moved in between. -/
theorem bindings_of_first_uses_again :
    let x : HelperCall := .apply (.interpolate (ascii "a\nb")) [.ref 0]
    let y : HelperCall := .apply (.interpolate (ascii "a b")) [.ref 1]
    let steps : List Drafting.Step := [.call x, .emit (.verbatim (ascii "p\nq")), .call .missing,
      .indentFrom 0, .call y, .takeFrom 0, .call x, .releaseRefs, .emit .pass]
    let made := steps.mapM Drafting.Step.perform { Draft.empty with helpers := [] }
    Options.standard.stem.Harmless ∧
      ∃ (head : List Text) (bindings : List Binding),
        made.2.program.source .standard = List.intercalate (ascii "\n")
          (made.2.program.tableLines .standard ++ head ++ made.2.program.body .standard) ∧
        List.Forall₂ (Binding.Stands (ascii "_bolt")) head bindings ∧
        (∀ key, key ∈ bindings.map Binding.key ↔
          key ∈ [x.helper.key, ascii "missing", y.helper.key, x.helper.key]) ∧
        ∃ b ∈ bindings, b.key = ascii "interpolate_a\nb" ∧
          ∃ t : Text, x.expr.render (ascii "_bolt") = b.name ++ t := by
  intro x y steps made
  have hstem : Options.standard.stem.Harmless := ⟨by decide, by decide⟩
  obtain ⟨head, bindings, hsource, -, hhead, hkeys, -, -, hcalls⟩ :=
    bindings_of_first_uses hstem steps .empty
  obtain ⟨b, hb, hkey, t, ht, -⟩ := hcalls x (by simp [steps, Drafting.Step.call?])
  exact ⟨hstem, head, bindings, hsource, hhead, hkeys, b, hb, hkey, t, ht⟩

/-- **A stem that begins like a mark loses the bindings.** The source of a
draft in which a helper was called is nothing but a line table. -/
theorem bindings_lost_in_marks :
    let o : Options := { Options.standard with stem := ascii "#" }
    let made := [Drafting.Step.call .missing].mapM Drafting.Step.perform .empty
    made.1 = [some .missing] ∧ Expr.render o.stem .missing = ascii "#_helper_missing" ∧
      made.2.program.source o = ascii "#_lineno = [1, 1], [1, 0]" ∧
      ∀ line ∈ Text.lines (made.2.program.source o), ∀ b, ¬ Binding.Stands o.stem line b := by
  intro o made
  have hsource : made.2.program.source o = ascii "#_lineno = [1, 1], [1, 0]" := by decide +kernel
  refine ⟨rfl, by decide +kernel, hsource, ?_⟩
  rw [hsource]
  rintro line hline b ⟨literal, -, heq⟩
  -- there is no point in the line, and in a binding there is one
  have hmem : (0x2e : UInt8) ∈ line := by simp [heq, ascii]
  have hnot : ∀ l ∈ Text.lines (ascii "#_lineno = [1, 1], [1, 0]"), (0x2e : UInt8) ∉ l := by
    decide +kernel
  exact hnot line hline hmem

end ScriptSplice
