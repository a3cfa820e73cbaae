import ScriptSplice.Proofs.Rules.Keeping
import ScriptSplice.Proofs.Rules.Simulation
/-!
# Rebuilding is executed as reconstruction

The lines that compiling a node writes compute the reconstructed node. An
interpolation calls its converter. For other nodes this is by induction
over the tree: fields whose nodes stay as they are are not named, and the
others are overridden by what the lines before computed for them.
-/

namespace ScriptSplice

open Compile

variable {o : Options} {parsers : Parsers} {R : Runtime} {helpers : List Helper} {w : Nat}
  {d d' : Draft} {n : Node}

namespace Compiler

/-- Compiling a node does what is said of it, from any draft. -/
def Rebuilds (o : Options) (parsers : Parsers) (R : Runtime) (helpers : List Helper) (w : Nat)
    (n : Node) : Prop :=
  ∀ d r d', exec ((builtin o parsers).part n).run d = (.ok r, d') →
    Rebuilt R helpers w (some n) d r d'

/-- Compiling a node is what the handler of its form does, behind a note. -/
theorem exec_part (o : Options) (parsers : Parsers) (n : Node) (d : Draft) : ∃ events,
    exec ((builtin o parsers).part n).run d =
      exec (n.form.handler parsers n (Fields.map (builtin o parsers).part n.fields))
        { d with events } := by
  obtain ⟨name, hrun⟩ := run_builtin o parsers n
  rw [hrun]
  exact ⟨_, exec_bind_of_ok (exec_lift _ _)⟩

theorem line?_eq_none {l : Location} (h : l.isUnknown = true) : l.line? = none := by
  rw [Location.line?, h]
  rfl

/-- The name in an interpolation is put in brackets, and nothing is
written for it. -/
theorem exec_operand (o : Options) (parsers : Parsers) {value : Node}
    (hvalue : n.child? (ascii "value") = some value) (hkind : value.kind = .identifier)
    (hlocation : value.location.isUnknown = true) (d : Draft) :
    ∃ events, exec (Handler.operand (Fields.map (builtin o parsers).part n.fields) "value") d =
      (.ok (.bracketed none (.verbatim (value.text (ascii "value")))), { d with events }) := by
  obtain ⟨events, hrun⟩ := exec_part o parsers value d
  rw [Node.form_identifier hkind, Form.handler, Handler.identifier, Handler.bracket,
    line?_eq_none hlocation, exec_pure] at hrun
  refine ⟨events, ?_⟩
  have hchild : Fields.child? n.fields (ascii "value") = some value := hvalue
  have hsingle : exec (single? ((builtin o parsers).part value)) d =
      (.ok (some (.bracketed none (.verbatim (value.text (ascii "value"))))), { d with events }) :=
    exec_bind_of_ok hrun
  rw [Handler.operand, Fields.child?_map, hchild]
  exact exec_bind_of_ok hsingle

/-- **An interpolation** is computed by its converter. -/
theorem rebuilds_interpolation (hstem : R.stem.isName = true) {value : Node}
    (hkind : n.kind = .interpolation) (hlocation : n.location.isUnknown = true)
    (hnormal : Text.normalize (n.text (ascii "converter")) = n.text (ascii "converter"))
    (hne : n.text (ascii "converter") ≠ [])
    (hvalue : n.child? (ascii "value") = some value) (hvalueKind : value.kind = .identifier)
    (hvalueLocation : value.location.isUnknown = true)
    (hname : (value.text (ascii "value")).isName = true) :
    Rebuilds o parsers R helpers w n := by
  intro d r d' h
  obtain ⟨events, hrun⟩ := exec_part o parsers n d
  obtain ⟨events', hoperand⟩ := exec_operand o parsers hvalue hvalueKind hvalueLocation
    { d with events }
  rw [hrun, Node.form_interpolation hkind, Form.handler, Handler.interpolation,
    exec_bind_of_ok hoperand] at h
  simp only [exec_bind, exec_lift, Drafting.ref_apply, Drafting.apply_apply, Handler.bracket,
    line?_eq_none hlocation, exec_pure, Prod.mk.injEq, Except.ok.injEq] at h
  obtain ⟨rfl, rfl⟩ := h
  have hinterpolated : n.interpolated = value.text (ascii "value") := by
    rw [Node.interpolated, hvalue]
    rfl
  refine .changed ?_
  rw [Option.map_some, Node.reconstruct_interpolation _ hkind, hinterpolated]
  have href : Computes R helpers w d (Drafting.ref (some n) { d with events := events' }).2
      [(.ref d.refs.length, .node (some n))] :=
    (Computes.refl d events').trans (.ref hstem (some n) _)
  refine href.use (Helper.plain_interpolate hnormal hne) fun hmem k σ hσ hitems => ?_
  have hdenotes := hitems _ (List.mem_singleton_self _)
  exact List.forall_mem_singleton.2 (.bracketed (.interpolate hstem hσ hmem hname hdenotes))

end Compiler

/-! ## Fields -/

/-- What becomes of a field. -/
inductive Updated (R : Runtime) (helpers : List Helper) (w : Nat) (f : Field Node) (d : Draft) :
    Option (Text × Expr) → Draft → Prop
  | same (events : List Event) :
    f.value.map (Node.reconstruct R.convert) = f.value →
      Updated R helpers w f d none { d with events }
  | changed {e : Expr} {v : Datum} {d' : Draft} :
    v.field? = some (f.value.map (Node.reconstruct R.convert)) →
    Computes R helpers w d d' [(e, v)] → Updated R helpers w f d (some (f.name, e)) d'

namespace Compiler

/-- A single child stays as it is, or is what its one fragment computes. -/
theorem rebuilt_single? (h : Rebuilds o parsers R helpers w n) {r : Option Expr}
    (hrun : exec (single? ((builtin o parsers).part n)) d = (.ok r, d')) :
    Rebuilt R helpers w (some n) d (r.map ([·])) d' := by
  obtain ⟨r₁, d₁, hpart, hrest⟩ := exec_bind_eq_ok hrun
  have hr := h d r₁ d₁ hpart
  cases hr with
  | same events hsame =>
    cases hrest
    exact .same events hsame
  | changed hcomputes =>
    cases hrest
    exact .changed hcomputes

theorem rebuilt_operand? {m : Option Node} (h : ∀ n ∈ m, Rebuilds o parsers R helpers w n)
    {r : Option Expr} (hrun : exec (operand? (m.map (builtin o parsers).part)) d = (.ok r, d')) :
    Rebuilt R helpers w m d (r.map ([·])) d' := by
  cases m with
  | none =>
    cases hrun
    exact .same d.events rfl
  | some n => exact rebuilt_single? (h n rfl) hrun

theorem rebuilt_runChild {m : Option Node} (h : ∀ n ∈ m, Rebuilds o parsers R helpers w n)
    {r : Compile.Result} (hrun : exec (runChild (m.map (builtin o parsers).part)) d = (.ok r, d')) :
    Rebuilt R helpers w m d r d' := by
  cases m with
  | none =>
    cases hrun
    exact .same d.events rfl
  | some n => exact h n rfl d r d' hrun

/-- A sequence of children stays as it is, or the lines compute the new
one. -/
theorem computes_children (hstem : R.stem.isName = true) (hw : 0 < w) {collection : Collection}
    (hcollection : collection ≠ .command) {ms : List (Option Node)}
    (h : ∀ m, some m ∈ ms → Rebuilds o parsers R helpers w m) {e : Expr}
    (hrun : exec (splice collection (ms.map (·.map (builtin o parsers).part))) d =
      (.ok (some e), d')) :
    Computes R helpers w d d' [(e, .sequence (ms.map (·.map (Node.reconstruct R.convert))))] := by
  have hkeeps : ∀ p, some p ∈ ms.map (·.map (builtin o parsers).part) →
      Keeps Draft.Appends p.run := by
    intro p hp
    obtain ⟨m, -, hm⟩ := List.mem_map.1 hp
    obtain ⟨n, -, rfl⟩ := Option.map_eq_some_iff.1 hm
    exact keeps_part Draft.Appends.frame (rulesKeep_builtin _ o parsers) n
  have hnode : ∀ m : Option Node, (m.map (builtin o parsers).part).map (·.node) = m := by
    intro m
    cases m <;> simp
  have hchildren : ∀ p ∈ ms.map (·.map (builtin o parsers).part), ∀ d r d',
      exec (runChild p) d = (.ok r, d') → Rebuilt R helpers w (p.map (·.node)) d r d' := by
    intro p hp d r d' hchild
    obtain ⟨m, hm, rfl⟩ := List.mem_map.1 hp
    rw [hnode]
    exact rebuilt_runChild (fun n hn => h n (hn ▸ hm)) hchild
  have hcomputes := computes_splice hstem hw hcollection hkeeps hchildren hrun
  simpa only [List.map_map, Function.comp_def, hnode] using hcomputes

/-- **A field** keeps its value, or the lines compute its new one. -/
theorem updated_changedField (hstem : R.stem.isName = true) (hw : 0 < w) {collection : Collection}
    (hcollection : collection ≠ .command) {f : Field Node}
    (h : ∀ m ∈ f.value.nodes, Rebuilds o parsers R helpers w m) {r : Option (Text × Expr)}
    (hrun : exec (changedField collection (f.map (builtin o parsers).part)) d = (.ok r, d')) :
    Updated R helpers w f d r d' := by
  obtain ⟨name, value⟩ := f
  cases value with
  | leaf l =>
    cases hrun
    exact .same d.events rfl
  | child m =>
    obtain ⟨r₁, d₁, hoperand, hrest⟩ := exec_bind_eq_ok hrun
    cases hrest
    have hm : ∀ n ∈ m, Rebuilds o parsers R helpers w n :=
      fun n hn => h n (by simpa [Value.nodes] using hn)
    have hr := rebuilt_operand? hm hoperand
    cases r₁ with
    | none =>
      cases hr with
      | same events hsame => exact .same events (congrArg Value.child hsame)
    | some e =>
      cases hr with
      | changed hcomputes => exact .changed (v := .node _) rfl hcomputes
  | children ms =>
    obtain ⟨r₁, d₁, hsplice, hrest⟩ := exec_bind_eq_ok hrun
    cases hrest
    cases r₁ with
    | none =>
      -- all children stay as they are, so there is nothing in them to reconstruct
      have hstatic := (yields_children collection
        (fun m _ => gives_part o parsers m) d _ _ hsplice).1 rfl
      obtain ⟨events, hsilent⟩ := silent_children collection
        (fun m hm => silent_part o parsers (hstatic m hm)) d
      rw [hsplice, Prod.mk.injEq] at hsilent
      obtain ⟨-, rfl⟩ := hsilent
      refine .same events (Node.map_value_eq fun m hm => ?_)
      exact Node.reconstruct_eq_self _ (hstatic m (by simpa [Value.nodes] using hm))
    | some e =>
      refine .changed (v := .sequence _) rfl (computes_children hstem hw hcollection ?_ hsplice)
      exact fun m hm => h m (by simpa [Value.nodes] using hm)

/-! ## Nodes -/

/-- **All fields, one after the other.** Those that change are named, in
order, with what the lines compute for them. -/
theorem computes_mapM (hstem : R.stem.isName = true) (hw : 0 < w) {collection : Collection}
    (hcollection : collection ≠ .command) {fields : List (Field Node)}
    (h : ∀ f ∈ fields, ∀ m ∈ f.value.nodes, Rebuilds o parsers R helpers w m)
    {rs : List (Option (Text × Expr))}
    (hrun : exec (fields.mapM fun f =>
      changedField collection (f.map (builtin o parsers).part)) d = (.ok rs, d')) :
    ∃ cs : List (Field Node × Expr × Datum),
      rs.filterMap id = cs.map (fun c => (c.1.name, c.2.1)) ∧
      (cs.map (·.1)).Sublist fields ∧
      (∀ f ∈ fields, f ∈ cs.map (·.1) ∨ f.value.map (Node.reconstruct R.convert) = f.value) ∧
      (∀ c ∈ cs, c.2.2.field? = some (c.1.value.map (Node.reconstruct R.convert))) ∧
      Computes R helpers w d d' (cs.map (·.2)) := by
  induction fields generalizing d rs with
  | nil =>
    cases hrun
    exact ⟨[], rfl, .slnil, by simp, by simp, .refl _ _⟩
  | cons f fields ih =>
    rw [List.mapM_cons] at hrun
    obtain ⟨r, d₁, hfield, hrun⟩ := exec_bind_eq_ok hrun
    obtain ⟨rs, d₂, hfields, hrest⟩ := exec_bind_eq_ok hrun
    cases hrest
    rw [List.forall_mem_cons] at h
    obtain ⟨cs, hnames, hsublist, hsame, hvalues, hcomputes⟩ := ih h.2 hfields
    have hupdated := updated_changedField hstem hw hcollection h.1 hfield
    cases hupdated with
    | same events hf =>
      refine ⟨cs, by simpa using hnames, hsublist.cons f, ?_, hvalues,
        (Computes.refl d events).trans hcomputes⟩
      exact List.forall_mem_cons.2 ⟨Or.inr hf, hsame⟩
    | @changed e v _ hf hcomputes₁ =>
      refine ⟨(f, e, v) :: cs, by simpa using hnames, hsublist.cons_cons f, ?_,
        List.forall_mem_cons.2 ⟨hf, hvalues⟩, hcomputes₁.trans hcomputes⟩
      refine List.forall_mem_cons.2 ⟨Or.inl List.mem_cons_self, fun g hg => ?_⟩
      exact (hsame g hg).imp_left (List.mem_cons_of_mem _)

private theorem mapM_eq_some {α β : Type} {f : α → Option β} {g : α → β} {l : List α}
    (h : ∀ a ∈ l, f a = some (g a)) : l.mapM f = some (l.map g) := by
  induction l with
  | nil => rfl
  | cons a l ih =>
    rw [List.forall_mem_cons] at h
    rw [List.mapM_cons, h.1, ih h.2]
    rfl

/-- **A rebuilt node** is the node with its fields rebuilt. -/
theorem computes_rebuild (hstem : R.stem.isName = true) (hw : 0 < w) {collection : Collection}
    (hcollection : collection ≠ .command) (hnodup : (n.fields.map (·.name)).Nodup)
    (hnames : ∀ f ∈ n.fields, f.name.isName = true)
    (h : ∀ m ∈ n.parts, Rebuilds o parsers R helpers w m) {e : Expr}
    (hrun : exec (Compile.rebuild collection n (Fields.map (builtin o parsers).part n.fields)) d =
      (.ok (some e), d')) :
    Computes R helpers w d d' [(e, .node (some { n with
      fields := Fields.map (Node.reconstruct R.convert) n.fields }))] := by
  obtain ⟨rs, d₁, hfields, hrest⟩ := exec_bind_eq_ok hrun
  rw [Fields.map, List.mapM_map] at hfields
  obtain ⟨cs, hchanges, hsublist, hsame, hvalues, hcomputes⟩ :=
    computes_mapM hstem hw hcollection (fun f hf m hm => h m (Fields.mem_nodes hf hm)) hfields
  -- something changed, so the node is referred to and its fields replaced
  have hreplace : exec
      (do return some (← Drafting.replace (← Drafting.ref (some n)) (rs.filterMap id))) d₁ =
        (.ok (some e), d') := by
    cases hc : rs.filterMap id with
    | nil =>
      rw [hc] at hrest
      cases hrest
    | cons c changed =>
      rw [hc] at hrest
      exact hrest
  rw [hchanges] at hreplace
  cases hreplace
  refine (hcomputes.trans (.ref hstem (some n) d₁)).use Helper.plain_replace
    fun hmem k σ hσ hitems => List.forall_mem_singleton.2 ?_
  rw [List.forall_mem_append, List.forall_mem_map, List.forall_mem_singleton] at hitems
  obtain ⟨hdenotes, href⟩ := hitems
  have harguments : ∀ c ∈ cs.map fun c => (c.1.name, c.2),
      c.1.isName = true ∧ R.Denotes d₁.fresh σ c.2.1 c.2.2 := by
    refine List.forall_mem_map.2 fun c hc => ⟨hnames c.1 ?_, hdenotes c hc⟩
    exact hsublist.subset (List.mem_map_of_mem hc)
  have hfields : (cs.map fun c => (c.1.name, c.2)).mapM
      (fun c => c.2.2.field?.map fun v => (c.1, v)) =
        some ((cs.map (·.1)).map fun f => (f.name, f.value.map (Node.reconstruct R.convert))) := by
    rw [List.mapM_map, List.map_map]
    exact mapM_eq_some fun c hc => by rw [Function.comp_apply, hvalues c hc]; rfl
  have hdenoted := Runtime.Denotes.replace hstem hσ hmem href harguments hfields
    (Node.override_changed hnodup hsublist hsame)
  rw [List.map_map] at hdenoted ⊢
  exact hdenoted

/-- **Every reconstructible tree is rebuilt.** -/
theorem rebuilds (hstem : R.stem.isName = true) (hw : 0 < w) (hn : n.Reconstructible) :
    Rebuilds o parsers R helpers w n := by
  induction hn with
  | interpolation hkind hlocation hnormal hne hvalue hvalueKind hvalueLocation hname =>
    exact rebuilds_interpolation hstem hkind hlocation hnormal hne hvalue hvalueKind hvalueLocation
      hname
  | @plain n hdynamic hnodup hnames hparts ih =>
    intro d r d' h
    -- nothing or one fragment, since the node is not a statement
    have hgives := gives_part o parsers n d r d' h
    cases hgives with
    | nothing hstatic =>
      obtain ⟨events, hsilent⟩ := silent_part o parsers hstatic d
      rw [h, Prod.mk.injEq] at hsilent
      obtain ⟨-, rfl⟩ := hsilent
      exact .same events (congrArg some (Node.reconstruct_eq_self _ hstatic))
    | statement hstatement =>
      rw [(Node.Reconstructible.plain hdynamic hnodup hnames hparts).not_statement] at hstatement
      cases hstatement
    | fragment e _ _ =>
      obtain ⟨events, hrun⟩ := exec_part o parsers n d
      rw [n.isDynamic_eq] at hdynamic
      obtain ⟨collection, hcollection, hhandler⟩ := n.form.handler_of_not_dynamic hdynamic
      rw [hrun, hhandler] at h
      obtain ⟨r, d₁, hrebuild, hrest⟩ := exec_bind_eq_ok h
      rw [exec_pure, Prod.mk.injEq, Except.ok.injEq, Option.map_eq_some_iff] at hrest
      obtain ⟨⟨e', rfl, he⟩, rfl⟩ := hrest
      obtain rfl : e' = e := List.head_eq_of_cons_eq he
      have hkind := Node.kind_ne_of_not_dynamic (n.isDynamic_eq.trans hdynamic)
      refine .changed ((Computes.refl d events).trans ?_)
      rw [Option.map_some, Node.reconstruct_plain _ hkind]
      exact computes_rebuild hstem hw hcollection hnodup hnames ih hrebuild

end Compiler

end ScriptSplice
