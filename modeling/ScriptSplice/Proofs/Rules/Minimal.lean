import Mathlib.Data.List.Forall2
import ScriptSplice.Proofs.Rules.Order
import ScriptSplice.Proofs.Rules.Tallies
/-!
# Nothing is rebuilt that need not be

A node that the generic rule or the rule for roots is invoked on becomes a
call that replaces exactly the fields with something in them that changes,
and if there are none it stays as it is (`Compiler.Reconstructs`). In a
sequence of such a node the children that stay are referred to as they are
(`Compiler.Sequenced`). By induction over the tree, compiling any node
tallies (`Compiler.tallied_part`), so a program replaces as many nodes as
there are invocations on nodes with something below them that changes
(`Compiler.minimal_reconstruction`).
-/

namespace ScriptSplice

open Compile

variable {c : Compiler} {n : Node}

/-! ## Generic nodes -/

namespace Node

theorem any_descendants (n : Node) : n.descendants.any isDynamic = n.parts.any hasDynamic := by
  rw [descendants, List.any_flatMap]
  rfl

/-- **Some field changes if something below the node does.** -/
theorem changedFields_eq_nil : n.changedFields = [] ↔ n.descendants.any isDynamic = false := by
  rw [any_descendants, parts, Fields.nodes, List.any_flatMap, changedFields,
    List.filter_eq_nil_iff, List.any_eq_false]

theorem isRebuilt_eq (n : Node) :
    n.isRebuilt = (!n.form.isDynamic && n.descendants.any isDynamic) := by
  rw [isRebuilt, n.isGeneric_eq, n.isDynamic_eq]

theorem isDynamic_of_isGeneric (h : n.isGeneric = true) : n.form.isDynamic = false := by
  rw [isGeneric_eq, n.isDynamic_eq] at h
  simpa using h

/-- The parts of a generic node are compiled, one after the other. -/
theorem ahead_append_inside (h : n.form.isDynamic = false) : n.ahead ++ n.inside = n.parts := by
  unfold ahead inside
  cases hform : n.form <;> simp [hform, Form.isDynamic] at h ⊢

/-- The rule for roots is for roots. -/
theorem rule_of_form_root (h : n.form = .root) : n.rule = ascii "root" := by
  obtain ⟨kind, fields, location⟩ := n
  by_cases hk : kind = .command
  · subst hk
    -- what is listed for a command is a statement
    obtain ⟨c, hc, -, hform⟩ | ⟨-, hform⟩ :=
      Form.ofCommand_cases (leaf? ⟨.command, fields, location⟩ Handler.identifierField)
    · have hstatement := Form.isStatement_of_mem hc
      rw [← hform, show Form.ofCommand _ = .root from h] at hstatement
      cases hstatement
    · cases hform.symm.trans h
  · cases kind <;> first | rfl | cases h | exact absurd rfl hk

/-- The generic rule is for generic nodes. -/
theorem form_of_rule_generic (h : n.rule = ascii "generic") : n.form = .generic := by
  have hgeneric : n.isGeneric = true := by
    rw [isGeneric, h]
    rfl
  have hform := isDynamic_of_isGeneric hgeneric
  cases hcase : n.form with
  | generic => rfl
  | root =>
    rw [rule_of_form_root hcase] at h
    exact absurd h (by decide)
  | _ => simp [hcase, Form.isDynamic] at hform

end Node

/-! ## Every invocation tallies -/

/-- **The tally of an invocation**: the choice of the rule, what is compiled
for it, and the replacement of its node, if that is rebuilt. -/
theorem Tally.invoke {table : List (Option Node)} {d d' d'' : Draft} {new : List Line}
    {fs gs : List Expr}
    (h : Tally table { d with events := d.events ++ [n.choice] } [] (n.ahead ++ n.inside) new fs
      d')
    (hrefs : d'.refs <+: d''.refs) (hchoices : d''.choices = d'.choices)
    (hmade : d''.refs <+: table → Expr.replacementsAll table gs =
      Expr.replacementsAll table fs + if n.isRebuilt then {n.replacement} else 0) :
    Tally table d [] [n] new gs d'' where
  refs := h.refs.trans hrefs
  choices := by
    have hchosen : { d with events := d.events ++ [n.choice] }.choices =
        d.choices ++ [n.choice] := List.filter_append ..
    rw [hchoices, h.choices, hchosen, Node.choicesAll_singleton, List.append_assoc]
    rfl
  replacements htable := by
    rw [hmade htable, ← add_assoc, h.replacements (hrefs.trans htable),
      Node.replacementsAll_singleton, Expr.replacementsAll_nil, zero_add, zero_add, add_comm]

namespace Compiler

variable (o : Options) (parsers : Parsers)

/-- **The equation of an invocation**: the record of the choice, and what
the handler does. -/
theorem run_invoked (n : Node) :
    ((builtin o parsers).part n).run = (do
      Drafting.note n.choice
      n.form.handler parsers n (Fields.map (builtin o parsers).part n.fields)) := by
  obtain ⟨r, hr, haction⟩ := Option.map_eq_some_iff.1 (resolve_builtinRules n)
  have hrule : n.rule = r.name := by
    rw [Node.rule, hr]
    rfl
  rw [run_part, Dispatcher.dispatch, Node.choice, hrule]
  simp only [dispatcher, pure_bind, builtin, hr, ← haction]

/-- What an invocation of a generic rule does, behind the record of the
choice. -/
theorem exec_invoked_generic {n : Node} (h : n.form.isDynamic = false) {d d' : Draft} {r : Result}
    (hrun : exec ((builtin o parsers).part n).run d = (.ok r, d')) :
    ∃ collection, (n.form = .generic → collection = .generic) ∧
      exec (Handler.rebuild collection parsers n (Fields.map (builtin o parsers).part n.fields))
        { d with events := d.events ++ [n.choice] } = (.ok r, d') := by
  rw [run_invoked, exec_bind_of_ok (exec_lift _ _)] at hrun
  cases hform : n.form with
  | generic =>
    rw [hform] at hrun
    exact ⟨.generic, fun _ => rfl, hrun⟩
  | root =>
    rw [hform] at hrun
    exact ⟨.rootCommand, nofun, hrun⟩
  | _ => simp [hform, Form.isDynamic] at h

/-- **Compiling a node tallies.** -/
theorem tallied_part (n : Node) : (builtin o parsers).Tallied n := by
  induction n using Node.induction_descendants with
  | step n ih =>
    refine ⟨fun table d r d' hrun => ?_,
      keeps_part Draft.Appends.frame (rulesKeep_builtin _ _ _) n⟩
    cases hform : n.form.isDynamic with
    | true =>
      have hrebuilt : n.isRebuilt = false := by simp [n.isRebuilt_eq, hform]
      rw [run_invoked, exec_bind_of_ok (exec_lift _ _)] at hrun
      obtain ⟨new, hlines, htally⟩ := Form.tallies parsers ih hform table _ r d' hrun
      refine ⟨new, hlines, htally.invoke (List.prefix_refl _) rfl fun _ => ?_⟩
      simp [hrebuilt]
    | false =>
      obtain ⟨collection, -, hrun⟩ := exec_invoked_generic o parsers hform hrun
      obtain ⟨changes, d₁, hchanges, hnames, hcases⟩ :=
        exec_rebuild parsers (fun m _ => gives_part o parsers m) hrun
      obtain ⟨new, hlines, htally⟩ := Handler.tallies_fields collection
        (fun m hm => ih m (Node.mem_descendants_of_mem_parts hm)) table _ changes d₁ hchanges
      rw [← Node.ahead_append_inside hform] at htally
      dsimp only at htally
      generalize changes.filterMap id = changed at hnames htally hcases
      have hrebuilt : n.isRebuilt = n.descendants.any Node.isDynamic := by
        simp [n.isRebuilt_eq, hform]
      rcases hcases with ⟨hnil, rfl, rfl⟩ | ⟨hne, rfl, rfl⟩
      · refine ⟨new, hlines, htally.invoke (List.prefix_refl _) rfl fun _ => ?_⟩
        obtain rfl : changed = [] := by simpa [hnil] using hnames
        simp [hrebuilt, Node.changedFields_eq_nil.1 hnil]
      · refine ⟨new, (Drafting.lines_use _ _).trans hlines, htally.invoke ?_ ?_ fun htable => ?_⟩
        · rw [Drafting.refs_use]
          exact List.prefix_append _ _
        · exact Drafting.choices_use _ _
        · have hdynamic : n.descendants.any Node.isDynamic = true :=
            Bool.eq_true_of_not_eq_false (mt Node.changedFields_eq_nil.2 hne)
          rw [Drafting.refs_use] at htable
          have hentry : table[d₁.refs.length]? = some (some n) := by
            obtain ⟨rest, rfl⟩ := htable
            simp
          rw [hrebuilt, hdynamic, if_pos rfl, Node.replacement, ← hnames,
            ← Expr.replacements_replace table hentry]
          exact add_zero _

/-! ## One node -/

/-- **What an invocation of the generic rule or the rule for roots does**
with a node, from one draft to another. -/
structure Reconstructs (c : Compiler) (n : Node) (d : Draft) (r : Result) (d' : Draft) :
    Prop where
  /-- If nothing below the node changes, it stays as it is, and nothing is
  written or referred to. -/
  same : n.descendants.any Node.isDynamic = false →
    r = none ∧ d' = { d with events := d'.events }
  /-- Otherwise all its fields are compiled, one after the other, and the
  node is referred to by a call that replaces those with something in them
  that changes, in their order. -/
  replaced : n.descendants.any Node.isDynamic = true → ∃ collection changes d₁,
    (n.rule = ascii "generic" → collection = .generic) ∧
    exec (List.mapM (changedField collection) (Fields.map c.part n.fields))
      { d with events := d.events ++ [n.choice] } = (.ok changes, d₁) ∧
    r = some [.apply .replace (.ref d₁.refs.length ::
      (changes.filterMap id).map fun f => .keyword f.1 f.2)] ∧
    (changes.filterMap id).map (·.1) = n.changedFields.map (·.name) ∧
    d'.refs = d₁.refs ++ [some n] ∧ d'.lines = d₁.lines
  /-- Besides that one call, the calls that replace fields are those of the
  invocations on its parts. -/
  replacements : ∀ table, d'.refs <+: table →
    Line.replacements table (d'.lines.drop d.size) + Expr.replacementsAll table (r.getD []) =
      (if n.descendants.any Node.isDynamic then {n.replacement} else 0) +
        Node.replacementsAll n.parts

/-- **Every node is reconstructed minimally.** -/
theorem reconstructs_part {n : Node} (hgeneric : n.isGeneric = true) {d d' : Draft} {r : Result}
    (hrun : exec ((builtin o parsers).part n).run d = (.ok r, d')) :
    (builtin o parsers).Reconstructs n d r d' := by
  have hform := Node.isDynamic_of_isGeneric hgeneric
  obtain ⟨collection, hcollection, hrebuild⟩ := exec_invoked_generic o parsers hform hrun
  obtain ⟨changes, d₁, hchanges, hnames, hcases⟩ :=
    exec_rebuild parsers (fun m _ => gives_part o parsers m) hrebuild
  refine ⟨fun hstatic => ?_, fun hdynamic => ?_, fun table htable => ?_⟩
  · have hnone : n.hasDynamic = false := by
      rw [Node.hasDynamic_eq, ← Node.any_descendants, hstatic, n.isDynamic_eq, hform]
      rfl
    obtain ⟨events, hsilent⟩ := silent_part o parsers hnone d
    rw [hrun, Prod.mk.injEq, Except.ok.injEq] at hsilent
    exact ⟨hsilent.1, by rw [hsilent.2]⟩
  · rcases hcases with ⟨hnil, -, -⟩ | ⟨-, rfl, rfl⟩
    · rw [Node.changedFields_eq_nil.1 hnil] at hdynamic
      cases hdynamic
    · exact ⟨collection, changes, d₁, fun h => hcollection (Node.form_of_rule_generic h), hchanges,
        rfl, hnames, Drafting.refs_use _ _, Drafting.lines_use _ _⟩
  · obtain ⟨new, hlines, htally⟩ := (tallied_part o parsers n).tallies table d r d' hrun
    have hmade := htally.replacements htable
    rw [Node.replacementsAll_singleton, Node.ahead_append_inside hform, Node.isRebuilt, hgeneric,
      Bool.true_and, Expr.replacementsAll_nil, zero_add] at hmade
    rw [hlines, Draft.size, List.drop_left]
    exact hmade

end Compiler

/-! ## Sequences -/

namespace Compile

/-- The nodes that were referred to while a child was compiled. -/
def Visit.gained (v : Visit) : List (Option Node) := v.after.refs.drop v.before.refs.length

theorem Visit.refs_append (v : Visit) (h : v.before.Appends v.after) :
    v.after.refs = v.before.refs ++ v.gained := by
  obtain ⟨added, hadded⟩ := h.refs
  rw [gained, ← hadded, List.drop_left]

/-- **What stands for a child** in a sequence that is an expression: a
reference to it, if it stays as it is, and otherwise its fragments. -/
inductive Item (table : List (Option Node)) (child : Option Node) : Result → List Expr → Prop
  | itself (i : Nat) : table[i]? = some child → Item table child none [.ref i]
  | fragments (es : List Expr) : Item table child (some es) es

/-- The lines of a sequence that is an expression are those of its
children. -/
theorem allLines_pieces_generic (depth : Nat) (run : List (Option Node)) (since : List Line)
    (k : Nat) (vs : List Visit) :
    Piece.allLines depth (pieces .generic run since k vs) = since ++ vs.flatMap Visit.lines := by
  induction vs generalizing run since k with
  | nil => simp [pieces, Piece.lines, Collection.ofRun]
  | cons v vs ih =>
    unfold pieces
    cases v.result with
    | none => simp [ih]
    | some es =>
      simp [ih, Splice.contribution, Piece.lines, Collection.ofRun, Collection.ofFragments]

theorem flatten_singletons (es : List Expr) : (es.map ([·])).flatten = es := by
  rw [← List.flatMap_def, List.flatMap_singleton']

/-- The references to a run stand for its children, one by one. -/
theorem items_refsFrom {before run table : List (Option Node)} (h : before ++ run <+: table) :
    List.Forall₂ (fun child es => Item table child none es) run
      ((refsFrom before.length run.length).map ([·])) := by
  induction run generalizing before with
  | nil => exact .nil
  | cons child run ih =>
    have hrest : (before ++ [child]) ++ run <+: table := by simpa using h
    have hitems := ih hrest
    rw [List.length_append, List.length_singleton] at hitems
    rw [refsFrom, List.length_cons, List.range'_succ, List.map_cons, List.map_cons]
    refine .cons (.itself before.length ?_) hitems
    obtain ⟨rest, rfl⟩ := h
    simp

namespace Splice.Loop

variable {collection : Collection} {count : Nat} {children : List (Option Part × Nat)}
  {vs : List Visit} {base since : List Line} {ps : List Piece} {s s' : Splice} {d d' : Draft}
  (hkeeps : ∀ c ∈ children, ∀ p, c.1 = some p → Keeps Draft.Appends p.run)

include hkeeps

/-- **The items of the sequence** stand for the children that are pending,
and then for every child, in order. -/
theorem items (h : Loop .generic count s d children vs s' d')
    (hs : s.Sound .generic base d ps since) {table : List (Option Node)}
    (htable : d'.refs ++ s'.pending <+: table) :
    ∃ items, Piece.items (pieces .generic s.pending since d.refs.length vs) = items.flatten ∧
      List.Forall₂ (fun p es => Item table p.1 p.2 es)
        (s.pending.map (·, none) ++ vs.map fun v => (v.node, v.result)) items := by
  induction h generalizing ps since with
  | @nil s d =>
    refine ⟨(refsFrom d.refs.length s.pending.length).map ([·]), ?_, ?_⟩
    · simp [pieces, Collection.ofRun, flatten_singletons]
    · simpa using items_refsFrom htable
  | static hrun _ ih =>
    have hvisit := hs.visit (appends_child (hkeeps _ List.mem_cons_self) hrun)
    obtain ⟨items, hitems, hstand⟩ := ih (fun c hc => hkeeps c (List.mem_cons_of_mem _ hc))
      ⟨hvisit.lines, hvisit.place, hvisit.collector⟩ htable
    exact ⟨items, hitems, by simpa using hstand⟩
  | @dynamic s s₂ s' d d₁ d₂ d' child i children vs es hrun hstep hloop ih =>
    have happends := appends_child (hkeeps _ List.mem_cons_self) hrun
    have hkeeps' := fun c hc => hkeeps c (List.mem_cons_of_mem _ hc)
    obtain ⟨hpending, ⟨events, hd₂⟩, hs₂⟩ := step_dynamic (hs.visit happends) hrun hstep
    obtain ⟨-, -, -, -, hgrow, -⟩ := hloop.sound hkeeps' hs₂
    have hrefs₂ : d₂.refs = d₁.refs ++ s.pending := by rw [hd₂]
    -- the table only grows from here, so the run stays where it was put
    have hrun' : d₁.refs ++ s.pending <+: table :=
      hrefs₂ ▸ hgrow.trans ((List.prefix_append _ _).trans htable)
    obtain ⟨items, hitems, hstand⟩ := ih hkeeps' hs₂ htable
    rw [hpending, hrefs₂, List.length_append] at hitems
    rw [hpending, List.map_nil, List.nil_append] at hstand
    refine ⟨(refsFrom d₁.refs.length s.pending.length).map ([·]) ++ es :: items, ?_, ?_⟩
    · simp [pieces, contribution, hitems, Collection.ofRun, Collection.ofFragments,
        flatten_singletons]
    · rw [List.map_cons]
      refine List.rel_append ?_ (.cons (.fragments es) hstand)
      exact List.forall₂_map_left_iff.2 (items_refsFrom hrun')

/-- **The table of the sequence** has in addition the children that stay as
they are, and what was referred to while the children were compiled. -/
theorem table_eq (h : Loop collection count s d children vs s' d')
    (hs : s.Sound collection base d ps since) :
    (d'.refs : Multiset (Option Node)) + s'.pending = d.refs + s.pending +
      ((vs.filter Visit.isStatic).map (·.node) : List (Option Node)) +
        (vs.flatMap Visit.gained : List (Option Node)) := by
  induction h generalizing ps since with
  | nil => simp
  | @static s s' d d₁ d' child i children vs hrun _ ih =>
    have happends := appends_child (hkeeps _ List.mem_cons_self) hrun
    have hvisit := hs.visit happends
    have hrest := ih (fun c hc => hkeeps c (List.mem_cons_of_mem _ hc))
      ⟨hvisit.lines, hvisit.place, hvisit.collector⟩
    have hrefs : d₁.refs = d.refs ++ Visit.gained ⟨child.map (·.node), d, d₁, none⟩ :=
      Visit.refs_append ⟨child.map (·.node), d, d₁, none⟩ happends
    have hcons (r : Option Node) (rs : List (Option Node)) :
        ((r :: rs : List (Option Node)) : Multiset (Option Node)) = {r} + rs := by
      rw [← Multiset.cons_coe, Multiset.singleton_add]
    rw [hrest, hrefs, List.filter_cons_of_pos rfl, List.map_cons, List.flatMap_cons]
    simp only [← Multiset.coe_add, hcons, Multiset.coe_nil, add_zero]
    ac_rfl
  | @dynamic s s₂ s' d d₁ d₂ d' child i children vs es hrun hstep hloop ih =>
    have happends := appends_child (hkeeps _ List.mem_cons_self) hrun
    obtain ⟨hpending, ⟨events, hd₂⟩, hs₂⟩ := step_dynamic (hs.visit happends) hrun hstep
    have hrest := ih (fun c hc => hkeeps c (List.mem_cons_of_mem _ hc)) hs₂
    have hrefs₂ : d₂.refs = d₁.refs ++ s.pending := by rw [hd₂]
    have hrefs : d₁.refs = d.refs ++ Visit.gained ⟨child.map (·.node), d, d₁, some es⟩ :=
      Visit.refs_append ⟨child.map (·.node), d, d₁, some es⟩ happends
    rw [hrest, hrefs₂, hpending, hrefs, List.filter_cons_of_neg (by simp [Visit.isStatic]),
      List.flatMap_cons]
    simp only [← Multiset.coe_add, Multiset.coe_nil, add_zero]
    ac_rfl

end Splice.Loop

end Compile

namespace Compiler

variable (o : Options) (parsers : Parsers)

/-- **A sequence of children that becomes an expression**, from one draft to
another: what was done with each child in turn, and what stands for it
among the items. -/
structure Sequenced (c : Compiler) (children : List (Option Node)) (d : Draft) (vs : List Visit)
    (items : List (List Expr)) (d' : Draft) : Prop where
  /-- Every child is compiled, in its turn. -/
  nodes : vs.map (·.node) = children
  visited : ∀ v ∈ vs, exec (runChild (v.node.map c.part)) v.before = (.ok v.result, v.after)
  /-- A child stays if nothing in it changes, and then nothing is written
  and no node referred to while it is compiled. -/
  static : ∀ v ∈ vs, v.isStatic = true ↔ ∀ n ∈ v.node, n.hasDynamic = false
  silent : ∀ v ∈ vs, v.isStatic = true → v.after = { v.before with events := v.after.events }
  /-- A reference stands for a child that stays, and its fragments for any
  other. -/
  items : List.Forall₂ (fun v es => Item d'.refs v.node v.result es) vs items
  lines : d'.lines = d.lines ++ vs.flatMap Visit.lines
  /-- Besides the children that stay, no node is referred to but by the
  compilation of the others. -/
  table : d'.refs.Perm
    (d.refs ++ (vs.filter Visit.isStatic).map (·.node) ++ vs.flatMap Visit.gained)

/-- A child is visited without a trace if nothing in it changes. -/
theorem static_visit {v : Visit}
    (hrun : exec (runChild (v.node.map (builtin o parsers).part)) v.before =
      (.ok v.result, v.after)) :
    (v.isStatic = true ↔ ∀ n ∈ v.node, n.hasDynamic = false) ∧
      (v.isStatic = true → v.after = { v.before with events := v.after.events }) := by
  obtain ⟨node, before, after, result⟩ := v
  cases node with
  | none =>
    cases hrun
    exact ⟨by simp [Visit.isStatic], fun _ => rfl⟩
  | some n =>
    have hgives := gives_part o parsers n before result after hrun
    have hstatic : result.isNone = true ↔ n.hasDynamic = false :=
      Option.isNone_iff_eq_none.trans hgives.eq_none_iff
    refine ⟨by simpa [Visit.isStatic] using hstatic, fun hsame => ?_⟩
    obtain ⟨events, hsilent⟩ := silent_part o parsers (hstatic.1 hsame) before
    have hafter := hrun.symm.trans hsilent
    rw [Prod.mk.injEq] at hafter
    rw [hafter.2]

/-- **A sequence with a child that changes.** -/
theorem sequenced_splice {children : List (Option Node)}
    (hdynamic : ∃ n, some n ∈ children ∧ n.hasDynamic = true) {d d' : Draft} {r : Option Expr}
    (hrun : exec (splice .generic (children.map (·.map (builtin o parsers).part))) d =
      (.ok r, d')) :
    ∃ vs items, r = some (.apply .children [.list items.flatten]) ∧
      (builtin o parsers).Sequenced children d vs items d' := by
  have hsplice := splice_visits .generic (children.map (·.map (builtin o parsers).part)) d
  rw [hrun] at hsplice
  obtain ⟨s, d₁, hclose, hloop⟩ := hsplice
  obtain ⟨hnodes, hvisited⟩ := hloop.visits_children
  have hkeeps : ∀ p ∈ (children.map (·.map (builtin o parsers).part)).zipIdx, ∀ q,
      p.1 = some q → Keeps Draft.Appends q.run := by
    intro p hp q hq
    obtain ⟨child, -, h⟩ := exists_child_of_mem_zipIdx hp
    obtain ⟨n, -, rfl⟩ := Option.map_eq_some_iff.1 (h.symm.trans hq)
    exact keeps_part Draft.Appends.frame (rulesKeep_builtin _ _ _) n
  have hstart := Splice.Sound.start .generic d
  obtain ⟨ps, since, hsound, -, -, hpieces, hstatic⟩ := hloop.sound hkeeps hstart
  obtain ⟨items, hitems, hstand⟩ := hloop.items hkeeps hstart (List.prefix_refl _)
  have htable := hloop.table_eq hkeeps hstart
  generalize visits .generic (children.map (·.map (builtin o parsers).part)) d = vs at *
  have hvisits := fun v hv => static_visit o parsers (hvisited v hv)
  have hps : ps ≠ [] := by
    intro hps
    obtain ⟨n, hn, hchanges⟩ := hdynamic
    rw [← hnodes] at hn
    obtain ⟨v, hv, hvn⟩ := List.mem_map.1 hn
    have hsame := (hvisits v hv).1.1 (hstatic.1 hps v hv) n hvn
    rw [hsame] at hchanges
    cases hchanges
  rw [Splice.close_dynamic hsound hps rfl, Drafting.map_apply, Collector.flush_generic rfl,
    List.nil_append, ← hpieces, Prod.mk.injEq] at hclose
  obtain ⟨rfl, rfl⟩ := hclose
  refine ⟨vs, items, by rw [← hitems], hnodes, hvisited, fun v hv => (hvisits v hv).1,
    fun v hv => (hvisits v hv).2, ?_, ?_, ?_⟩
  · rw [Drafting.refs_use]
    exact List.forall₂_map_left_iff.1 hstand
  · rw [Drafting.lines_use]
    exact congrArg (d.lines ++ ·) (allLines_pieces_generic _ _ _ _ _)
  · rw [Drafting.refs_use, ← Multiset.coe_eq_coe]
    simpa only [Multiset.coe_add, Multiset.coe_nil, add_zero] using htable

/-! ## Whole trees -/

/-- The tally of a whole tree. -/
theorem tally_compileRoot {root : Node} {outcome : Option Nat} {draft : Draft}
    (hrun : exec ((builtin o parsers).compileRoot root) .empty = (.ok outcome, draft)) :
    draft.choices = root.invocations.map Node.choice ∧
      Line.replacements draft.refs draft.lines = (root.rebuilt.map Node.replacement) := by
  rw [exec_compileRoot] at hrun
  rcases hpart : exec ((builtin o parsers).part root).run .empty with ⟨e | r, d⟩
  · simp [hpart] at hrun
  obtain ⟨new, hlines, htally⟩ := (tallied_part o parsers root).tallies d.refs .empty r d hpart
  have hchoices := htally.choices
  have hmade := htally.replacements (List.prefix_refl _)
  have hnew : new = d.lines := hlines.symm
  rw [Node.choicesAll, List.flatMap_singleton] at hchoices
  rw [Node.replacementsAll, List.flatMap_singleton, hnew, Expr.replacementsAll_nil,
    zero_add] at hmade
  -- only of at most one expression is there a program
  rcases r with _ | ⟨_ | ⟨e, _ | ⟨f, es⟩⟩⟩
  case none =>
    rw [hpart] at hrun
    simp only [Prod.mk.injEq, Except.ok.injEq] at hrun
    obtain ⟨-, rfl⟩ := hrun
    exact ⟨by simpa [Draft.choices, Event.isChoice, Draft.empty] using hchoices,
      (add_zero _).symm.trans hmade⟩
  case some.cons.nil =>
    rw [hpart] at hrun
    simp only [Prod.mk.injEq, Except.ok.injEq] at hrun
    obtain ⟨-, rfl⟩ := hrun
    refine ⟨by simpa [Draft.choices, Event.isChoice, Draft.empty] using hchoices, ?_⟩
    simpa [Stmt.replacements] using hmade
  case some.nil => simp [hpart] at hrun
  case some.cons.cons => simp [hpart] at hrun

/-- **Minimal reconstruction.** Every invocation of the generic rule or the
rule for roots makes one call that replaces fields of its node if something
below the node changes, and none otherwise; the call names exactly the
fields with something in them that changes, in order. In a sequence with a
child that changes, the other children are referred to themselves. So the
replacements in the program of a tree are those of the nodes that these
rules are invoked on and that have something below them that changes, one
for each. -/
theorem minimal_reconstruction :
    (∀ (n : Node) (d : Draft) (r : Result) (d' : Draft), n.isGeneric = true →
      exec ((builtin o parsers).part n).run d = (.ok r, d') →
        (builtin o parsers).Reconstructs n d r d') ∧
    (∀ (f : Field Node) (children : List (Option Node)) (d : Draft)
        (change : Option (Text × Expr)) (d' : Draft),
      f.value = .children children → (∃ n, some n ∈ children ∧ n.hasDynamic = true) →
      exec (changedField .generic (f.map (builtin o parsers).part)) d = (.ok change, d') →
        ∃ vs items, change = some (f.name, .apply .children [.list items.flatten]) ∧
          (builtin o parsers).Sequenced children d vs items d') ∧
    ∀ (root : Node) (compiled : Compiled),
      ((builtin o parsers).compile root).1 = .ok compiled →
        ∃ outcome draft,
          exec ((builtin o parsers).compileRoot root) .empty = (.ok outcome, draft) ∧
          compiled = (builtin o parsers).present draft outcome ∧
          draft.choices = root.invocations.map Node.choice ∧
          Line.replacements draft.refs draft.lines = (root.rebuilt.map Node.replacement) ∧
          (Line.replacements draft.refs draft.lines).card =
            root.invocations.countP Node.isRebuilt := by
  refine ⟨fun n d r d' hgeneric hrun => reconstructs_part o parsers hgeneric hrun, ?_, ?_⟩
  · rintro ⟨name, value⟩ children d change d' rfl hdynamic hrun
    obtain ⟨r, d₁, hsplice, hrun⟩ := exec_bind_eq_ok hrun
    cases hrun
    obtain ⟨vs, items, rfl, hsequenced⟩ := sequenced_splice o parsers hdynamic hsplice
    exact ⟨vs, items, rfl, hsequenced⟩
  · intro root compiled hcompiled
    obtain ⟨outcome, draft, hrun, hpresent⟩ := compile_eq_ok.1 hcompiled
    obtain ⟨hchoices, hmade⟩ := tally_compileRoot o parsers hrun
    refine ⟨outcome, draft, hrun, hpresent, hchoices, hmade, ?_⟩
    rw [hmade, Multiset.coe_card, List.length_map, Node.rebuilt, ← List.countP_eq_length_filter]

/-- A root with a message in it, of which one part is to be filled in. -/
theorem minimal_reconstruction_message :
    let name : Node := ⟨.identifier, [⟨ascii "value", .leaf (.str (ascii "x"))⟩], .unknown⟩
    let spot : Node := ⟨.interpolation, [⟨ascii "converter", .leaf (.str (ascii "int"))⟩,
      ⟨ascii "value", .child (some name)⟩], .unknown⟩
    let still : Node := ⟨.string, [], .unknown⟩
    let parts : Field Node := ⟨ascii "parts", .children [some still, some spot]⟩
    let message : Node := ⟨.message, [⟨ascii "first", .child (some still)⟩, parts], .unknown⟩
    let root : Node := ⟨.root, [⟨ascii "commands", .children [some message]⟩], .unknown⟩
    let c := builtin .standard []
    (∃ r d', exec (c.part message).run .empty = (.ok r, d') ∧
      c.Reconstructs message .empty r d') ∧
    (∃ change d' vs items, exec (changedField .generic (parts.map c.part)) .empty =
        (.ok change, d') ∧ c.Sequenced [some still, some spot] .empty vs items d') ∧
    ∃ outcome draft, exec (c.compileRoot root) .empty = (.ok outcome, draft) ∧
      Line.replacements draft.refs draft.lines =
        ([⟨some root, [ascii "commands"]⟩, ⟨some message, [ascii "parts"]⟩] :
          List Replacement) := by
  intro name spot still parts message root c
  obtain ⟨hnode, hsequence, htree⟩ := minimal_reconstruction .standard []
  refine ⟨?_, ?_, ?_⟩
  · have hok : (exec (c.part message).run .empty).1.toOption.isSome = true := by decide +kernel
    rcases hrun : exec (c.part message).run .empty with ⟨e | r, d'⟩
    · rw [hrun] at hok
      cases hok
    · exact ⟨r, d', rfl, hnode message _ r d' (by decide +kernel) hrun⟩
  · have hok : (exec (changedField .generic (parts.map c.part)) .empty).1.toOption.isSome =
        true := by decide +kernel
    rcases hrun : exec (changedField .generic (parts.map c.part)) .empty with ⟨e | change, d'⟩
    · rw [hrun] at hok
      cases hok
    · obtain ⟨vs, items, -, hsequenced⟩ :=
        hsequence parts _ _ change d' rfl ⟨spot, by simp, by decide +kernel⟩ hrun
      exact ⟨change, d', vs, items, rfl, hsequenced⟩
  · have hok : (c.compile root).1.toOption.isSome = true := by decide +kernel
    rcases hcompile : (c.compile root).1 with e | compiled
    · rw [hcompile] at hok
      cases hok
    · obtain ⟨outcome, draft, hrun, -, -, hmade, -⟩ := htree root compiled hcompile
      refine ⟨outcome, draft, hrun, hmade.trans ?_⟩
      have hname : name.invocations = [name] := Node.invocations_eq name
      have hstill : still.invocations = [still] := Node.invocations_eq still
      have hspot : spot.invocations = [spot, name] := by
        rw [Node.invocations_eq, show spot.ahead ++ spot.inside = [name] from rfl,
          List.flatMap_singleton, hname]
      have hmessage : message.invocations = [message, still, still, spot, name] := by
        rw [Node.invocations_eq,
          show message.ahead ++ message.inside = [still, still, spot] from rfl]
        simp [hstill, hspot]
      have hroot : root.invocations = [root, message, still, still, spot, name] := by
        rw [Node.invocations_eq, show root.ahead ++ root.inside = [message] from rfl,
          List.flatMap_singleton, hmessage]
      rw [Node.rebuilt, hroot]
      rfl

end Compiler

end ScriptSplice
