import ScriptSplice.Proofs.Rules.Reconstructible
import ScriptSplice.Proofs.Target.Meaning
/-!
# Lines that compiling writes

Executing the lines that compiling a node writes leaves a state in which
its fragment denotes the rebuilt node, in any block that is far enough in
and whatever the final table and the final helpers are, as long as they
have what the draft has by then (`Computes`). For a sequence the lines of
its pieces add up to the sequence (`Collection.Gathers`): pieces stand for
the children either by what they denote or by what they add to the
commands.
-/

namespace ScriptSplice

open Compile

/-- Lines written out, some levels further in. -/
def Line.texts (stem : Text) (w s : Nat) (ls : List Line) : List Text :=
  ls.map fun l => Line.render stem w ⟨l.depth + s, l.stmt⟩

theorem Line.texts_append (stem : Text) (w s : Nat) (ls ms : List Line) :
    texts stem w s (ls ++ ms) = texts stem w s ls ++ texts stem w s ms := List.map_append

theorem Line.texts_indent (stem : Text) (w s : Nat) (ls : List Line) :
    texts stem w s (ls.map Line.indent) = texts stem w (s + 1) ls := by
  rw [texts, List.map_map]
  refine List.map_congr_left fun l _ => ?_
  simp only [Function.comp_apply, Line.indent, Nat.add_right_comm l.depth 1 s, Nat.add_assoc]

/-- **The lines between two drafts** compute the values of some items, at
any depth, once the table and the helpers are complete. -/
structure Computes (R : Runtime) (helpers : List Helper) (w : Nat) (d d' : Draft)
    (items : List (Expr × Datum)) : Prop where
  appends : d.Appends d'
  uses : ∀ h ∈ d.helpers, h ∈ d'.helpers
  plain : ∀ h ∈ d'.helpers, h ∈ d.helpers ∨ h.Plain
  does : d'.refs <+: R.refs → (∀ h ∈ d'.helpers, h ∈ helpers) → ∀ s,
    R.Does helpers ((d.depth + s) * w) (Line.texts R.stem w s (d'.lines.drop d.size))
      d.fresh d'.fresh [] items

variable {R : Runtime} {helpers : List Helper} {w : Nat} {d d' d'' : Draft}

namespace Computes

variable {items items' : List (Expr × Datum)}

/-- What was recorded does not matter. -/
theorem refl (d : Draft) (events : List Event) : Computes R helpers w d { d with events } [] where
  appends := ⟨rfl, List.prefix_refl _, List.prefix_refl _⟩
  uses _ hh := hh
  plain _ hh := Or.inl hh
  does _ _ s := by
    rw [Draft.size, List.drop_length]
    exact .nil _

theorem trans (h : Computes R helpers w d d' items) (h' : Computes R helpers w d' d'' items') :
    Computes R helpers w d d'' (items ++ items') where
  appends := Draft.Appends.frame.trans h.appends h'.appends
  uses g hg := h'.uses g (h.uses g hg)
  plain g hg := (h'.plain g hg).elim (h.plain g) Or.inr
  does hrefs hhelpers s := by
    have hfirst := h.does (h'.appends.refs.trans hrefs) (fun g hg => hhelpers g (h'.uses g hg)) s
    have hnext := h'.does hrefs hhelpers s
    rw [h.appends.depth] at hnext
    rw [h.appends.drop h'.appends, Line.texts_append]
    exact hfirst.append hnext

/-- The lines before a helper is taken into use compute what it makes. -/
theorem of_use {g : Helper} (hg : g.Plain) (happends : d.Appends d')
    (huses : ∀ h ∈ d.helpers, h ∈ d'.helpers) (hplain : ∀ h ∈ d'.helpers, h ∈ d.helpers ∨ h.Plain)
    (hdoes : d'.refs <+: R.refs → (∀ h ∈ d'.helpers, h ∈ helpers) → g ∈ helpers → ∀ s,
      R.Does helpers ((d.depth + s) * w) (Line.texts R.stem w s (d'.lines.drop d.size))
        d.fresh d'.fresh [] items) :
    Computes R helpers w d (Drafting.use g d').2 items := by
  have hmem : ∀ h, h ∈ (Drafting.use g d').2.helpers ↔ h ∈ d'.helpers ∨ h = g := by
    intro h
    rw [Drafting.use_apply]
    split
    · rename_i hin
      exact ⟨Or.inl, fun hh => hh.elim id fun heq => heq ▸ hin⟩
    · rw [List.mem_append, List.mem_singleton]
  have hrest : (Drafting.use g d').2 = { d' with helpers := (Drafting.use g d').2.helpers } := by
    rw [Drafting.use_apply]
    split <;> rfl
  rw [hrest]
  refine ⟨⟨happends.depth, happends.lines, happends.refs⟩,
    fun h hh => (hmem h).2 (Or.inl (huses h hh)), fun h hh => ?_, fun hrefs hhelpers s => ?_⟩
  · exact ((hmem h).1 hh).elim (hplain h) fun heq => Or.inr (heq ▸ hg)
  · exact hdoes hrefs (fun h hh => hhelpers h ((hmem h).2 (Or.inl hh)))
      (hhelpers g ((hmem g).2 (Or.inr rfl))) s

/-- A helper makes other expressions of those there are. -/
theorem use (h : Computes R helpers w d d' items) {g : Helper} (hg : g.Plain)
    (hitems : g ∈ helpers → ∀ (k : Nat) (σ : State), σ.Good R helpers k →
      (∀ p ∈ items, R.Denotes d'.fresh σ p.1 p.2) → ∀ p ∈ items', R.Denotes d'.fresh σ p.1 p.2) :
    Computes R helpers w d (Drafting.use g d').2 items' :=
  of_use hg h.appends h.uses h.plain fun hrefs hhelpers hmem s =>
    (h.does hrefs hhelpers s).map (hitems hmem _)

variable (hstem : R.stem.isName = true)

include hstem

theorem ref (n : Option Node) (d : Draft) :
    Computes R helpers w d (Drafting.ref n d).2 [((Drafting.ref n d).1, .node n)] where
  appends := Draft.Appends.frame.ref d n
  uses _ hg := hg
  plain _ hg := Or.inl hg
  does hrefs _ s := by
    have hlines : (Drafting.ref n d).2.lines.drop d.size = [] := List.drop_length
    rw [hlines]
    exact (Runtime.Does.nil d.fresh).map fun σ hσ _ =>
      List.forall_mem_singleton.2 (.ref hstem hσ hrefs)

end Computes

/-! ## Pieces -/

namespace Collection

/-- The children that are given by what pieces denote. -/
def given : Collection → List (Option Node) → List (Option Node)
  | generic, ns => ns
  | command, _ | rootCommand, _ => []

/-- The children that are added to the commands. -/
def added : Collection → List (Option Node) → List (Option Node)
  | generic, _ => []
  | command, ns | rootCommand, ns => ns

theorem given_append (collection : Collection) (ns ms : List (Option Node)) :
    collection.given (ns ++ ms) = collection.given ns ++ collection.given ms := by
  cases collection <;> rfl

theorem added_append (collection : Collection) (ns ms : List (Option Node)) :
    collection.added (ns ++ ms) = collection.added ns ++ collection.added ms := by
  cases collection <;> rfl

/-- **Some pieces stand for some children.** -/
def Gathers (R : Runtime) (helpers : List Helper) (w depth s : Nat) (collection : Collection)
    (ps : List Piece) (f f' : Nat) (ns : List (Option Node)) : Prop :=
  ∃ items : List (Expr × Datum), items.map (·.1) = Piece.items ps ∧
    items.map (·.2) = (collection.given ns).map .node ∧
    R.Does helpers ((depth + s) * w) (Line.texts R.stem w s (Piece.allLines depth ps)) f f'
      (collection.added ns) items

namespace Gathers

variable {depth s f f' f'' : Nat} {collection : Collection} {ps qs : List Piece}
  {ns ms : List (Option Node)} {ls : List Line} {e : Expr} {n : Option Node}

theorem append (h : collection.Gathers R helpers w depth s ps f f' ns)
    (h' : collection.Gathers R helpers w depth s qs f' f'' ms) :
    collection.Gathers R helpers w depth s (ps ++ qs) f f'' (ns ++ ms) := by
  obtain ⟨items, hexprs, hvalues, hdoes⟩ := h
  obtain ⟨items', hexprs', hvalues', hdoes'⟩ := h'
  refine ⟨items ++ items', ?_, ?_, ?_⟩
  · rw [List.map_append, hexprs, hexprs', Piece.items_append]
  · rw [List.map_append, hvalues, hvalues', given_append, List.map_append]
  · rw [Piece.allLines_append, Line.texts_append, added_append]
    exact hdoes.append hdoes'

/-- Lines of the children alone stand for none. -/
theorem emitted (h : R.Does helpers ((depth + s) * w) (Line.texts R.stem w s ls) f f' [] []) :
    collection.Gathers R helpers w depth s [.emitted ls] f f' [] := by
  refine ⟨[], rfl, by cases collection <;> rfl, ?_⟩
  have hadded : collection.added [] = [] := by cases collection <;> rfl
  rw [hadded, Piece.allLines_cons, Piece.allLines_nil, List.append_nil]
  exact h

variable (hstem : R.stem.isName = true)

include hstem

/-- **The lines of a changed child and its fragment** stand for it. -/
theorem changed
    (h : R.Does helpers ((depth + s) * w) (Line.texts R.stem w s ls) f f' [] [(e, .node n)]) :
    collection.Gathers R helpers w depth s (.emitted ls :: collection.ofFragments [e]) f f'
      [n] := by
  have hcommand : R.Does helpers ((depth + s) * w)
      (Line.texts R.stem w s (ls ++ [⟨depth, .append e⟩])) f f' [n] [] := by
    rw [Line.texts_append]
    exact h.command hstem
  cases collection with
  | generic => exact ⟨[(e, .node n)], rfl, rfl, by simpa [ofFragments, Piece.lines, added] using h⟩
  | command => exact ⟨[], rfl, rfl, hcommand⟩
  | rootCommand => exact ⟨[], rfl, rfl, hcommand⟩

/-- The statements for a run add it to the commands. -/
theorem does_runStmts {before : List (Option Node)} (h : before ++ ns <+: R.refs) :
    R.Does helpers ((depth + s) * w)
      (Line.texts R.stem w s ((runStmts before.length ns).map (Line.mk depth))) f f ns [] := by
  match ns, h with
  | [], _ => exact .nil f
  | [n], h =>
    have href : R.Does helpers ((depth + s) * w) [] f f [] [(.ref before.length, .node n)] :=
      (Runtime.Does.nil f).map fun σ hσ _ => List.forall_mem_singleton.2 (.ref hstem hσ h)
    exact href.command hstem
  | n :: m :: ns, h =>
    have hslice : R.Does helpers ((depth + s) * w) [] f f []
        [(.slice before.length (before.length + (n :: m :: ns).length),
          .nodes (n :: m :: ns))] :=
      (Runtime.Does.nil f).map fun σ hσ _ => List.forall_mem_singleton.2 (.slice hstem hσ h)
    exact hslice.run hstem

/-- The references to a run denote it. -/
theorem does_refsFrom {before : List (Option Node)} (h : before ++ ns <+: R.refs) :
    Collection.generic.Gathers R helpers w depth s
      ((refsFrom before.length ns.length).map .item) f f ns := by
  induction ns generalizing before with
  | nil => exact ⟨[], rfl, rfl, .nil f⟩
  | cons n ns ih =>
    have hn : before ++ [n] <+: R.refs := List.IsPrefix.trans ⟨ns, by simp⟩ h
    have hns : (before ++ [n]) ++ ns <+: R.refs := by simpa using h
    have hrest := ih hns
    rw [List.length_append, List.length_singleton] at hrest
    have hfirst : Collection.generic.Gathers R helpers w depth s [.item (.ref before.length)]
        f f [n] :=
      ⟨[(.ref before.length, .node n)], rfl, rfl, (Runtime.Does.nil f).map fun σ hσ _ =>
        List.forall_mem_singleton.2 (.ref hstem hσ hn)⟩
    rw [refsFrom, List.length_cons, List.range'_succ]
    exact hfirst.append hrest

/-- **A run of unchanged children** stands for them. -/
theorem run {before : List (Option Node)} (h : before ++ ns <+: R.refs) :
    collection.Gathers R helpers w depth s (collection.ofRun before.length ns) f f ns := by
  have hcommands : R.Does helpers ((depth + s) * w)
      (Line.texts R.stem w s ((runStmts before.length ns).map (Line.mk depth))) f f ns [] :=
    does_runStmts hstem h
  rw [← Piece.allLines_stmts] at hcommands
  cases collection with
  | generic => exact does_refsFrom hstem h
  | command => exact ⟨[], (Piece.items_stmts _).symm, rfl, hcommands⟩
  | rootCommand => exact ⟨[], (Piece.items_stmts _).symm, rfl, hcommands⟩

end Gathers

end Collection

/-! ## Sequences -/

/-- **What becomes of a node** that need not be there: it stays as it is,
or the lines compute what it is to be. -/
inductive Rebuilt (R : Runtime) (helpers : List Helper) (w : Nat) (n : Option Node) (d : Draft) :
    Compile.Result → Draft → Prop
  | same (events : List Event) :
    n.map (Node.reconstruct R.convert) = n → Rebuilt R helpers w n d none { d with events }
  | changed {e : Expr} {d' : Draft} :
    Computes R helpers w d d' [(e, .node (n.map (Node.reconstruct R.convert)))] →
    Rebuilt R helpers w n d (some [e]) d'

namespace Compile.Splice.Loop

variable {collection : Collection} {count : Nat} {children : List (Option Part × Nat)}
  {vs : List Visit} {base since : List Line} {ps : List Piece} {s s' : Splice}
  (hchildren : ∀ c ∈ children, ∀ d r d', exec (runChild c.1) d = (.ok r, d') →
    Rebuilt R helpers w (c.1.map (·.node)) d r d')

include hchildren

/-- The loop only adds to the table, and only plain helpers to those in
use. -/
theorem grows (h : Loop collection count s d children vs s' d')
    (hs : s.Sound collection base d ps since) :
    d.refs <+: d'.refs ∧ (∀ g ∈ d.helpers, g ∈ d'.helpers) ∧
      ∀ g ∈ d'.helpers, g ∈ d.helpers ∨ g.Plain := by
  induction h generalizing ps since with
  | nil => exact ⟨List.prefix_refl _, fun _ hg => hg, fun _ hg => Or.inl hg⟩
  | static hrun _ ih =>
    have hchildren' := fun c hc => hchildren c (List.mem_cons_of_mem _ hc)
    cases hchildren _ List.mem_cons_self _ _ _ hrun with
    | same events _ => exact ih hchildren' ⟨hs.lines, hs.place, hs.collector⟩
  | dynamic hrun hstep _ ih =>
    have hchildren' := fun c hc => hchildren c (List.mem_cons_of_mem _ hc)
    cases hchildren _ List.mem_cons_self _ _ _ hrun with
    | changed hchild =>
      obtain ⟨-, ⟨events, hd₂⟩, hs₂⟩ := step_dynamic (hs.visit hchild.appends) hrun hstep
      obtain ⟨hrefs, huses, hplain⟩ := ih hchildren' hs₂
      rw [hd₂] at hrefs huses hplain
      refine ⟨hchild.appends.refs.trans ((List.prefix_append _ _).trans hrefs),
        fun g hg => huses g (hchild.uses g hg), fun g hg => ?_⟩
      exact (hplain g hg).elim (hchild.plain g) Or.inr

/-- **The pieces of a run of the loop** stand for the rebuilt children. -/
theorem gathers (hstem : R.stem.isName = true) (h : Loop collection count s d children vs s' d')
    (hs : s.Sound collection base d ps since) (hrefs : d'.refs ++ s'.pending <+: R.refs)
    (hhelpers : ∀ g ∈ d'.helpers, g ∈ helpers) {j f : Nat}
    (hsince : R.Does helpers ((d.depth + j) * w) (Line.texts R.stem w j since) f d.fresh [] []) :
    collection.Gathers R helpers w d.depth j (pieces collection s.pending since d.refs.length vs)
      f d'.fresh
      (s.pending ++ children.map fun c =>
        (c.1.map (·.node)).map (Node.reconstruct R.convert)) := by
  induction h generalizing ps since f with
  | nil =>
    rw [pieces, List.map_nil, List.append_nil]
    exact (Collection.Gathers.emitted hsince).append (.run hstem hrefs)
  | @static s s' d d₁ d' child i children vs hrun _ ih =>
    have hchildren' := fun c hc => hchildren c (List.mem_cons_of_mem _ hc)
    cases hchildren _ List.mem_cons_self _ _ _ hrun with
    | same events hsame =>
      have hlines : Visit.lines ⟨child.map (·.node), d, { d with events }, none⟩ = [] :=
        List.drop_length
      have hrest := ih hchildren' ⟨hs.lines, hs.place, hs.collector⟩ hrefs hhelpers hsince
      rw [pieces]
      simp only [hlines, List.append_nil, List.map_cons, hsame]
      rwa [List.append_assoc] at hrest
  | @dynamic s s₂ s' d d₁ d₂ d' child i children vs es hrun hstep hloop ih =>
    have hchildren' := fun c hc => hchildren c (List.mem_cons_of_mem _ hc)
    cases hchildren _ List.mem_cons_self _ _ _ hrun with
    | @changed e _ hchild =>
      -- first the pending run and the lines of the child, then the rest
      obtain ⟨hpending, ⟨events, hd₂⟩, hs₂⟩ := step_dynamic (hs.visit hchild.appends) hrun hstep
      obtain ⟨hgrow, huses, -⟩ := hloop.grows hchildren' hs₂
      have hrefs₂ : d₂.refs = d₁.refs ++ s.pending := by rw [hd₂]
      have hdepth₂ : d₂.depth = d.depth := by rw [hd₂]; exact hchild.appends.depth
      have hfresh₂ : d₂.fresh = d₁.fresh := by rw [hd₂]
      have huses₂ : ∀ g ∈ d₁.helpers, g ∈ helpers := fun g hg =>
        hhelpers g (huses g (by rwa [hd₂]))
      have hrun' : d₁.refs ++ s.pending <+: R.refs :=
        hrefs₂ ▸ hgrow.trans ((List.prefix_append _ _).trans hrefs)
      have hlines := hsince.append
        (hchild.does ((List.prefix_append _ _).trans hrun') huses₂ j)
      rw [← Line.texts_append] at hlines
      have hrest := ih hchildren' hs₂ hrefs hhelpers (.nil _)
      rw [hpending, hrefs₂, List.length_append, hdepth₂, hfresh₂] at hrest
      have hpending' : collection.Gathers R helpers w d.depth j
          (collection.ofRun d₁.refs.length s.pending) f f s.pending := .run hstem hrun'
      have hfirst := hpending'.append (.changed hstem hlines)
      rw [pieces, List.map_cons]
      have hall := hfirst.append hrest
      simp only [List.nil_append, List.append_assoc, List.cons_append] at hall
      simpa only [contribution, Visit.lines, List.append_assoc, List.cons_append] using hall

end Compile.Splice.Loop

/-- Filling an empty block does nothing. -/
theorem does_filled {k depth j f f' : Nat} {added : List (Option Node)} {new : List Line}
    (hk : (depth + j) * w = k)
    (h : R.Does helpers k (Line.texts R.stem w j new) f f' added []) :
    R.Does helpers k (Line.texts R.stem w j (filled depth new)) f f' added [] ∧
      Line.texts R.stem w j (filled depth new) ≠ [] := by
  subst hk
  by_cases hnew : new = []
  · subst hnew
    rw [filled, if_pos rfl]
    exact ⟨by simpa [Line.texts] using h.append (.pass f'), List.cons_ne_nil _ _⟩
  · rw [filled, if_neg hnew]
    exact ⟨h, by simpa [Line.texts] using hnew⟩

namespace Compile

/-- **Closing the collector** makes one expression of the pieces. Those of
a root collector go into a block, one level further in. -/
theorem computes_flush (hstem : R.stem.isName = true) (hw : 0 < w) {collection : Collection}
    (hcollection : collection ≠ .command) {all : List Piece} {ns : List (Option Node)}
    {d₁ : Draft} (hdepth : d₁.depth = d.depth)
    (hlines : d₁.lines = d.lines ++ Piece.allLines d.depth all) (hrefs : d.refs <+: d₁.refs)
    (huses : ∀ g ∈ d.helpers, g ∈ d₁.helpers)
    (hplain : ∀ g ∈ d₁.helpers, g ∈ d.helpers ∨ g.Plain)
    (hgathers : d₁.refs <+: R.refs → (∀ g ∈ d₁.helpers, g ∈ helpers) → ∀ j,
      collection.Gathers R helpers w d.depth j all d.fresh d₁.fresh ns) {e : Expr}
    (h : Collector.flush ⟨collection, d.size, Piece.items all⟩ d₁ = (e, d')) :
    Computes R helpers w d d' [(e, .sequence ns)] := by
  cases collection with
  | command => exact absurd rfl hcollection
  | generic =>
    rw [Collector.flush_generic rfl, Prod.mk.injEq] at h
    obtain ⟨rfl, rfl⟩ := h
    have happends : d.Appends d₁ := ⟨hdepth, hlines ▸ List.prefix_append _ _, hrefs⟩
    have hnew : d₁.lines.drop d.size = Piece.allLines d.depth all := by
      rw [hlines]
      exact List.drop_left
    refine .of_use Helper.plain_children happends huses hplain fun hrefs hhelpers hmem j => ?_
    obtain ⟨items, hexprs, hvalues, hdoes⟩ := hgathers hrefs hhelpers j
    rw [hnew, ← hexprs]
    exact hdoes.map fun σ hσ hitems =>
      List.forall_mem_singleton.2 (.children hstem hσ hmem hitems hvalues)
  | rootCommand =>
    obtain ⟨events, hflush⟩ := Collector.flush_rootCommand
      (c := ⟨.rootCommand, d.size, Piece.items all⟩) rfl hlines rfl
    rw [hflush, Prod.mk.injEq] at h
    obtain ⟨rfl, rfl⟩ := h
    refine .of_use Helper.plain_children ⟨hdepth, List.prefix_append _ _, hrefs⟩ huses hplain
      fun hrefs hhelpers hmem j => ?_
    -- what was gathered at any depth was gathered one level further in
    obtain ⟨items, -, hvalues, hdoes⟩ := hgathers hrefs hhelpers (j + 1)
    obtain rfl : items = [] := List.map_eq_nil_iff.1 hvalues
    obtain ⟨hfilled, hne⟩ := does_filled rfl hdoes
    have hin : (d.depth + j) * w < (d.depth + (j + 1)) * w :=
      Nat.mul_lt_mul_of_pos_right (Nat.lt_succ_self _) hw
    have hscope := hfilled.scope hstem hmem hin hne
    have hnew : (d.lines ++ ⟨d₁.depth, .scope d₁.fresh⟩ ::
        (filled d₁.depth (Piece.allLines d.depth all)).map Line.indent).drop d.size =
          ⟨d.depth, .scope d₁.fresh⟩ ::
            (filled d.depth (Piece.allLines d.depth all)).map Line.indent := by
      rw [hdepth]
      exact List.drop_left
    rw [← Line.texts_indent] at hscope
    rw [hnew]
    exact hscope

/-- **A sequence that changes** is computed as the sequence of its rebuilt
children. -/
theorem computes_splice (hstem : R.stem.isName = true) (hw : 0 < w) {collection : Collection}
    (hcollection : collection ≠ .command) {parts : List (Option Part)}
    (hkeeps : ∀ p, some p ∈ parts → Keeps Draft.Appends p.run)
    (hchildren : ∀ p ∈ parts, ∀ d r d', exec (runChild p) d = (.ok r, d') →
      Rebuilt R helpers w (p.map (·.node)) d r d') {e : Expr}
    (h : exec (splice collection parts) d = (.ok (some e), d')) :
    Computes R helpers w d d'
      [(e, .sequence (parts.map fun p => (p.map (·.node)).map (Node.reconstruct R.convert)))] := by
  have hsplice := splice_visits collection parts d
  rw [h] at hsplice
  obtain ⟨s, d₁, hclose, hloop⟩ := hsplice
  have hkeeps' : ∀ c ∈ parts.zipIdx, ∀ p, c.1 = some p → Keeps Draft.Appends p.run :=
    fun c hc p hp => hkeeps p (hp ▸ (List.mem_zipIdx hc).2.2 ▸ List.getElem_mem _)
  have hchildren' : ∀ c ∈ parts.zipIdx, ∀ d r d', exec (runChild c.1) d = (.ok r, d') →
      Rebuilt R helpers w (c.1.map (·.node)) d r d' :=
    fun c hc => hchildren c.1 ((List.mem_zipIdx hc).2.2 ▸ List.getElem_mem _)
  have hstart := Splice.Sound.start collection d
  obtain ⟨ps, since, hsound, hdepth, -, hpieces, -⟩ := hloop.sound hkeeps' hstart
  obtain ⟨hgrow, huses, hplain⟩ := hloop.grows hchildren' hstart
  -- something came of the sequence, so there are pieces
  have hps : ps ≠ [] := by
    intro hps
    rw [Splice.close_static hsound hps, Prod.mk.injEq] at hclose
    cases hclose.1
  have hnodes : (parts.zipIdx.map fun c => (c.1.map (·.node)).map (Node.reconstruct R.convert)) =
      parts.map fun p => (p.map (·.node)).map (Node.reconstruct R.convert) := by
    have hfst := congrArg
      (List.map fun p : Option Part => (p.map (·.node)).map (Node.reconstruct R.convert))
      (List.zipIdx_map_fst 0 parts)
    rwa [List.map_map] at hfst
  have hgathers := fun hrefs hhelpers j =>
    hloop.gathers (j := j) hchildren' hstem hstart hrefs hhelpers (.nil _)
  simp only [hnodes, List.nil_append] at hgathers
  rw [Splice.close_dynamic hsound hps hpieces, Drafting.map_apply, hdepth, Prod.mk.injEq,
    Option.some.injEq] at hclose
  have hflush : Collector.flush ⟨collection, d.size, Piece.items
      (pieces collection [] [] d.refs.length (visits collection parts d))⟩ _ = (e, d') :=
    Prod.ext hclose.1 hclose.2
  refine computes_flush hstem hw hcollection ?_ ?_ ?_ ?_ ?_ hgathers hflush
  · rfl
  · rfl
  · exact hgrow.trans (List.prefix_append _ _)
  · exact huses
  · exact hplain

end Compile

end ScriptSplice
