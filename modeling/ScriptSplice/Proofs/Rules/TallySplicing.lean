import ScriptSplice.Proofs.Rules.AccountSplicing
import ScriptSplice.Proofs.Rules.Tally
/-!
# Splicing tallies

What a sequence replaces is what its children do: a run of unchanged
children is only referred to, and fragments are items of the new sequence
or operands of statements. So the loop keeps one tally of the pieces
contributed so far and the lines written since (`Splice.Tallied`), and
splicing a sequence tallies if compiling its children does
(`Tallies.splice`).
-/

namespace ScriptSplice

open Compile

variable {table : List (Option Node)}

/-! ## Runs and fragments -/

/-- The replacements of some pieces. -/
def Piece.replacements (table : List (Option Node)) (ps : List Piece) : Multiset Replacement :=
  Line.replacements table (allLines 0 ps) + Expr.replacementsAll table (items ps)

/-- How deep pieces are written does not matter. -/
theorem Piece.replacements_eq (depth : Nat) (ps : List Piece) :
    replacements table ps =
      Line.replacements table (allLines depth ps) + Expr.replacementsAll table (items ps) := by
  have hlines : Line.replacements table (allLines 0 ps) =
      Line.replacements table (allLines depth ps) := by
    induction ps with
    | nil => rfl
    | cons p ps ih => cases p <;> simp [lines, ih]
  rw [replacements, hlines]

namespace Collection

/-- The pieces of fragments replace what the fragments do. -/
theorem replacements_ofFragments (collection : Collection) (table : List (Option Node))
    (es : List Expr) :
    Piece.replacements table (collection.ofFragments es) = Expr.replacementsAll table es := by
  have hstmts : Line.replacements table ((es.map Stmt.append).map (Line.mk 0)) =
      Expr.replacementsAll table es := by
    induction es with
    | nil => rfl
    | cons e es ih => simpa [Stmt.replacements] using ih
  cases collection <;> simp [Piece.replacements, ofFragments, hstmts, -List.map_map]

/-- The pieces of a run replace nothing. -/
theorem replacements_ofRun (collection : Collection) (table : List (Option Node)) (k : Nat)
    (run : List (Option Node)) :
    Piece.replacements table (collection.ofRun k run) = 0 := by
  have hstmts : Line.replacements table ((runStmts k run).map (Line.mk 0)) = 0 := by
    match run with
    | [] => rfl
    | [_] | _ :: _ :: _ => simp [runStmts, Stmt.replacements, Expr.replacements]
  have hrefs (j : Nat) : Expr.replacementsAll table (refsFrom j run.length) = 0 := by
    unfold refsFrom
    generalize List.range' j run.length = places
    induction places with
    | nil => rfl
    | cons i places ih => simpa [Expr.replacements] using ih
  cases collection <;> simp [Piece.replacements, ofRun, hstmts, hrefs, -List.map_map]

end Collection

/-! ## What is recorded

The loop records where a collector begins and how many lines a scope has,
and no choice. -/

namespace Compile

variable {collection : Collection} {d d' d'' : Draft} {s s' : Splice} {i count : Nat}

theorem choices_flush (c : Collector) (d : Draft) : (c.flush d).2.choices = d.choices := by
  have hfill : (c.fillEmpty d).2.choices = d.choices := by
    change ((if d.size = c.start then Drafting.emit .pass else pure ()) d).2.choices = _
    split <;> rfl
  have henclose (e : Draft) : (c.enclose e).2.choices = e.choices := by
    simp [Collector.enclose, Draft.choices, Event.isChoice]
  unfold Collector.flush
  cases c.collection with
  | generic => exact Drafting.choices_use _ _
  | command => exact hfill
  | rootCommand => exact (Drafting.choices_use _ _).trans ((henclose _).trans hfill)

namespace Splice

/-- A changed child leaves the record of its own choices. -/
theorem choices_step {child : Option Part} {es : List Expr}
    (hrun : exec (runChild child) d = (.ok (some es), d'))
    (hstep : exec (step collection count s (child, i)) d = (.ok s', d'')) :
    d''.choices = d'.choices := by
  have hopen : (s.open collection i count d').2.choices = d'.choices := by
    unfold Splice.open
    cases s.collector with
    | some c => rfl
    | none => simp [Draft.choices, Event.isChoice]
  have hadd (c : Collector) (e : Draft) : (s.add c es e).2.choices = e.choices := by
    simp only [add, Drafting.bind_apply, Drafting.takeFrom_apply, Collector.addStatic_apply,
      Drafting.appendLines_apply, Collector.addDynamic_apply, Drafting.get_apply,
      Drafting.pure_apply]
    rfl
  cases child with
  | none => simp [runChild] at hrun
  | some p =>
    have hnext := (exec_bind_of_ok hrun).symm.trans hstep
    simp only [exec_bind, exec_lift, Prod.mk.injEq] at hnext
    rw [← hnext.2, hadd, hopen]

end Splice

end Compile

/-! ## The loop -/

/-- Compiling a node tallies and only appends. -/
structure Compiler.Tallied (c : Compiler) (n : Node) : Prop where
  tallies : Tallies [] [n] (·.getD []) (c.part n).run
  appends : Keeps Draft.Appends (c.part n).run

namespace Compile

variable {c : Compiler} {collection : Collection} {base : List Line}

/-- **The tally of the loop** from draft `d₀` on. -/
structure Splice.Tallied (table : List (Option Node)) (collection : Collection)
    (base : List Line) (d₀ : Draft) (s : Splice) (d : Draft) (ns : List Node) (ps : List Piece)
    (since : List Line) : Prop where
  sound : s.Sound collection base d ps since
  tally : Tally table d₀ [] ns (Piece.allLines d.depth ps ++ since) (Piece.items ps) d
  items : collection ≠ .generic → Piece.items ps = []

namespace Splice

variable {d₀ d d' : Draft} {s s' : Splice} {ns : List Node} {ps : List Piece}
  {since : List Line} {child : Option Node} {i count : Nat}

theorem tallies_child (h : ∀ n, child = some n → c.Tallied n) :
    Tallies [] child.toList (·.getD []) (runChild (child.map c.part)) := by
  cases child with
  | none => exact .pure fun _ => rfl
  | some n => exact (h n rfl).tallies

/-- What is added for a child replaces what the lines and the fragments of
the child do. -/
theorem replacements_contribution (table : List (Option Node)) (collection : Collection)
    (depth k : Nat) (run : List (Option Node)) (since : List Line) (es : List Expr) :
    Line.replacements table (Piece.allLines depth (contribution collection k run since es)) +
        Expr.replacementsAll table (Piece.items (contribution collection k run since es)) =
      Line.replacements table since + Expr.replacementsAll table es := by
  have hrun := collection.replacements_ofRun table k run
  have hes := collection.replacements_ofFragments table es
  rw [Piece.replacements_eq depth] at hrun hes
  simp only [contribution, Piece.allLines_append, Piece.allLines_cons, Piece.items_append,
    Piece.items_emitted, Piece.lines, Line.replacements_append, Expr.replacementsAll_append]
  rw [← hes, add_add_add_comm, hrun, zero_add, add_assoc]

/-- **One child** tallies. -/
theorem Tallied.step (h : Tallied table collection base d₀ s d ns ps since)
    (hchild : ∀ n, child = some n → c.Tallied n)
    (hstep : exec (Splice.step collection count s (child.map c.part, i)) d = (.ok s', d')) :
    ∃ ps' since', Tallied table collection base d₀ s' d' (ns ++ child.toList) ps' since' := by
  rcases hrun : exec (runChild (child.map c.part)) d with ⟨e | r, d₁⟩
  · rw [step_error hrun] at hstep
    cases hstep
  obtain ⟨new, hlines, htally⟩ := tallies_child hchild table d r d₁ hrun
  have happends : d.Appends d₁ := by
    have hkeeps : Keeps Draft.Appends (runChild (child.map c.part)) :=
      keeps_runChild Draft.Appends.frame fun p hp => by
        obtain ⟨n, hn, rfl⟩ := Option.map_eq_some_iff.1 hp
        exact (hchild n hn).appends
    have hd := hkeeps d
    rwa [hrun] at hd
  have hdrop : d₁.lines.drop d.size = new := by rw [hlines, Draft.size, List.drop_left]
  have hvisit := h.sound.visit happends
  rw [hdrop] at hvisit
  have hall := htally.frame (Piece.items ps)
  rw [List.append_nil] at hall
  have hall := h.tally.append hall
  rw [← happends.depth] at hall
  cases r with
  | none =>
    rw [step_static hrun, Prod.mk.injEq, Except.ok.injEq] at hstep
    obtain ⟨rfl, rfl⟩ := hstep
    refine ⟨ps, since ++ new, ⟨hvisit.lines, hvisit.place, hvisit.collector⟩, ?_, h.items⟩
    simpa only [List.append_assoc, Option.getD_none, List.append_nil] using hall
  | some es =>
    have hchoices := choices_step hrun hstep
    obtain ⟨-, ⟨events, rfl⟩, hsound⟩ := step_dynamic hvisit hrun hstep
    refine ⟨_, [], hsound, hall.rearrange (List.prefix_append _ _) hchoices ?_, fun hc => ?_⟩
    -- the pieces stand in another order, and the run among them replaces nothing
    · have hadded := replacements_contribution table collection d₁.depth d₁.refs.length
        s.pending (since ++ new) es
      simp only [Piece.allLines_append, Piece.items_append, Line.replacements_append,
        Expr.replacementsAll_append, List.append_nil, Option.getD_some] at hadded ⊢
      rw [add_add_add_comm, hadded]
      ac_rfl
    · obtain ⟨hrun, hfragments⟩ := Collection.items_eq_nil hc d₁.refs.length s.pending es
      simp [contribution, h.items hc, hrun, hfragments]

/-- **The loop** tallies. -/
theorem Tallied.loop {children : List (Option Node × Nat)}
    (h : Tallied table collection base d₀ s d ns ps since)
    (hchildren : ∀ p ∈ children, ∀ n, p.1 = some n → c.Tallied n)
    (hloop : exec ((children.map (Prod.map (·.map c.part) id)).foldlM
      (Splice.step collection count) s) d = (.ok s', d')) :
    ∃ ps' since', Tallied table collection base d₀ s' d'
      (ns ++ (children.map Prod.fst).filterMap id) ps' since' := by
  induction children generalizing s d ns ps since with
  | nil =>
    cases hloop
    exact ⟨ps, since, by simpa using h⟩
  | cons child children ih =>
    rw [List.map_cons, List.foldlM_cons] at hloop
    obtain ⟨s₁, d₁, hstep, hrest⟩ := exec_bind_eq_ok hloop
    obtain ⟨ps₁, since₁, h₁⟩ := h.step (hchildren child List.mem_cons_self) hstep
    obtain ⟨ps', since', h'⟩ :=
      ih h₁ (fun p hp => hchildren p (List.mem_cons_of_mem _ hp)) hrest
    refine ⟨ps', since', ?_⟩
    have hnodes : ns ++ ((child :: children).map Prod.fst).filterMap id =
        ns ++ child.1.toList ++ (children.map Prod.fst).filterMap id := by
      rw [List.append_assoc, List.map_cons]
      cases child.1 <;> rfl
    rwa [hnodes]

end Splice

end Compile

/-! ## The finished sequence -/

/-- A block that would be empty has a line of its own, which replaces
nothing. -/
theorem replacements_filled (depth : Nat) (new : List Line) :
    Line.replacements table (filled depth new) = Line.replacements table new := by
  unfold filled
  split
  · rename_i hnil
    rw [hnil]
    rfl
  · rfl

/-- **The finished sequence** tallies. Commands are with those collected so
far, so there is nothing in hand for them. -/
theorem Tally.flush {collection : Collection} {base : List Line} {d₀ d d' : Draft}
    {ns : List Node} {all : List Piece} {r : Expr}
    (h : Tally table d₀ [] ns (Piece.allLines d.depth all) (Piece.items all) d)
    (hlines : d.lines = base ++ Piece.allLines d.depth all)
    (hitems : collection ≠ .generic → Piece.items all = [])
    (hflush : Collector.flush ⟨collection, base.length, Piece.items all⟩ d = (r, d')) :
    ∃ new, d'.lines = base ++ new ∧ Tally table d₀ [] ns new [r] d' ∧
      (collection = .command → r = .commands) := by
  have hchoices := choices_flush ⟨collection, base.length, Piece.items all⟩ d
  rw [hflush] at hchoices
  cases collection with
  | generic =>
    rw [Collector.flush_generic rfl, Prod.mk.injEq] at hflush
    obtain ⟨rfl, rfl⟩ := hflush
    refine ⟨_, (Drafting.lines_use _ _).trans hlines,
      h.rearrange (Drafting.prefix_use _ _) hchoices ?_, by simp⟩
    simp [Expr.replacements, Expr.replacedBy]
  | command =>
    rw [Collector.flush_command rfl hlines rfl, Prod.mk.injEq] at hflush
    obtain ⟨rfl, rfl⟩ := hflush
    refine ⟨_, rfl, h.rearrange (List.prefix_refl _) hchoices ?_, fun _ => rfl⟩
    simp [replacements_filled, hitems, Expr.replacements]
  | rootCommand =>
    obtain ⟨events, hrun⟩ := Collector.flush_rootCommand
      (c := ⟨.rootCommand, base.length, Piece.items all⟩) rfl hlines rfl
    rw [hrun, Prod.mk.injEq] at hflush
    obtain ⟨rfl, rfl⟩ := hflush
    have hrefs : ∀ d₁ : Draft, d₁.refs = d.refs → d.refs <+: (Drafting.use .children d₁).2.refs :=
      fun d₁ h₁ => h₁ ▸ Drafting.prefix_use _ d₁
    refine ⟨_, Drafting.lines_use _ _, h.rearrange (hrefs _ rfl) hchoices ?_, by simp⟩
    simp [replacements_filled, hitems, Expr.replacements, Expr.replacedBy, Stmt.replacements]

namespace Compile

variable {c : Compiler}

/-- **The end of the loop** tallies. -/
theorem Splice.Tallied.close {collection : Collection} {d₀ d d' : Draft} {s : Splice}
    {ns : List Node} {ps : List Piece} {since : List Line} {r : Option Expr}
    (h : Splice.Tallied table collection d₀.lines d₀ s d ns ps since)
    (hclose : s.close d = (r, d')) :
    ∃ new, d'.lines = d₀.lines ++ new ∧ Tally table d₀ [] ns new r.toList d' ∧
      (collection = .command → ∀ e ∈ r, e = .commands) := by
  by_cases hps : ps = []
  · rw [close_static h.sound hps, Prod.mk.injEq] at hclose
    obtain ⟨rfl, rfl⟩ := hclose
    have htally := h.tally
    have hlines := h.sound.lines
    rw [hps] at htally hlines
    exact ⟨since, by simpa using hlines, by simpa using htally, by simp⟩
  · rw [close_dynamic h.sound hps rfl, Drafting.map_apply, Prod.mk.injEq] at hclose
    obtain ⟨rfl, rfl⟩ := hclose
    have hrun := collection.replacements_ofRun table d.refs.length s.pending
    rw [Piece.replacements_eq d.depth] at hrun
    -- the last run stands behind the lines written since
    have hall : Tally table d₀ [] ns
        (Piece.allLines d.depth
          (ps ++ .emitted since :: collection.ofRun d.refs.length s.pending))
        (Piece.items (ps ++ .emitted since :: collection.ofRun d.refs.length s.pending))
        { d with refs := d.refs ++ s.pending } := by
      refine h.tally.rearrange (List.prefix_append _ _) rfl ?_
      simp only [Piece.allLines_append, Piece.allLines_cons, Piece.lines, Piece.items_append,
        Piece.items_emitted, Line.replacements_append, Expr.replacementsAll_append]
      rw [add_add_add_comm, add_assoc (Line.replacements table since), hrun, add_zero,
        add_right_comm]
    have hitems : collection ≠ .generic → Piece.items
        (ps ++ .emitted since :: collection.ofRun d.refs.length s.pending) = [] := fun hc => by
      simp [h.items hc, (Collection.items_eq_nil hc d.refs.length s.pending []).1]
    have hflush := Tally.flush (d := { d with
      lines := d₀.lines ++ Piece.allLines d.depth
        (ps ++ .emitted since :: collection.ofRun d.refs.length s.pending)
      refs := d.refs ++ s.pending })
      (hall.rearrange (List.prefix_refl _) rfl rfl) rfl hitems (Prod.mk.eta).symm
    simpa using hflush

section

variable (collection : Collection) (children : List (Option Node))
  (hchildren : ∀ n, some n ∈ children → c.Tallied n)

include hchildren

/-- **Splicing a sequence** tallies if compiling its children does. -/
theorem tally_splice (table : List (Option Node)) {d d' : Draft} {r : Option Expr}
    (hrun : exec (splice collection (children.map (·.map c.part))) d = (.ok r, d')) :
    ∃ new, d'.lines = d.lines ++ new ∧
      Tally table d [] (children.filterMap id) new r.toList d' ∧
      (collection = .command → ∀ e ∈ r, e = .commands) := by
  simp only [Compile.splice, exec_bind, exec_get, List.length_map, List.zipIdx_map] at hrun
  rcases hloop : exec (List.foldlM (Splice.step collection children.length) ⟨[], d.size, none⟩
    (children.zipIdx.map (Prod.map (·.map c.part) id))) d with ⟨e | s, d₁⟩
  · rw [hloop] at hrun
    cases hrun
  rw [hloop] at hrun
  have hstart : Splice.Tallied table collection d.lines d ⟨[], d.size, none⟩ d [] [] [] :=
    ⟨.start collection d, .idle (List.prefix_refl _) rfl (by simp), fun _ => rfl⟩
  obtain ⟨ps, since, h⟩ := hstart.loop
    (fun p hp n hn => hchildren n (hn ▸ List.fst_mem_of_mem_zipIdx hp)) hloop
  have hclose : s.close d₁ = (r, d') := by
    simp only [exec_lift, Prod.mk.injEq, Except.ok.injEq] at hrun
    exact Prod.ext hrun.1 hrun.2
  rw [List.nil_append, List.zipIdx_map_fst] at h
  exact h.close hclose

/-- **Splicing tallies**, with the finished sequence in hand. -/
theorem Tallies.splice :
    Tallies [] (children.filterMap id) Option.toList
      (Compile.splice collection (children.map (·.map c.part))) := by
  intro table d r d' hrun
  obtain ⟨new, hlines, htally, -⟩ := tally_splice collection children hchildren table hrun
  exact ⟨new, hlines, htally⟩

/-- A sequence of commands leaves nothing in hand. -/
theorem Tallies.splice_commands :
    Tallies [] (children.filterMap id) (fun _ => [])
      (Compile.splice .command (children.map (·.map c.part))) := by
  intro table d r d' hrun
  obtain ⟨new, hlines, htally, hcommands⟩ := tally_splice .command children hchildren table hrun
  refine ⟨new, hlines, htally.rearrange (List.prefix_refl _) rfl ?_⟩
  cases r with
  | none => rfl
  | some e => simp [hcommands rfl e rfl, Expr.replacements]

end

end Compile

end ScriptSplice
