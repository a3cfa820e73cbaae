import ScriptSplice.Proofs.Compile.Decision
import ScriptSplice.Proofs.Compile.Frame
/-!
# The splicing loop

Splicing compiles the children of a sequence in order and moves a part of
the buffer about as it goes. `Splice.Sound` is its invariant: behind what
was in the buffer before come the pieces that changed children have
contributed so far, and behind these the lines that unchanged children
wrote since. A step keeps it (`step_static`, `step_dynamic`), and closing
adds the last run (`close_static`, `close_dynamic`).

`visits` lists what compiling each child did and `pieces` is the sequence
they make, read off the visits alone. A run of the loop (`Splice.Loop`)
goes through its visits and leaves exactly these pieces in the buffer.
-/

namespace ScriptSplice

open Compile

namespace Compile

/-- The work of compiling a child. An absent child stays as it is. -/
def runChild : Option Part → Compile Result
  | none => pure none
  | some p => p.run

theorem keeps_runChild {R : Draft → Draft → Prop} (hR : Frame R) {child : Option Part}
    (h : ∀ p, child = some p → Keeps R p.run) : Keeps R (runChild child) := by
  cases child with
  | none => exact hR.pure _
  | some p => exact h p rfl

namespace Splice

/-- **The invariant of the loop.** Behind `base` stand the pieces
contributed so far, and behind these the lines written since; there is a
collector as soon as there are pieces, and it holds their items. -/
structure Sound (collection : Collection) (base : List Line) (s : Splice) (d : Draft)
    (ps : List Piece) (since : List Line) : Prop where
  lines : d.lines = base ++ Piece.allLines d.depth ps ++ since
  place : s.place = (base ++ Piece.allLines d.depth ps).length
  collector : s.collector =
    if ps = [] then none else some ⟨collection, base.length, Piece.items ps⟩

/-- What a changed child contributes: the run before it, the lines written
since the last changed child, and its fragments. -/
def contribution (collection : Collection) (k : Nat) (run : List (Option Node))
    (since : List Line) (es : List Expr) : List Piece :=
  collection.ofRun k run ++ .emitted since :: collection.ofFragments es

/-- Nothing is contributed before the first child. -/
theorem Sound.start (collection : Collection) (d : Draft) :
    Sound collection d.lines ⟨[], d.size, none⟩ d [] [] :=
  ⟨by simp, by simp [Draft.size], rfl⟩

variable {collection : Collection} {base since : List Line} {ps : List Piece} {s : Splice}
  {count i : Nat} {child : Option Part} {d d' : Draft}

/-- A child adds its lines to those written since. -/
theorem Sound.visit (h : Sound collection base s d ps since) (hd : d.Appends d') :
    Sound collection base s d' ps (since ++ d'.lines.drop d.size) := by
  obtain ⟨new, hnew⟩ := hd.lines
  -- the child restores the depth, so the pieces have the same lines after it
  refine ⟨?_, by rw [hd.depth]; exact h.place, h.collector⟩
  rw [← hnew, Draft.size, List.drop_left, hd.depth, h.lines]
  simp

/-- A child that fails ends the loop. -/
theorem step_error {e : Failure} (hrun : exec (runChild child) d = (.error e, d')) :
    exec (step collection count s (child, i)) d = (.error e, d') := by
  cases child with
  | none => simp [runChild] at hrun
  | some p => exact exec_bind_of_error hrun

/-- A child that stays as it is joins the pending run. -/
theorem step_static (hrun : exec (runChild child) d = (.ok none, d')) :
    exec (step collection count s (child, i)) d =
      (.ok { s with pending := s.pending ++ [child.map (·.node)] }, d') := by
  cases child with
  | none =>
    rw [runChild, exec_pure, Prod.mk.injEq] at hrun
    rw [← hrun.2]
    rfl
  | some p => exact exec_bind_of_ok hrun

/-- What was written since goes behind the statement for the pending run,
and the fragments behind that. -/
theorem add_apply (h : Sound collection base s d ps since) (es : List Expr) :
    s.add ⟨collection, base.length, Piece.items ps⟩ es d =
      (⟨[], (base ++ Piece.allLines d.depth
          (ps ++ contribution collection d.refs.length s.pending since es)).length,
        some ⟨collection, base.length,
          Piece.items (ps ++ contribution collection d.refs.length s.pending since es)⟩⟩,
        { d with
          lines := base ++ Piece.allLines d.depth
            (ps ++ contribution collection d.refs.length s.pending since es)
          refs := d.refs ++ s.pending }) := by
  have htake : d.lines.take s.place = base ++ Piece.allLines d.depth ps := by
    rw [h.lines, h.place, List.take_left]
  have hdrop : d.lines.drop s.place = since := by
    rw [h.lines, h.place, List.drop_left]
  simp only [add, Drafting.bind_apply, Drafting.takeFrom_apply, Collector.addStatic_apply,
    Drafting.appendLines_apply, Collector.addDynamic_apply, Drafting.get_apply,
    Drafting.pure_apply, htake, hdrop]
  simp [contribution, Draft.size, Piece.lines]

/-- **A changed child** contributes its pieces, and the pending run moves
to the table. -/
theorem step_dynamic {es : List Expr} {s' : Splice} {d'' : Draft}
    (h : Sound collection base s d' ps since)
    (hrun : exec (runChild child) d = (.ok (some es), d'))
    (hstep : exec (step collection count s (child, i)) d = (.ok s', d'')) :
    s'.pending = [] ∧
      (∃ events, d'' = { d' with
        lines := base ++ Piece.allLines d'.depth
          (ps ++ contribution collection d'.refs.length s.pending since es)
        refs := d'.refs ++ s.pending
        events }) ∧
      Sound collection base s' d''
        (ps ++ contribution collection d'.refs.length s.pending since es) [] := by
  cases child with
  | none => simp [runChild] at hrun
  | some p =>
    -- making the collector leaves a note and nothing else
    have hopen : ∃ events, s.open collection i count d' =
        (⟨collection, base.length, Piece.items ps⟩, { d' with events }) := by
      unfold Splice.open
      by_cases hps : ps = []
      · have hplace : s.place = base.length := by simpa [hps] using h.place
        rw [h.collector, if_pos hps, hps]
        exact ⟨_, by rw [← hplace]; rfl⟩
      · rw [h.collector, if_neg hps]
        exact ⟨_, rfl⟩
    obtain ⟨events, hopen⟩ := hopen
    have hadd := add_apply (d := { d' with events }) ⟨h.lines, h.place, h.collector⟩ es
    have hstep' : exec (step collection count s (some p, i)) d = _ :=
      (exec_bind_of_ok hrun).trans (by simp only [exec_bind, exec_lift, hopen, hadd]; rfl)
    rw [hstep', Prod.mk.injEq, Except.ok.injEq] at hstep
    obtain ⟨rfl, rfl⟩ := hstep
    refine ⟨rfl, ⟨events, rfl⟩, by simp, rfl, ?_⟩
    rw [if_neg (by simp [contribution])]

/-- Nothing comes of a sequence that stays as it is. -/
theorem close_static (h : Sound collection base s d ps since) (hps : ps = []) :
    s.close d = (none, d) := by
  unfold close
  rw [h.collector, if_pos hps]
  rfl

/-- **The end of a changed sequence**: the last lines and the last run. -/
theorem close_dynamic (h : Sound collection base s d ps since) (hps : ps ≠ []) {all : List Piece}
    (hall : all = ps ++ .emitted since :: collection.ofRun d.refs.length s.pending) :
    s.close d =
      (some <$> Collector.flush ⟨collection, base.length, Piece.items all⟩)
        { d with lines := base ++ Piece.allLines d.depth all, refs := d.refs ++ s.pending } := by
  unfold close
  rw [h.collector, if_neg hps, hall]
  simp [Collector.addStatic_apply, h.lines, Piece.lines]

end Splice

/-! ## Visits -/

/-- What compiling one child of a sequence did. -/
structure Visit where
  /-- The child, which may be absent. -/
  node : Option Node
  before : Draft
  after : Draft
  result : Result

namespace Visit

/-- The lines written while the child was compiled. -/
def lines (v : Visit) : List Line := v.after.lines.drop v.before.size

/-- Whether the child stays as it is. -/
def isStatic (v : Visit) : Bool := v.result.isNone

/-- The lines of a child that only appends are behind those there were. -/
theorem lines_append (v : Visit) (h : v.before.Appends v.after) :
    v.before.lines ++ v.lines = v.after.lines := by
  obtain ⟨new, hnew⟩ := h.lines
  rw [lines, ← hnew, Draft.size, List.drop_left]

end Visit

/-- The visits of the loop from one state on, up to a child that fails. -/
def Splice.visits (collection : Collection) (count : Nat) :
    Splice → Draft → List (Option Part × Nat) → List Visit
  | _, _, [] => []
  | s, d, child :: children =>
    match exec (runChild child.1) d with
    | (.error _, _) => []
    | (.ok r, after) =>
      ⟨child.1.map (·.node), d, after, r⟩ ::
        match exec (step collection count s child) d with
        | (.error _, _) => []
        | (.ok s', d') => visits collection count s' d' children

/-- What compiling each child of a sequence did, in order. -/
def visits (collection : Collection) (parts : List (Option Part)) (d : Draft) : List Visit :=
  Splice.visits collection parts.length ⟨[], d.size, none⟩ d parts.zipIdx

/-- **The pieces of a sequence**, from one visit on: `run` and `since` are
the children and the lines since the last changed child, and `k` is the
number of references. -/
def pieces (collection : Collection) (run : List (Option Node)) (since : List Line) (k : Nat) :
    List Visit → List Piece
  | [] => .emitted since :: collection.ofRun k run
  | v :: vs =>
    match v.result with
    | none =>
      pieces collection (run ++ [v.node]) (since ++ v.lines) v.after.refs.length vs
    | some es =>
      Splice.contribution collection v.after.refs.length run (since ++ v.lines) es ++
        pieces collection [] [] (v.after.refs.length + run.length) vs

/-! ## Runs of the loop -/

/-- The loop goes from one state to another over some children, with what
each visit did. -/
inductive Splice.Loop (collection : Collection) (count : Nat) :
    Splice → Draft → List (Option Part × Nat) → List Visit → Splice → Draft → Prop
  | nil {s : Splice} {d : Draft} : Loop collection count s d [] [] s d
  | static {s s' : Splice} {d d₁ d' : Draft} {child : Option Part} {i : Nat}
      {children : List (Option Part × Nat)} {vs : List Visit} :
      exec (runChild child) d = (.ok none, d₁) →
      Loop collection count { s with pending := s.pending ++ [child.map (·.node)] } d₁
        children vs s' d' →
      Loop collection count s d ((child, i) :: children)
        (⟨child.map (·.node), d, d₁, none⟩ :: vs) s' d'
  | dynamic {s s₂ s' : Splice} {d d₁ d₂ d' : Draft} {child : Option Part} {i : Nat}
      {children : List (Option Part × Nat)} {vs : List Visit} {es : List Expr} :
      exec (runChild child) d = (.ok (some es), d₁) →
      exec (step collection count s (child, i)) d = (.ok s₂, d₂) →
      Loop collection count s₂ d₂ children vs s' d' →
      Loop collection count s d ((child, i) :: children)
        (⟨child.map (·.node), d, d₁, some es⟩ :: vs) s' d'

namespace Splice

variable {collection : Collection} {count : Nat} {children : List (Option Part × Nat)}
  {vs : List Visit} {base since : List Line} {ps : List Piece} {s s' : Splice} {d d' : Draft}

/-- After a changed child the step succeeds. -/
theorem exists_step_dynamic (collection : Collection) (count : Nat) (s : Splice) (i : Nat)
    {child : Option Part} {es : List Expr} {d₁ : Draft}
    (hrun : exec (runChild child) d = (.ok (some es), d₁)) :
    ∃ s₂ d₂, exec (step collection count s (child, i)) d = (.ok s₂, d₂) := by
  cases child with
  | none => simp [runChild] at hrun
  | some p => exact ⟨_, _, exec_bind_of_ok hrun⟩

/-- That step only moves lines and puts the pending run into the table. -/
theorem step_only {i : Nat} {child : Option Part} {es : List Expr} {d₁ d₂ : Draft}
    (hrun : exec (runChild child) d = (.ok (some es), d₁))
    (hstep : exec (step collection count s (child, i)) d = (.ok s', d₂)) :
    ∃ lines refs events, d₂ = { d₁ with lines, refs, events } := by
  cases child with
  | none => simp [runChild] at hrun
  | some p =>
    have hadd := (exec_bind_of_ok hrun).symm.trans hstep
    cases hc : s.collector <;>
      simp only [Splice.open, hc, exec_bind, exec_lift, Prod.mk.injEq] at hadd <;>
      rw [← hadd.2, Splice.add] <;>
      simp only [Drafting.bind_apply, Drafting.takeFrom_apply, Collector.addStatic_apply,
        Drafting.appendLines_apply, Collector.addDynamic_apply, Drafting.get_apply,
        Drafting.pure_apply, Drafting.note_apply] <;>
      exact ⟨_, _, _, rfl⟩

/-- **The loop runs through its visits**, unless a child fails, and then
there are fewer visits than children. -/
theorem loop_visits (collection : Collection) (count : Nat)
    (children : List (Option Part × Nat)) (s : Splice) (d : Draft) :
    match exec (children.foldlM (step collection count) s) d with
    | (.error _, _) => (visits collection count s d children).length < children.length
    | (.ok s', d') =>
      Loop collection count s d children (visits collection count s d children) s' d' := by
  induction children generalizing s d with
  | nil => exact .nil
  | cons child children ih =>
    obtain ⟨child, i⟩ := child
    rw [List.foldlM_cons, exec_bind, visits]
    rcases hrun : exec (runChild child) d with ⟨e | _ | es, d₁⟩
    -- a child that fails ends the loop, and is not among the visits
    · rw [step_error hrun]
      exact Nat.zero_lt_succ _
    · rw [step_static hrun]
      have hrest := ih { s with pending := s.pending ++ [child.map (·.node)] } d₁
      rcases hloop : exec (children.foldlM (step collection count)
        { s with pending := s.pending ++ [child.map (·.node)] }) d₁ with ⟨e | s', d'⟩ <;>
        simp only [hloop] at hrest ⊢
      · exact Nat.succ_lt_succ hrest
      · exact .static hrun hrest
    · obtain ⟨s₂, d₂, hstep⟩ := exists_step_dynamic collection count s i hrun
      rw [hstep]
      have hrest := ih s₂ d₂
      rcases hloop : exec (children.foldlM (step collection count) s₂) d₂ with ⟨e | s', d'⟩ <;>
        simp only [hloop] at hrest ⊢
      · exact Nat.succ_lt_succ hrest
      · exact .dynamic hrun hstep hrest

end Splice

namespace Splice.Loop

variable {collection : Collection} {count : Nat} {children : List (Option Part × Nat)}
  {vs : List Visit} {base since : List Line} {ps : List Piece} {s s' : Splice} {d d' : Draft}

/-- Every child is visited, in order. -/
theorem nodes (h : Loop collection count s d children vs s' d') :
    vs.map (·.node) = children.map fun c => c.1.map (·.node) := by
  induction h with
  | nil => rfl
  | static _ _ ih => exact congrArg (_ :: ·) ih
  | dynamic _ _ _ ih => exact congrArg (_ :: ·) ih

/-- There is a collector as soon as a child changes. -/
theorem collector_eq_none (h : Loop collection count s d children vs s' d') :
    s'.collector = none ↔ s.collector = none ∧ ∀ v ∈ vs, v.isStatic := by
  induction h with
  | nil => simp
  | static _ _ ih => simpa [Visit.isStatic] using ih
  | @dynamic s s₂ s' d d₁ d₂ d' child i children vs es hrun hstep _ ih =>
    have hs₂ : s₂.collector ≠ none := by
      cases child with
      | none => simp [runChild] at hrun
      | some p =>
        have hopen := (exec_bind_of_ok hrun).symm.trans hstep
        simp only [exec_bind, exec_lift, Prod.mk.injEq, Except.ok.injEq] at hopen
        rw [← hopen.1]
        simp [add]
    simp [ih, hs₂, Visit.isStatic]

/-- All visits are static if all children are, for a way to tell which
children are. -/
theorem all_static_iff {static : Option Part → Prop}
    (h : Loop collection count s d children vs s' d')
    (hstatic : ∀ c ∈ children, Yields (runChild c.1) fun r => r = none ↔ static c.1) :
    (∀ v ∈ vs, v.isStatic) ↔ ∀ c ∈ children, static c.1 := by
  induction h with
  | nil => simp
  | static hrun _ ih =>
    have hhead := (hstatic _ List.mem_cons_self _ _ _ hrun).1 rfl
    rw [List.forall_mem_cons, List.forall_mem_cons,
      ih fun c hc => hstatic c (List.mem_cons_of_mem _ hc)]
    exact and_congr_left' (iff_of_true rfl hhead)
  | dynamic hrun _ _ ih =>
    have hhead := mt (hstatic _ List.mem_cons_self _ _ _ hrun).2 (by simp)
    rw [List.forall_mem_cons, List.forall_mem_cons,
      ih fun c hc => hstatic c (List.mem_cons_of_mem _ hc)]
    exact and_congr_left' (iff_of_false (by simp [Visit.isStatic]) hhead)

/-- A visit is what compiling its child does. -/
theorem visited {part : Node → Part} (h : Loop collection count s d children vs s' d')
    (hparts : ∀ c ∈ children, (c.1.map (·.node)).map part = c.1) :
    ∀ v ∈ vs, exec (runChild (v.node.map part)) v.before = (.ok v.result, v.after) := by
  induction h with
  | nil => simp
  | static hrun _ ih | dynamic hrun _ _ ih =>
    have hrest := ih fun c hc => hparts c (List.mem_cons_of_mem _ hc)
    refine List.forall_mem_cons.2 ⟨?_, hrest⟩
    rw [hparts _ List.mem_cons_self]
    exact hrun

/-- If no child changes, the loop does nothing but compile the children. -/
theorem static_run (h : Loop collection count s d children vs s' d')
    (hstatic : ∀ v ∈ vs, v.isStatic) :
    s' = { s with pending := s.pending ++ vs.map (·.node) } ∧
      exec ((children.map Prod.fst).mapM runChild) d = (.ok (vs.map (·.result)), d') := by
  induction h with
  | nil => exact ⟨by simp, rfl⟩
  | static hrun _ ih =>
    obtain ⟨hs, hmap⟩ := ih fun v hv => hstatic v (List.mem_cons_of_mem _ hv)
    refine ⟨by simpa using hs, ?_⟩
    rw [List.map_cons, List.mapM_cons, exec_bind_of_ok hrun, exec_bind_of_ok hmap]
    rfl
  | dynamic => exact absurd (hstatic _ List.mem_cons_self) (by simp [Visit.isStatic])

/-- A child of a sequence whose children only append does so too. -/
theorem appends_child {c : Option Part × Nat} {r : Except Failure Result}
    (hkeeps : ∀ p, c.1 = some p → Keeps Draft.Appends p.run)
    (hrun : exec (runChild c.1) d = (r, d')) : d.Appends d' := by
  have hchild := keeps_runChild Draft.Appends.frame hkeeps d
  rwa [hrun] at hchild

variable (hkeeps : ∀ c ∈ children, ∀ p, c.1 = some p → Keeps Draft.Appends p.run)

include hkeeps

theorem appends_visit (h : Loop collection count s d children vs s' d') :
    ∀ v ∈ vs, v.before.Appends v.after := by
  induction h with
  | nil => simp
  | static hrun _ ih | dynamic hrun _ _ ih =>
    have hrest := ih fun c hc => hkeeps c (List.mem_cons_of_mem _ hc)
    exact List.forall_mem_cons.2 ⟨appends_child (hkeeps _ List.mem_cons_self) hrun, hrest⟩

/-- If no child changes, the lines of the children are behind one another. -/
theorem static_lines (h : Loop collection count s d children vs s' d')
    (hstatic : ∀ v ∈ vs, v.isStatic) : d'.lines = d.lines ++ vs.flatMap Visit.lines := by
  induction h with
  | nil => simp
  | @static s s' d d₁ d' child i children vs hrun _ ih =>
    have hvisit := Visit.lines_append ⟨child.map (·.node), d, d₁, none⟩
      (appends_child (hkeeps _ List.mem_cons_self) hrun)
    rw [ih (fun c hc => hkeeps c (List.mem_cons_of_mem _ hc))
      fun v hv => hstatic v (List.mem_cons_of_mem _ hv), List.flatMap_cons, ← List.append_assoc,
      hvisit]
  | dynamic => exact absurd (hstatic _ List.mem_cons_self) (by simp [Visit.isStatic])

/-- **A run of the loop keeps the invariant**, and what it contributed is
the pieces of its visits, less the last run. -/
theorem sound (h : Loop collection count s d children vs s' d')
    (hs : s.Sound collection base d ps since) :
    ∃ ps' since', s'.Sound collection base d' (ps ++ ps') since' ∧
      d'.depth = d.depth ∧ d.refs <+: d'.refs ∧
      pieces collection s.pending since d.refs.length vs =
        ps' ++ .emitted since' :: collection.ofRun d'.refs.length s'.pending ∧
      (ps' = [] ↔ ∀ v ∈ vs, v.isStatic) := by
  induction h generalizing ps since with
  | nil => exact ⟨[], since, by simpa using hs, rfl, List.prefix_refl _, rfl, by simp⟩
  | static hrun _ ih =>
    have happends := appends_child (hkeeps _ List.mem_cons_self) hrun
    have hvisit := hs.visit happends
    obtain ⟨ps', since', hs', hdepth, hrefs, hpieces, hstatic⟩ :=
      ih (fun c hc => hkeeps c (List.mem_cons_of_mem _ hc))
        ⟨hvisit.lines, hvisit.place, hvisit.collector⟩
    refine ⟨ps', since', hs', hdepth.trans happends.depth, happends.refs.trans hrefs, hpieces, ?_⟩
    simpa [Visit.isStatic] using hstatic
  | @dynamic s s₂ s' d d₁ d₂ d' child i children vs es hrun hstep _ ih =>
    have happends := appends_child (hkeeps _ List.mem_cons_self) hrun
    obtain ⟨hpending, ⟨events, hd₂⟩, hs₂⟩ := step_dynamic (hs.visit happends) hrun hstep
    obtain ⟨ps', since', hs', hdepth, hrefs, hpieces, -⟩ :=
      ih (fun c hc => hkeeps c (List.mem_cons_of_mem _ hc)) hs₂
    -- the pending run is in the table now, and the rest is numbered behind it
    have hrefs₂ : d₂.refs = d₁.refs ++ s.pending := by rw [hd₂]
    refine ⟨contribution collection d₁.refs.length s.pending (since ++ d₁.lines.drop d.size) es ++
      ps', since', by rwa [← List.append_assoc], ?_, ?_, ?_, ?_⟩
    · rw [hdepth, hd₂, happends.depth]
    · exact happends.refs.trans ((List.prefix_append _ _).trans (hrefs₂ ▸ hrefs))
    · rw [List.append_assoc, ← hpieces, hpending, hrefs₂, List.length_append]
      rfl
    · simp [contribution, Visit.isStatic]

end Splice.Loop

/-- **Splicing is a run of the loop** and its close, unless a child fails. -/
theorem splice_visits (collection : Collection) (parts : List (Option Part)) (d : Draft) :
    match exec (splice collection parts) d with
    | (.error _, _) => (visits collection parts d).length < parts.length
    | (.ok r, d') => ∃ s d₁, s.close d₁ = (r, d') ∧
      Splice.Loop collection parts.length ⟨[], d.size, none⟩ d parts.zipIdx
        (visits collection parts d) s d₁ := by
  have hloop := Splice.loop_visits collection parts.length parts.zipIdx ⟨[], d.size, none⟩ d
  simp only [splice, exec_bind, exec_get]
  rcases hrun : exec (parts.zipIdx.foldlM (Splice.step collection parts.length)
    ⟨[], d.size, none⟩) d with ⟨e | s, d₁⟩ <;> simp only [hrun] at hloop ⊢
  · rwa [List.length_zipIdx] at hloop
  · exact ⟨s, d₁, rfl, hloop⟩

private theorem forall_zipIdx {α : Type} {P : α → Prop} (l : List α) :
    (∀ c ∈ l.zipIdx, P c.1) ↔ ∀ a ∈ l, P a := by
  have hmap : (∀ a ∈ l.zipIdx.map Prod.fst, P a) ↔ ∀ c ∈ l.zipIdx, P c.1 := List.forall_mem_map
  rw [← hmap, List.zipIdx_map_fst]

/-- A sequence stays as it is if all its children do. -/
theorem yields_splice {static : Option Part → Prop} (collection : Collection)
    {parts : List (Option Part)}
    (h : ∀ p ∈ parts, Yields (runChild p) fun r => r = none ↔ static p) :
    Yields (splice collection parts) fun r => r = none ↔ ∀ p ∈ parts, static p := by
  intro d r d' hrun
  have hsplice := splice_visits collection parts d
  rw [hrun] at hsplice
  obtain ⟨s, d₁, hclose, hloop⟩ := hsplice
  rw [← forall_zipIdx, ← hloop.all_static_iff ((forall_zipIdx _).2 h)]
  have hcollector := hloop.collector_eq_none
  simp only [true_and] at hcollector
  have hr : (s.close d₁).1 = r := by rw [hclose]
  rw [← hcollector, ← hr]
  unfold Splice.close
  cases s.collector <;> simp

theorem silent_loop (collection : Collection) (count : Nat) (children : List (Option Part × Nat))
    (h : ∀ c ∈ children, Silent (runChild c.1) none) (s : Splice) :
    Silent (children.foldlM (Splice.step collection count) s)
      { s with pending := s.pending ++ children.map fun c => c.1.map (·.node) } := by
  induction children generalizing s with
  | nil => simpa using Silent.pure s
  | cons c children ih =>
    have hrest := ih (fun c hc => h c (List.mem_cons_of_mem _ hc))
      { s with pending := s.pending ++ [c.1.map (·.node)] }
    rw [List.append_assoc] at hrest
    intro d
    obtain ⟨events, hrun⟩ := h c List.mem_cons_self d
    rw [List.foldlM_cons, exec_bind_of_ok (Splice.step_static hrun)]
    exact hrest _

/-- Splicing children that leave nothing leaves nothing. -/
theorem silent_splice (collection : Collection) {parts : List (Option Part)}
    (h : ∀ p ∈ parts, Silent (runChild p) none) : Silent (splice collection parts) none := by
  intro d
  obtain ⟨events, hloop⟩ := silent_loop collection parts.length parts.zipIdx
    ((forall_zipIdx _).2 h) ⟨[], d.size, none⟩ d
  exact ⟨events, exec_bind_of_ok hloop⟩

end Compile

end ScriptSplice
