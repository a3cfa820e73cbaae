import ScriptSplice.Proofs.Compile.Loop
import ScriptSplice.Proofs.Compile.Twin
/-!
# Splicing in twin runs

A sequence of children and its twin go through the loop in step. The
buffers differ by marks, so the places from which lines move are not the
same; but each place is where the pieces contributed so far end
(`Splice.Sound`), and these are the same but for marks (`Piece.Twins`).
When it comes to `pass`, a block that holds marks holds a statement as
well, so both runs find their block empty or neither does.
-/

namespace ScriptSplice

open Compile

variable {V : Vocabulary} {depth : Nat}

/-- Pieces and what is left of them without marks. -/
structure Piece.Twins (V : Vocabulary) (depth : Nat) (ps ps' : List Piece) : Prop where
  nil_iff : ps' = [] ↔ ps = []
  blocks : Blocks V depth (Piece.allLines depth ps)
  lines : Piece.allLines depth ps' = Line.unmarkedAll (Piece.allLines depth ps)
  items : Expr.Twins V (Piece.items ps) (Piece.items ps')

/-! ## Pieces -/

theorem Expr.Twins.append {es es' fs fs' : List Expr} (h : Twins V es es')
    (h' : Twins V fs fs') : Twins V (es ++ fs) (es' ++ fs') :=
  ⟨List.forall_mem_append.2 ⟨h.isOver, h'.isOver⟩, by rw [h.eq, h'.eq, List.map_append]⟩

namespace Piece.Twins

variable {ps ps' qs qs' : List Piece}

theorem nil : Twins V depth [] [] := ⟨Iff.rfl, .nil, rfl, .nil⟩

theorem append (h : Twins V depth ps ps') (h' : Twins V depth qs qs') :
    Twins V depth (ps ++ qs) (ps' ++ qs') := by
  refine ⟨?_, ?_, ?_, ?_⟩
  · rw [List.append_eq_nil_iff, List.append_eq_nil_iff, h.nil_iff, h'.nil_iff]
  · rw [allLines_append]
    exact h.blocks.append h'.blocks
  · rw [allLines_append, allLines_append, Line.unmarkedAll_append, h.lines, h'.lines]
  · rw [items_append, items_append]
    exact h.items.append h'.items

/-- Lines that a child wrote. -/
theorem emitted {ls : List Line} (h : Blocks V depth ls) :
    Twins V depth [.emitted ls] [.emitted (Line.unmarkedAll ls)] := by
  refine ⟨by simp, ?_, by simp [Piece.lines], .nil⟩
  simpa [Piece.lines] using h

/-- Items of a sequence that is an expression. -/
theorem of_items {es es' : List Expr} (h : Expr.Twins V es es') :
    Twins V depth (es.map .item) (es'.map .item) := by
  refine ⟨by simp [h.eq], ?_, by simp, ?_⟩
  · rw [allLines_items]
    exact .nil
  · rwa [items_items, items_items]

/-- Statements of the collector. -/
theorem of_stmts {stmts : List Stmt} (h : ∀ s ∈ stmts, s.Over V ∧ s.isHeader = false) :
    Twins V depth (stmts.map .stmt) ((stmts.map Stmt.unmarked).map .stmt) := by
  have hmarks : Line.statements (stmts.map (Line.mk depth)) = stmts.map (Line.mk depth) := by
    refine List.filter_eq_self.2 fun l hl => ?_
    obtain ⟨s, hs, rfl⟩ := List.mem_map.1 hl
    simp [(h s hs).1.isMark]
  refine ⟨by simp, ?_, ?_, ?_⟩
  · rw [allLines_stmts]
    exact .of_stmts h
  · rw [allLines_stmts, allLines_stmts, Line.unmarkedAll, hmarks, List.map_map, List.map_map]
    rfl
  · rw [items_stmts, items_stmts]
    exact .nil

/-- A run of unchanged children. -/
theorem ofRun (collection : Collection) (k : Nat) (run : List (Option Node)) :
    Twins V depth (collection.ofRun k run)
      (collection.ofRun k (run.map (·.map Node.unlocated))) := by
  have hstmts : Twins V depth ((runStmts k run).map .stmt)
      ((runStmts k (run.map (·.map Node.unlocated))).map .stmt) := by
    have hunmarked : runStmts k (run.map (·.map Node.unlocated)) =
        (runStmts k run).map Stmt.unmarked := by
      rcases run with _ | ⟨n, _ | ⟨m, run⟩⟩
      · rfl
      · rfl
      · simp [runStmts, Stmt.unmarked, Expr.unmarked]
    rw [hunmarked]
    refine of_stmts fun s hs => ?_
    rcases run with _ | ⟨n, _ | ⟨m, run⟩⟩
    · cases hs
    · obtain rfl := List.mem_singleton.1 hs
      exact ⟨.append (.ref k), rfl⟩
    · obtain rfl := List.mem_singleton.1 hs
      exact ⟨.extend (.slice k _), rfl⟩
  cases collection with
  | generic =>
    rw [Collection.ofRun, Collection.ofRun, List.length_map]
    refine of_items ⟨fun e he => ?_, ?_⟩
    · obtain ⟨i, -, rfl⟩ := List.mem_map.1 he
      exact .ref i
    · rw [refsFrom, List.map_map]
      rfl
  | command => exact hstmts
  | rootCommand => exact hstmts

/-- The fragments of a changed child. -/
theorem ofFragments (collection : Collection) {es es' : List Expr} (h : Expr.Twins V es es') :
    Twins V depth (collection.ofFragments es) (collection.ofFragments es') := by
  have hstmts : Twins V depth ((es.map Stmt.append).map .stmt)
      ((es'.map Stmt.append).map .stmt) := by
    have hunmarked : es'.map Stmt.append = (es.map Stmt.append).map Stmt.unmarked := by
      rw [h.eq, List.map_map, List.map_map]
      rfl
    rw [hunmarked]
    refine of_stmts fun s hs => ?_
    obtain ⟨e, he, rfl⟩ := List.mem_map.1 hs
    exact ⟨.append (h.isOver e he), rfl⟩
  cases collection with
  | generic => exact of_items h
  | command => exact hstmts
  | rootCommand => exact hstmts

/-- **Both blocks are filled or neither is.** -/
theorem filled (h : Twins V depth ps ps') :
    Blocks V depth (filled depth (allLines depth ps)) ∧
      ScriptSplice.filled depth (allLines depth ps') =
        Line.unmarkedAll (ScriptSplice.filled depth (allLines depth ps)) := by
  have hempty : Line.unmarkedAll (allLines depth ps) = [] ↔ allLines depth ps = [] := by
    rw [Line.unmarkedAll, List.map_eq_nil_iff, h.blocks.statements_eq_nil]
  by_cases hnil : allLines depth ps = []
  · rw [h.lines, ScriptSplice.filled, ScriptSplice.filled, if_pos hnil, if_pos (hempty.2 hnil)]
    exact ⟨.single .pass rfl, rfl⟩
  · rw [h.lines, ScriptSplice.filled, ScriptSplice.filled, if_neg hnil,
      if_neg (mt hempty.1 hnil)]
    exact ⟨h.blocks, rfl⟩

end Piece.Twins

theorem filled_ne_nil (depth : Nat) (ls : List Line) : filled depth ls ≠ [] := by
  unfold filled
  split
  · exact List.cons_ne_nil _ _
  · assumption

/-! ## The loop -/

namespace Compile

variable {collection : Collection} {base : List Line} {part part' : Node → Part}

/-- States of twin loops. -/
structure Splice.Twin (V : Vocabulary) (collection : Collection) (base : List Line)
    (s : Splice) (d : Draft) (s' : Splice) (d' : Draft) (ps ps' : List Piece)
    (since : List Line) : Prop where
  sound : s.Sound collection base d ps since
  sound' : s'.Sound collection (Line.unmarkedAll base) d' ps' (Line.unmarkedAll since)
  drafts : d.Twin d'
  pending : s'.pending = s.pending.map (·.map Node.unlocated)
  pieces : Piece.Twins V d.depth ps ps'
  blocks : Blocks V d.depth since

/-- Outcomes of twin loops at a depth: both are in twin states, or both
failed for the same cause. -/
inductive Splice.Outcome (V : Vocabulary) (collection : Collection) (depth : Nat)
    (base : List Line) : Except Failure Splice × Draft → Except Failure Splice × Draft → Prop
  | ok {s s' : Splice} {d d' : Draft} {ps ps' : List Piece} {since : List Line} :
      d.depth = depth → Twin V collection base s d s' d' ps ps' since →
      Outcome V collection depth base (.ok s, d) (.ok s', d')
  | error {f f' : Failure} {d d' : Draft} : f'.cause = f.cause →
      Outcome V collection depth base (.error f, d) (.error f', d')

/-- A part and its twin run alike, and only append. -/
structure TwinParts (V : Vocabulary) (part part' : Node → Part) (n : Node) : Prop where
  node : (part n).node = n
  node' : (part' n).node = n.unlocated
  fields : (part n).fields = Fields.map part n.fields
  fields' : (part' n).fields = Fields.map part' n.fields
  run (depth : Nat) : Alike V depth (Result.Twin V) (part n).run (part' n).run
  appends : Keeps Draft.Appends (part n).run
  appends' : Keeps Draft.Appends (part' n).run

namespace Splice

variable {s s' : Splice} {d d' : Draft} {ps ps' : List Piece} {since : List Line}

section Child

variable {child : Option Node}

theorem node_twin (hparts : ∀ n, child = some n → TwinParts V part part' n) :
    (child.map part').map (·.node) = ((child.map part).map (·.node)).map Node.unlocated := by
  cases child with
  | none => rfl
  | some n => simp [(hparts n rfl).node, (hparts n rfl).node']

theorem appends_runChild (hparts : ∀ n, child = some n → Keeps Draft.Appends (part n).run)
    (d : Draft) : d.Appends (exec (runChild (child.map part)) d).2 :=
  keeps_runChild Draft.Appends.frame (fun p hp => by
    obtain ⟨n, hn, rfl⟩ := Option.map_eq_some_iff.1 hp
    exact hparts n hn) d

theorem twin_runChild (hparts : ∀ n, child = some n → TwinParts V part part' n)
    (hdrafts : d.Twin d') :
    Compile.Outcome V d (fun _ => Result.Twin V)
      (exec (runChild (child.map part)) d) (exec (runChild (child.map part')) d') := by
  cases child with
  | none => exact Writes.pure (Q := fun _ => Result.Twin V) .none d d' rfl hdrafts
  | some n => exact (hparts n rfl).run d.depth d d' rfl hdrafts

/-- **One child** takes twin states to twin states. -/
theorem twin_step (h : Twin V collection base s d s' d' ps ps' since)
    (hparts : ∀ n, child = some n → TwinParts V part part' n) (count count' i : Nat) :
    Outcome V collection d.depth base
      (exec (step collection count s (child.map part, i)) d)
      (exec (step collection count' s' (child.map part', i)) d') := by
  have hrun := twin_runChild hparts h.drafts
  have happends := appends_runChild (fun n hn => (hparts n hn).appends) d
  have happends' := appends_runChild (fun n hn => (hparts n hn).appends') d'
  generalize hx : exec (runChild (child.map part)) d = x at hrun happends
  generalize hy : exec (runChild (child.map part')) d' = y at hrun happends'
  cases hrun with
  | error hcause =>
    rw [step_error hx, step_error hy]
    exact .error hcause
  | @ok r r' new e e' hlines hblocks hdepth htwin hr =>
    -- what the child wrote joins the lines since the last changed child
    have hvisit := h.sound.visit happends
    have hvisit' := h.sound'.visit happends'
    have hnew : e.lines.drop d.size = new := by rw [hlines, Draft.size, List.drop_left]
    have hnew' : e'.lines.drop d'.size = Line.unmarkedAll new := by
      rw [htwin.lines, hlines, Line.unmarkedAll_append, ← h.drafts.lines, Draft.size,
        List.drop_left]
    rw [hnew] at hvisit
    rw [hnew'] at hvisit'
    have hsince : Blocks V e.depth (since ++ new) := by
      rw [hdepth]
      exact h.blocks.append hblocks
    cases hr with
    | none =>
      rw [step_static hx, step_static hy]
      rw [← Line.unmarkedAll_append] at hvisit'
      refine .ok hdepth ⟨⟨hvisit.lines, hvisit.place, hvisit.collector⟩,
        ⟨hvisit'.lines, hvisit'.place, hvisit'.collector⟩, htwin, ?_, hdepth ▸ h.pieces, hsince⟩
      rw [h.pending, node_twin hparts, List.map_append, List.map_singleton]
    | @some es es' hes =>
      obtain ⟨s₂, d₂, hstep⟩ := exists_step_dynamic collection count s i hx
      obtain ⟨s₂', d₂', hstep'⟩ := exists_step_dynamic collection count' s' i hy
      obtain ⟨hpending, ⟨events, rfl⟩, hs₂⟩ := step_dynamic hvisit hx hstep
      obtain ⟨hpending', ⟨events', rfl⟩, hs₂'⟩ := step_dynamic hvisit' hy hstep'
      rw [hstep, hstep']
      have hpieces : Piece.Twins V e.depth
          (ps ++ contribution collection e.refs.length s.pending (since ++ new) es)
          (ps' ++ contribution collection e'.refs.length s'.pending
            (Line.unmarkedAll since ++ Line.unmarkedAll new) es') := by
        rw [h.pending, htwin.refs_length, ← Line.unmarkedAll_append]
        refine (hdepth ▸ h.pieces).append ((Piece.Twins.ofRun collection _ _).append ?_)
        exact (Piece.Twins.emitted hsince).append (.ofFragments collection hes)
      refine .ok hdepth ⟨hs₂, hs₂', ⟨htwin.depth, ?_, ?_, htwin.helpers, htwin.fresh⟩, ?_,
        hpieces, .nil⟩
      · rw [Line.unmarkedAll_append, ← hpieces.lines, ← htwin.depth]
      · rw [htwin.refs, h.pending, List.map_append]
      · rw [hpending, hpending']
        rfl

end Child

/-- **The loop** takes twin states to twin states. -/
theorem twin_loop (h : Twin V collection base s d s' d' ps ps' since)
    (children : List (Option Node × Nat))
    (hparts : ∀ c ∈ children, ∀ n, c.1 = some n → TwinParts V part part' n) (count count' : Nat) :
    Outcome V collection d.depth base
      (exec ((children.map (Prod.map (·.map part) id)).foldlM (step collection count) s) d)
      (exec ((children.map (Prod.map (·.map part') id)).foldlM (step collection count') s')
        d') := by
  induction children generalizing s d s' d' ps ps' since with
  | nil => exact .ok rfl h
  | cons child children ih =>
    have hstep := twin_step h (hparts child List.mem_cons_self) count count' child.2
    rw [List.map_cons, List.map_cons, List.foldlM_cons, List.foldlM_cons, exec_bind, exec_bind]
    simp only [Prod.map, id_eq]
    generalize exec (step collection count s (child.1.map part, child.2)) d = x at hstep
    generalize exec (step collection count' s' (child.1.map part', child.2)) d' = y at hstep
    cases hstep with
    | error hcause => exact .error hcause
    | ok hdepth htwin =>
      rw [← hdepth]
      exact ih htwin fun c hc => hparts c (List.mem_cons_of_mem _ hc)

/-- **The finished sequence.** A block of commands is not empty. -/
theorem twin_flush (collection : Collection) {d e e' : Draft} {all all' : List Piece}
    (hall : Piece.Twins V d.depth all all')
    (htwin : e.Twin e') (hdepth : e.depth = d.depth)
    (hlines : e.lines = d.lines ++ Piece.allLines d.depth all) :
    Compile.Outcome V d
      (fun new x x' => Expr.Twin V x x' ∧ (collection = .command → new ≠ []))
      (exec (liftM (Collector.flush ⟨collection, d.lines.length, Piece.items all⟩)) e)
      (exec (liftM (Collector.flush ⟨collection, (Line.unmarkedAll d.lines).length,
        Piece.items all'⟩)) e') := by
  have hlines' : e'.lines = Line.unmarkedAll d.lines ++ Piece.allLines d.depth all' := by
    rw [htwin.lines, hlines, Line.unmarkedAll_append, hall.lines]
  have hfilled := hall.filled
  rw [exec_lift, exec_lift]
  cases collection with
  | generic =>
    rw [Collector.flush_generic rfl, Collector.flush_generic rfl]
    have hover : (Expr.apply .children [.list (Piece.items all)]).Over V :=
      .apply _ (List.forall_mem_singleton.2 (.list hall.items.isOver))
    refine .ok ?_ hall.blocks ?_ (htwin.use _)
      ⟨⟨hover, ?_⟩, by simp⟩
    · rw [Drafting.use_apply, ← hlines]
      split <;> rfl
    · rw [Drafting.use_apply, ← hdepth]
      split <;> rfl
    · simp [Expr.unmarked, Expr.unmarkedAll_eq, hall.items.eq]
  | command =>
    rw [Collector.flush_command rfl hlines rfl, Collector.flush_command rfl hlines' rfl]
    refine .ok (by rw [hdepth]) hfilled.1 hdepth
      ⟨htwin.depth, ?_, htwin.refs, htwin.helpers, htwin.fresh⟩
      ⟨⟨.commands, rfl⟩, fun _ => filled_ne_nil _ _⟩
    rw [htwin.depth, hdepth, hfilled.2, Line.unmarkedAll_append]
  | rootCommand =>
    obtain ⟨events, hflush⟩ := Collector.flush_rootCommand
      (c := ⟨.rootCommand, d.lines.length, Piece.items all⟩) rfl hlines rfl
    obtain ⟨events', hflush'⟩ := Collector.flush_rootCommand
      (c := ⟨.rootCommand, (Line.unmarkedAll d.lines).length, Piece.items all'⟩) rfl hlines' rfl
    rw [hflush, hflush', hdepth, htwin.depth, hdepth, htwin.fresh, hfilled.2]
    -- the commands move one level deeper, behind the head of the scope
    refine .ok ?_ (.header (.scope e.fresh) rfl (by simp [filled_ne_nil]) hfilled.1.indent) ?_ ?_
      ⟨⟨.apply _ (List.forall_mem_singleton.2 (.var _)), rfl⟩, by simp⟩
    · rw [Drafting.use_apply]
      split <;> rfl
    · rw [Drafting.use_apply, ← hdepth]
      split <;> rfl
    · refine Draft.Twin.use ?_ .children
      refine ⟨rfl, ?_, htwin.refs, htwin.helpers, rfl⟩
      rw [Line.unmarkedAll_append, Line.unmarkedAll_cons _ _ rfl, Line.unmarkedAll_map_indent]
      rfl

/-- **The end of the loop**: all children stay as they are, or there is a
finished sequence. -/
theorem twin_close {d e e' : Draft}
    (h : Twin V collection d.lines s e s' e' ps ps' since) (hdepth : e.depth = d.depth) :
    Compile.Outcome V d
      (fun new r r' => Option.Rel (Expr.Twin V) r r' ∧
        (collection = .command → r ≠ none → new ≠ []))
      (exec (liftM s.close) e) (exec (liftM s'.close) e') := by
  have hpieces := hdepth ▸ h.pieces
  have hsince := hdepth ▸ h.blocks
  by_cases hps : ps = []
  · rw [exec_lift, exec_lift, close_static h.sound hps,
      close_static h.sound' (h.pieces.nil_iff.2 hps)]
    refine .ok ?_ hsince hdepth h.drafts ⟨.none, by simp⟩
    simpa [hps] using h.sound.lines
  · have hall : Piece.Twins V d.depth
        (ps ++ .emitted since :: collection.ofRun e.refs.length s.pending)
        (ps' ++ .emitted (Line.unmarkedAll since) ::
          collection.ofRun e'.refs.length s'.pending) := by
      rw [h.drafts.refs_length, h.pending]
      exact hpieces.append ((Piece.Twins.emitted hsince).append (.ofRun collection _ _))
    rw [exec_lift, exec_lift, close_dynamic h.sound hps rfl,
      close_dynamic h.sound' (mt h.pieces.nil_iff.1 hps) rfl, Drafting.map_apply,
      Drafting.map_apply]
    have htwin : Draft.Twin
        { e with
          lines := d.lines ++ Piece.allLines e.depth
            (ps ++ .emitted since :: collection.ofRun e.refs.length s.pending)
          refs := e.refs ++ s.pending }
        { e' with
          lines := Line.unmarkedAll d.lines ++ Piece.allLines e'.depth
            (ps' ++ .emitted (Line.unmarkedAll since) ::
              collection.ofRun e'.refs.length s'.pending)
          refs := e'.refs ++ s'.pending } := by
      refine ⟨h.drafts.depth, ?_, ?_, h.drafts.helpers, h.drafts.fresh⟩
      · rw [Line.unmarkedAll_append, h.drafts.depth, hdepth, hall.lines]
      · rw [h.drafts.refs, h.pending, List.map_append]
    have hflush := twin_flush collection hall htwin hdepth (by rw [hdepth])
    rw [exec_lift, exec_lift] at hflush
    generalize Collector.flush _ _ = x, Collector.flush _ _ = y at hflush
    obtain ⟨x, dx⟩ := x
    obtain ⟨y, dy⟩ := y
    cases hflush with
    | ok hlines hblocks hdepth' htwin hQ =>
      exact .ok hlines hblocks hdepth' htwin ⟨.some hQ.1, fun hcommand _ => hQ.2 hcommand⟩

end Splice

/-- **Splicing a sequence and its twin.** If a sequence of commands changes
at all, something is written for it. -/
theorem Writes.splice (collection : Collection) (children : List (Option Node))
    (hparts : ∀ n, some n ∈ children → TwinParts V part part' n) :
    Writes V depth
      (fun new r r' => Option.Rel (Expr.Twin V) r r' ∧
        (collection = .command → r ≠ none → new ≠ []))
      (Compile.splice collection (children.map (·.map part)))
      (Compile.splice collection (children.map (·.map part'))) := by
  intro d d' _ htwin
  have hstart : Splice.Twin V collection d.lines ⟨[], d.size, none⟩ d ⟨[], d'.size, none⟩ d'
      [] [] [] :=
    ⟨.start collection d, htwin.lines ▸ .start collection d', htwin, rfl, .nil, .nil⟩
  have hloop := Splice.twin_loop hstart children.zipIdx
    (fun c hc n hn => hparts n (hn ▸ List.fst_mem_of_mem_zipIdx hc)) children.length
    children.length
  simp only [Compile.splice, exec_bind, exec_get, List.length_map, List.zipIdx_map]
  generalize exec (List.foldlM _ _ _) d = x, exec (List.foldlM _ _ _) d' = y at hloop
  cases hloop with
  | error hcause => exact .error hcause
  | ok hdepth h => exact Splice.twin_close h hdepth

end Compile

end ScriptSplice
