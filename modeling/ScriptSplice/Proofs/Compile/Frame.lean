import ScriptSplice.Proofs.Compile.Collecting
import ScriptSplice.Rules.Standard
/-!
# Frames

A frame is a relation between the draft before an action and the draft
after it that every way of building an action keeps: `Draft.Appends`,
lines and references only grow and the depth is restored, and
`Draft.Grows`, all else only grows too. What the rules do with the parts
of their nodes is built from a few actions that keep every frame, and so
does the compilation of a node (`Compiler.keeps_part`).

Splicing is the one place where lines are taken out of the buffer. It
takes out none that were there before it began, which is why the frames
speak of the place from which lines move.
-/

namespace ScriptSplice

open Compile

variable {α β : Type}

/-- An action keeps a relation between drafts if the draft it leaves is
related to the draft it started on, whether or not it failed. -/
def Compile.Keeps (R : Draft → Draft → Prop) (act : Compile α) : Prop :=
  ∀ d, R d (exec act d).2

/-- A relation between the draft before an action and the draft after it
that the actions of rules keep. -/
structure Frame (R : Draft → Draft → Prop) : Prop where
  refl (d : Draft) : R d d
  trans {d d' d'' : Draft} : R d d' → R d' d'' → R d d''
  size_le {d d' : Draft} : R d d' → d.size ≤ d'.size
  emit (d : Draft) (s : Stmt) : R d (Drafting.emit s d).2
  slice (d : Draft) (ns : List (Option Node)) : R d (Drafting.slice ns d).2
  freshVariable (d : Draft) : R d (Drafting.freshVariable d).2
  use (d : Draft) (h : Helper) : R d (Drafting.use h d).2
  note (d : Draft) (e : Event) : R d (Drafting.note e d).2
  block {d d' : Draft} : R { d with depth := d.depth + 1 } d' → R d { d' with depth := d.depth }
  appendLines (d : Draft) (lines : List Line) : R d (Drafting.appendLines lines d).2
  takeFrom {d d' : Draft} {i : Nat} : R d d' → d.size ≤ i → R d (Drafting.takeFrom i d').2
  indentFrom {d d' : Draft} {i : Nat} : R d d' → d.size ≤ i → R d (Drafting.indentFrom i d').2
  insertLine {d d' : Draft} {i : Nat} (line : Line) :
    R d d' → d.size ≤ i → R d (Drafting.insertLine i line d').2

namespace Frame

variable {R : Draft → Draft → Prop} (hR : Frame R)

include hR

/-! ## Building actions -/

theorem pure (a : α) : Keeps R (Pure.pure a : Compile α) := hR.refl

theorem throw (e : Failure) : Keeps R (MonadExcept.throw e : Compile α) := hR.refl

theorem tryCatch {act : Compile α} {handle : Failure → Compile α} (h : Keeps R act)
    (hhandle : ∀ e, Keeps R (handle e)) : Keeps R (MonadExcept.tryCatch act handle) := by
  intro d
  have hd := h d
  change R d (exec (MonadExcept.tryCatch act handle) d).2
  rw [exec_tryCatch]
  rcases hact : exec act d with ⟨e | a, d'⟩ <;> rw [hact] at hd
  · exact hR.trans hd (hhandle e d')
  · exact hd

/-- The second action matters only for what the first can give. -/
theorem bind_of_ok {act : Compile α} {next : α → Compile β} (h : Keeps R act)
    (hnext : ∀ a d d', exec act d = (.ok a, d') → Keeps R (next a)) : Keeps R (act >>= next) := by
  intro d
  have hd := h d
  rw [exec_bind]
  rcases hact : exec act d with ⟨e | a, d'⟩ <;> rw [hact] at hd
  · exact hd
  · exact hR.trans hd (hnext a d d' hact d')

theorem bind {act : Compile α} {next : α → Compile β} (h : Keeps R act)
    (hnext : ∀ a, Keeps R (next a)) : Keeps R (act >>= next) :=
  hR.bind_of_ok h fun a _ _ _ => hnext a

omit hR in
theorem lift {act : Drafting α} (h : ∀ d, R d (act d).2) : Keeps R (liftM act : Compile α) := h

theorem inBlock {act : Compile α} (h : Keeps R act) : Keeps R (inBlock act) :=
  fun _ => hR.block (h _)

/-! ## Actions on a draft -/

theorem ref (d : Draft) (n : Option Node) : R d (Drafting.ref n d).2 := hR.slice d [n]

theorem mark (d : Draft) (place : Location) : R d (Drafting.mark place d).2 := by
  unfold Drafting.mark
  cases place.line? with
  | none => exact hR.refl d
  | some line => exact hR.emit d _

theorem addStatic (c : Collector) (run : List (Option Node)) (d : Draft) :
    R d (c.addStatic run d).2 := by
  rw [Collector.addStatic_apply]
  exact hR.trans (hR.slice d run) (hR.appendLines _ _)

theorem addDynamic (c : Collector) (es : List Expr) (d : Draft) :
    R d (c.addDynamic es d).2 := by
  rw [Collector.addDynamic_apply]
  exact hR.appendLines d _

theorem fillEmpty (c : Collector) (d : Draft) : R d (c.fillEmpty d).2 := by
  change R d ((if d.size = c.start then Drafting.emit .pass else Pure.pure ()) d).2
  split
  · exact hR.emit d _
  · exact hR.refl d

/-- Enclosing moves only lines from the collector's start on. -/
theorem enclose (c : Collector) {d d' : Draft} (h : R d d') (hstart : d.size ≤ c.start) :
    R d (c.enclose d').2 := by
  have hfresh := hR.trans h (hR.freshVariable d')
  exact hR.trans (hR.insertLine _ (hR.indentFrom hfresh hstart) hstart) (hR.note _ _)

theorem flush (c : Collector) {d d' : Draft} (h : R d d') (hstart : d.size ≤ c.start) :
    R d (c.flush d').2 := by
  have hfill := hR.trans h (hR.fillEmpty c d')
  unfold Collector.flush
  -- only a root collector moves lines, and it began above the floor
  cases c.collection with
  | generic => exact hR.trans h (hR.use _ _)
  | command => exact hfill
  | rootCommand => exact hR.trans (hR.enclose c hfill hstart) (hR.use _ _)

end Frame

/-! ## Splicing

The loop never reaches below the line where it started: `Splice.Above` is
what it keeps. -/

/-- The lines that the loop will still move begin at a place or later. -/
structure Compile.Splice.Above (s : Splice) (floor : Nat) : Prop where
  place : floor ≤ s.place
  start : ∀ c ∈ s.collector, floor ≤ c.start

namespace Frame

variable {R : Draft → Draft → Prop} (hR : Frame R)

include hR

theorem splice_add {s : Splice} {c : Collector} (es : List Expr) {d d' : Draft} (h : R d d')
    (hs : s.Above d.size) (hc : d.size ≤ c.start) :
    R d (s.add c es d').2 ∧ (s.add c es d').1.Above d.size := by
  have htake := hR.takeFrom h hs.place
  have hadd : R d (s.add c es d').2 :=
    hR.trans (hR.trans (hR.trans htake (hR.addStatic c s.pending _)) (hR.appendLines _ _))
      (hR.addDynamic _ es _)
  refine ⟨hadd, hR.size_le hadd, ?_⟩
  intro c' hc'
  simp only [Splice.add, Drafting.bind_apply, Drafting.takeFrom_apply, Drafting.get_apply,
    Drafting.pure_apply, Collector.addStatic_apply, Collector.addDynamic_apply,
    Option.mem_def, Option.some.injEq] at hc'
  exact hc' ▸ hc

theorem splice_step (collection : Collection) (count : Nat) {child : Option Part × Nat}
    (hchild : ∀ p, child.1 = some p → Keeps R p.run) {s : Splice} {d d' : Draft} (h : R d d')
    (hs : s.Above d.size) :
    R d (exec (Splice.step collection count s child) d').2 ∧
      ∀ s', (exec (Splice.step collection count s child) d').1 = .ok s' → s'.Above d.size := by
  obtain ⟨_ | p, i⟩ := child
  · refine ⟨h, ?_⟩
    rintro _ ⟨⟩
    exact ⟨hs.place, hs.start⟩
  · have hp := hR.trans h (hchild p rfl d')
    simp only [Splice.step, exec_bind]
    rcases hrun : exec p.run d' with ⟨e | _ | es, d₁⟩ <;> rw [hrun] at hp
    · exact ⟨hp, by simp⟩
    · refine ⟨hp, ?_⟩
      rintro _ ⟨⟩
      exact ⟨hs.place, hs.start⟩
    · cases hc : s.collector with
      -- an old collector began above the floor, and a new one begins at the place
      | some c =>
        have hadd := hR.splice_add es hp hs (hs.start c hc)
        simp only [Splice.open, hc]
        refine ⟨hadd.1, ?_⟩
        rintro _ ⟨⟩
        exact hadd.2
      | none =>
        have hadd := hR.splice_add (c := .new collection s.place) es
          (hR.trans hp (hR.note d₁ (.collecting collection s.place i count))) hs hs.place
        simp only [Splice.open, hc]
        refine ⟨hadd.1, ?_⟩
        rintro _ ⟨⟩
        exact hadd.2

theorem splice_loop (collection : Collection) (count : Nat)
    (children : List (Option Part × Nat))
    (hchildren : ∀ child ∈ children, ∀ p, child.1 = some p → Keeps R p.run) {s : Splice}
    {d d' : Draft} (h : R d d') (hs : s.Above d.size) :
    R d (exec (children.foldlM (Splice.step collection count) s) d').2 ∧
      ∀ s', (exec (children.foldlM (Splice.step collection count) s) d').1 = .ok s' →
        s'.Above d.size := by
  induction children generalizing s d' with
  | nil =>
    refine ⟨h, ?_⟩
    rintro _ ⟨⟩
    exact hs
  | cons child children ih =>
    have hstep := hR.splice_step collection count (hchildren child List.mem_cons_self) h hs
    rw [List.foldlM_cons, exec_bind]
    rcases hrun : exec (Splice.step collection count s child) d' with ⟨e | s₁, d₁⟩ <;>
      rw [hrun] at hstep
    · exact ⟨hstep.1, by simp⟩
    · exact ih (fun c hc => hchildren c (List.mem_cons_of_mem _ hc)) hstep.1 (hstep.2 s₁ rfl)

/-- **Splicing keeps a frame** that the children keep. -/
theorem splice (collection : Collection) (parts : List (Option Part))
    (hparts : ∀ p, some p ∈ parts → Keeps R p.run) : Keeps R (splice collection parts) := by
  intro d
  have hloop := hR.splice_loop collection parts.length parts.zipIdx
    (fun child hchild p hp =>
      hparts p (hp ▸ (List.mem_zipIdx hchild).2.2 ▸ List.getElem_mem _))
    (s := ⟨[], d.size, none⟩) (hR.refl d) ⟨Nat.le_refl _, by simp⟩
  simp only [Compile.splice, exec_bind, exec_get]
  rcases hrun : exec (parts.zipIdx.foldlM (Splice.step collection parts.length)
    ⟨[], d.size, none⟩) d with ⟨e | s, d'⟩ <;> rw [hrun] at hloop
  · exact hloop.1
  · simp only [exec_lift, Splice.close]
    cases hc : s.collector with
    | none => exact hloop.1
    | some c =>
      have hstatic := hR.trans hloop.1 (hR.addStatic c s.pending d')
      have hstart : (c.addStatic s.pending d').1.start = c.start := by
        rw [Collector.addStatic_apply]
      exact hR.flush _ hstatic (hstart.symm ▸ (hloop.2 s rfl).start c hc)

end Frame

/-! ## Growth -/

/-- Lines and references are only added, and the depth is the one before. -/
structure Draft.Appends (d d' : Draft) : Prop where
  depth : d'.depth = d.depth
  lines : d.lines <+: d'.lines
  refs : d.refs <+: d'.refs

/-- Nothing of a draft is taken away or changed. -/
structure Draft.Grows (d d' : Draft) : Prop extends Draft.Appends d d' where
  helpers : d.helpers <+: d'.helpers
  fresh : d.fresh ≤ d'.fresh
  events : d.events <+: d'.events

/-- Lines from a place on can change without those before it. -/
private theorem prefix_take {base ls : List Line} {i : Nat} (h : base <+: ls)
    (hi : base.length ≤ i) (rest : List Line) : base <+: ls.take i ++ rest :=
  (List.prefix_take_iff.2 ⟨h, hi⟩).trans (List.prefix_append _ _)

namespace Draft.Appends

/-- **Lines and references only grow.** -/
theorem frame : Frame Draft.Appends where
  refl _ := ⟨rfl, List.prefix_refl _, List.prefix_refl _⟩
  trans h h' := ⟨h'.depth.trans h.depth, h.lines.trans h'.lines, h.refs.trans h'.refs⟩
  size_le h := h.lines.length_le
  emit _ _ := ⟨rfl, List.prefix_append _ _, List.prefix_refl _⟩
  slice _ _ := ⟨rfl, List.prefix_refl _, List.prefix_append _ _⟩
  freshVariable _ := ⟨rfl, List.prefix_refl _, List.prefix_refl _⟩
  use d h := by
    rw [Drafting.use_apply]
    split <;> exact ⟨rfl, List.prefix_refl _, List.prefix_refl _⟩
  note _ _ := ⟨rfl, List.prefix_refl _, List.prefix_refl _⟩
  block h := ⟨rfl, h.lines, h.refs⟩
  appendLines _ _ := ⟨rfl, List.prefix_append _ _, List.prefix_refl _⟩
  takeFrom h hi := ⟨h.depth, List.prefix_take_iff.2 ⟨h.lines, hi⟩, h.refs⟩
  indentFrom h hi := ⟨h.depth, prefix_take h.lines hi _, h.refs⟩
  insertLine _ h hi := ⟨h.depth, prefix_take h.lines hi _, h.refs⟩

/-- The new lines of two steps. -/
theorem drop {d d' d'' : Draft} (h : d.Appends d') (h' : d'.Appends d'') :
    d''.lines.drop d.size = d'.lines.drop d.size ++ d''.lines.drop d'.size := by
  obtain ⟨new, hnew⟩ := h.lines
  obtain ⟨new', hnew'⟩ := h'.lines
  rw [← hnew', ← hnew, size, size, ← hnew, List.drop_left, List.drop_left, List.append_assoc,
    List.drop_left]

end Draft.Appends

namespace Draft.Grows

/-- **Drafts only grow.** -/
theorem frame : Frame Draft.Grows where
  refl _ := ⟨Appends.frame.refl _, List.prefix_refl _, Nat.le_refl _, List.prefix_refl _⟩
  trans h h' := ⟨Appends.frame.trans h.toAppends h'.toAppends, h.helpers.trans h'.helpers,
    Nat.le_trans h.fresh h'.fresh, h.events.trans h'.events⟩
  size_le h := Appends.frame.size_le h.toAppends
  emit d s := ⟨Appends.frame.emit d s, List.prefix_refl _, Nat.le_refl _, List.prefix_refl _⟩
  slice d ns := ⟨Appends.frame.slice d ns, List.prefix_refl _, Nat.le_refl _, List.prefix_refl _⟩
  freshVariable d := ⟨Appends.frame.freshVariable d, List.prefix_refl _, Nat.le_succ _,
    List.prefix_refl _⟩
  use d h := by
    have happends := Appends.frame.use d h
    rw [Drafting.use_apply] at happends ⊢
    by_cases hmem : h ∈ d.helpers
    · rw [if_pos hmem] at happends ⊢
      exact ⟨happends, List.prefix_refl _, Nat.le_refl _, List.prefix_refl _⟩
    · rw [if_neg hmem] at happends ⊢
      exact ⟨happends, List.prefix_append _ _, Nat.le_refl _, List.prefix_refl _⟩
  note d e := ⟨Appends.frame.note d e, List.prefix_refl _, Nat.le_refl _, List.prefix_append _ _⟩
  block h := ⟨Appends.frame.block h.toAppends, h.helpers, h.fresh, h.events⟩
  appendLines d ls := ⟨Appends.frame.appendLines d ls, List.prefix_refl _, Nat.le_refl _,
    List.prefix_refl _⟩
  takeFrom h hi := ⟨Appends.frame.takeFrom h.toAppends hi, h.helpers, h.fresh, h.events⟩
  indentFrom h hi := ⟨Appends.frame.indentFrom h.toAppends hi, h.helpers, h.fresh, h.events⟩
  insertLine line h hi :=
    ⟨Appends.frame.insertLine line h.toAppends hi, h.helpers, h.fresh, h.events⟩

end Draft.Grows

end ScriptSplice
