import ScriptSplice.Proofs.Compile.Deeds
/-!
# Actions that write nothing

An action writes no line if none of its deeds does and none of the nodes
that it compiles (`Compile.Does.quiet`). This holds whether or not the
action fails. A generic sequence is quiet although it moves lines: all that
it takes off the end of a draft are the lines of its children, and these
have none.
-/

namespace ScriptSplice

open Compile

variable {α : Type}

/-- The lines are as before. -/
def Draft.LinesKept (d d' : Draft) : Prop := d'.lines = d.lines

namespace Compile

/-- The state of splicing a generic sequence whose children write
nothing: all lines there are came before it. -/
structure Splice.Idle (s : Splice) (d : Draft) : Prop where
  place : s.place = d.size
  generic : ∀ c ∈ s.collector, c.collection = .generic

namespace Splice

variable {s : Splice} {d : Draft}

/-- A generic collector writes no lines. -/
theorem allLines_generic (depth k : Nat) (run : List (Option Node)) (es : List Expr) :
    Piece.allLines depth (Collection.generic.ofRun k run) = [] ∧
      Piece.allLines depth (Collection.generic.ofFragments es) = [] :=
  ⟨Piece.allLines_items _ _, Piece.allLines_items _ _⟩

/-- Taking up the fragments of a child moves no lines. -/
theorem Idle.add (hs : s.Idle d) {c : Collector} (hc : c.collection = .generic) (es : List Expr) :
    (s.add c es d).1.Idle (s.add c es d).2 ∧ d.LinesKept (s.add c es d).2 := by
  have htake : d.lines.take s.place = d.lines := by rw [hs.place, Draft.size, List.take_length]
  have hdrop : d.lines.drop s.place = [] := by rw [hs.place, Draft.size, List.drop_length]
  simp only [Splice.add, Drafting.bind_apply, Drafting.takeFrom_apply, Drafting.get_apply,
    Drafting.pure_apply, Collector.addStatic_apply, Collector.addDynamic_apply,
    Drafting.appendLines_apply, htake, hdrop, hc, (allLines_generic _ _ _ []).1,
    (allLines_generic _ 0 [] es).2, List.append_nil]
  exact ⟨⟨rfl, by simp⟩, rfl⟩

/-- A step keeps the state, whether or not the child fails. -/
theorem Idle.step (hs : s.Idle d) (count : Nat) {child : Option Part × Nat}
    (hchild : ∀ p, child.1 = some p → Keeps Draft.LinesKept p.run) :
    d.LinesKept (exec (step .generic count s child) d).2 ∧
      ∀ s', (exec (step .generic count s child) d).1 = .ok s' →
        s'.Idle (exec (step .generic count s child) d).2 := by
  obtain ⟨_ | p, i⟩ := child
  · refine ⟨rfl, ?_⟩
    rintro _ ⟨⟩
    exact ⟨hs.place, hs.generic⟩
  · simp only [Splice.step, exec_bind]
    rcases hrun : exec p.run d with ⟨r, d₁⟩
    have hp : d.LinesKept d₁ := by
      have hkeeps := hchild p rfl d
      rwa [hrun] at hkeeps
    have hplace : s.place = d₁.size := by
      rw [Draft.size, hp]
      exact hs.place
    rcases r with e | _ | es
    · exact ⟨hp, by simp⟩
    · refine ⟨hp, ?_⟩
      rintro _ ⟨⟩
      exact ⟨hplace, hs.generic⟩
    · cases hc : s.collector with
      | some c =>
        have hadd := Idle.add ⟨hplace, hs.generic⟩ (hs.generic c hc) es
        simp only [Splice.open, hc]
        refine ⟨hadd.2.trans hp, ?_⟩
        rintro _ ⟨⟩
        exact hadd.1
      | none =>
        have hadd := Idle.add (d := (Drafting.note (.collecting .generic s.place i count) d₁).2)
          ⟨hplace, hs.generic⟩ (c := .new .generic s.place) rfl es
        simp only [Splice.open, hc]
        refine ⟨hadd.2.trans hp, ?_⟩
        rintro _ ⟨⟩
        exact hadd.1

theorem Idle.loop (hs : s.Idle d) (count : Nat) (children : List (Option Part × Nat))
    (hchildren : ∀ c ∈ children, ∀ p, c.1 = some p → Keeps Draft.LinesKept p.run) :
    d.LinesKept (exec (children.foldlM (Splice.step .generic count) s) d).2 ∧
      ∀ s', (exec (children.foldlM (Splice.step .generic count) s) d).1 = .ok s' →
        s'.Idle (exec (children.foldlM (Splice.step .generic count) s) d).2 := by
  induction children generalizing s d with
  | nil =>
    refine ⟨rfl, ?_⟩
    rintro _ ⟨⟩
    exact hs
  | cons child children ih =>
    have hstep := hs.step count (hchildren child List.mem_cons_self)
    rw [List.foldlM_cons, exec_bind]
    rcases hrun : exec (Splice.step .generic count s child) d with ⟨e | s₁, d₁⟩ <;>
      rw [hrun] at hstep
    · exact ⟨hstep.1, by simp⟩
    · have hrest := ih (hstep.2 s₁ rfl) fun c hc => hchildren c (List.mem_cons_of_mem _ hc)
      exact ⟨hrest.1.trans hstep.1, hrest.2⟩

end Splice

/-- **A generic sequence writes no line** if its children write none. -/
theorem keeps_lines_splice {parts : List (Option Part)}
    (h : ∀ p, some p ∈ parts → Keeps Draft.LinesKept p.run) :
    Keeps Draft.LinesKept (splice .generic parts) := by
  intro d
  have hstart : Splice.Idle ⟨[], d.size, none⟩ d := ⟨rfl, by simp⟩
  have hloop := hstart.loop parts.length parts.zipIdx fun c hc p hp =>
    h p (hp ▸ List.fst_mem_of_mem_zipIdx hc)
  simp only [Compile.splice, exec_bind, exec_get]
  rcases hrun : exec (parts.zipIdx.foldlM (Splice.step .generic parts.length)
    ⟨[], d.size, none⟩) d with ⟨e | s, d₁⟩ <;> rw [hrun] at hloop
  · exact hloop.1
  · have hs := hloop.2 s rfl
    simp only [exec_lift, Splice.close]
    cases hc : s.collector with
    | none => exact hloop.1
    | some c =>
      have hgeneric := hs.generic c hc
      have hflush := Collector.flush_generic (c := (c.addStatic s.pending d₁).1)
        (by rw [Collector.addStatic_apply]; exact hgeneric) (c.addStatic s.pending d₁).2
      refine Eq.trans (congrArg (fun x => x.2.lines) hflush) ?_
      rw [Drafting.lines_use, Collector.addStatic_apply, hgeneric,
        (Splice.allLines_generic _ _ _ []).1, List.append_nil]
      exact hloop.1

/-- **An action writes no line** if none of its deeds does, whether or not
it fails. -/
theorem Does.quiet {c : Compiler} {P : Prop} {xs : List Deed} {act : Compile α}
    (h : Does c P xs act) (hxs : ∀ x ∈ xs, x.isQuiet = true)
    (hnodes : ∀ x ∈ xs, ∀ n ∈ x.nodes, Keeps Draft.LinesKept (c.part n).run) :
    Keeps Draft.LinesKept act := by
  induction h with
  | pure | throw | skip | ref | note => exact fun _ => rfl
  | bind_of_ok _ _ ih ihnext =>
    rw [List.forall_mem_append] at hxs hnodes
    intro d
    have hfirst := ih hxs.1 hnodes.1 d
    rw [exec_bind]
    rcases hact : exec _ d with ⟨e | a, d'⟩ <;> rw [hact] at hfirst
    · exact hfirst
    · exact (ihnext a d d' hact hxs.2 hnodes.2 d').trans hfirst
  | inBlock _ ih => exact fun d => ih hxs hnodes { d with depth := d.depth + 1 }
  | emit => exact absurd (hxs _ List.mem_cons_self) (by simp [Deed.isQuiet])
  | use | lack => exact Drafting.lines_use _
  | run n => exact hnodes _ List.mem_cons_self n List.mem_cons_self
  | splice collection children =>
    obtain rfl : collection = .generic := by simpa [Deed.isQuiet] using hxs
    refine keeps_lines_splice fun p hp => ?_
    obtain ⟨n, hn, rfl⟩ := exists_of_mem_parts hp
    exact hnodes _ List.mem_cons_self n (Deed.mem_nodes_splice.2 hn)

end Compile

end ScriptSplice
