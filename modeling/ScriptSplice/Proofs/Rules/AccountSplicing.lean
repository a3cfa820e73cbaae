import ScriptSplice.Proofs.Rules.Account
/-!
# Splicing keeps account

The statement of a run of unchanged children is written before the lines
of the changed child behind it, though its references are made later. So
the loop keeps one account of the pieces contributed so far and the lines
written since (`Splice.Accounted`), and knows besides whose statements are
in either. Splicing a sequence balances if compiling its children does
(`Balances.splice`).
-/

namespace ScriptSplice

open Compile

variable {S : Stock}

/-! ## Runs and fragments -/

namespace Piece

/-- The atoms of some pieces. -/
def atoms (ps : List Piece) : List Atom := Line.atoms (allLines 0 ps) ++ Expr.atomsAll (items ps)

/-- How deep pieces are written does not matter. -/
theorem mem_atoms (depth : Nat) {ps : List Piece} {a : Atom} :
    a ∈ atoms ps ↔ a ∈ Line.atoms (allLines depth ps) ++ Expr.atomsAll (items ps) := by
  have hlines : Line.atoms (allLines 0 ps) = Line.atoms (allLines depth ps) := by
    induction ps with
    | nil => rfl
    | cons p ps ih => cases p <;> simp [lines, ih]
  rw [atoms, hlines]

end Piece

namespace Collection

/-- The pieces of fragments are made of the fragments. -/
theorem mem_atoms_ofFragments (collection : Collection) {es : List Expr} {a : Atom} :
    a ∈ Piece.atoms (collection.ofFragments es) ↔ a ∈ Expr.atomsAll es := by
  cases collection <;>
    simp [Piece.atoms, ofFragments, Line.atoms, Expr.atomsAll_eq, Stmt.atoms, -List.map_map,
      List.flatMap_map]

/-- The statements of a collector are its own. -/
theorem isAuxiliary_ofFragments (collection : Collection) (depth : Nat) (es : List Expr) :
    ∀ l ∈ Piece.allLines depth (collection.ofFragments es), l.stmt.isAuxiliary = true := by
  cases collection <;> simp [ofFragments, -List.map_map, Stmt.isAuxiliary]

theorem isAuxiliary_ofRun (collection : Collection) (depth k : Nat) (run : List (Option Node)) :
    ∀ l ∈ Piece.allLines depth (collection.ofRun k run), l.stmt.isAuxiliary = true := by
  have hstmts : ∀ s ∈ runStmts k run, s.isAuxiliary = true := by
    rcases run with _ | ⟨r, _ | ⟨r', run⟩⟩ <;> simp [runStmts, Stmt.isAuxiliary]
  cases collection with
  | generic => simp [ofRun]
  | command | rootCommand => simpa [ofRun, -List.map_map] using hstmts

/-- The pieces of a run refer to its places, and to no other. -/
theorem atoms_ofRun (collection : Collection) (k : Nat) (run : List (Option Node)) :
    (∀ a ∈ Piece.atoms (collection.ofRun k run),
      (∃ i, a = .ref i ∧ k ≤ i ∧ i < k + run.length) ∨
        a = .slice k (k + run.length) ∧ run ≠ []) ∧
    ∀ i, k ≤ i → i < k + run.length →
      ∃ a ∈ Piece.atoms (collection.ofRun k run), a.Denotes i := by
  cases collection with
  | generic =>
    have hatoms : Piece.atoms (ofRun k run .generic) = (List.range' k run.length).map .ref := by
      simp [Piece.atoms, ofRun, refsFrom, Expr.atomsAll_eq, List.flatMap_map, Expr.atoms,
        ← List.map_eq_flatMap, -List.map_map]
    rw [hatoms]
    refine ⟨fun a ha => ?_, fun i hi hi' => ⟨.ref i, ?_, rfl⟩⟩
    · obtain ⟨i, hi, rfl⟩ := List.mem_map.1 ha
      exact .inl ⟨i, rfl, List.mem_range'_1.1 hi⟩
    · exact List.mem_map_of_mem (List.mem_range'_1.2 ⟨hi, hi'⟩)
  | command | rootCommand =>
    have hatoms : Piece.atoms ((runStmts k run).map .stmt) =
        Line.atoms ((runStmts k run).map (Line.mk 0)) := by
      simp [Piece.atoms, -List.map_map]
    rw [ofRun, hatoms]
    -- there is nothing, one reference, or one slice
    rcases run with _ | ⟨r, _ | ⟨r', run⟩⟩
    · exact ⟨by simp [runStmts], fun i hi hi' => absurd hi' (by simpa using hi)⟩
    · refine ⟨by simp [runStmts, Stmt.atoms, Expr.atoms], fun i hi hi' => ⟨.ref k, ?_, ?_⟩⟩
      · simp [runStmts, Stmt.atoms, Expr.atoms]
      · exact (Nat.le_of_lt_succ hi').antisymm hi
    · refine ⟨by simp [runStmts, Stmt.atoms, Expr.atoms], fun i hi hi' =>
        ⟨.slice k (k + (r :: r' :: run).length), ?_, hi, hi'⟩⟩
      simp [runStmts, Stmt.atoms, Expr.atoms]

/-- Only a sequence that is an expression has items. -/
theorem items_eq_nil {collection : Collection} (h : collection ≠ .generic) (k : Nat)
    (run : List (Option Node)) (es : List Expr) :
    Piece.items (collection.ofRun k run) = [] ∧ Piece.items (collection.ofFragments es) = [] := by
  cases collection with
  | generic => exact absurd rfl h
  | command | rootCommand => simp [ofRun, ofFragments, -List.map_map]

end Collection

/-- **The account of a run of unchanged children.** -/
theorem Account.ofRun (collection : Collection) {d e : Draft} {run : List (Option Node)}
    (hrun : ∀ r ∈ run, S.entry r) (hrefs : e.refs = d.refs ++ run) (hfresh : e.fresh = d.fresh)
    (depth : Nat) :
    Account S d [] (Piece.allLines depth (collection.ofRun d.refs.length run))
      (Piece.items (collection.ofRun d.refs.length run)) e := by
  obtain ⟨hatoms, hdenoted⟩ := collection.atoms_ofRun d.refs.length run
  have hlength : e.refs.length = d.refs.length + run.length := by rw [hrefs, List.length_append]
  refine ⟨.of_auxiliary (collection.isAuxiliary_ofRun _ _ _), ⟨run, hrefs, hrun⟩, hfresh.ge,
    fun a ha => ?_, fun i hi hi' => ?_⟩
  · rcases hatoms a ((Piece.mem_atoms depth).2 ha) with ⟨i, rfl, hi, hi'⟩ | ⟨rfl, hne⟩
    · exact ⟨hi, hlength ▸ hi'⟩
    · have hpos := List.length_pos_iff.2 hne
      exact ⟨le_rfl, by omega, hlength.ge⟩
  · obtain ⟨a, ha, hdenotes⟩ := hdenoted i hi (hlength ▸ hi')
    exact ⟨a, (Piece.mem_atoms depth).1 ha, hdenotes⟩

/-! ## The loop -/

/-- Compiling a node balances and only appends, and the node may be referred
to. -/
structure Compiler.Accountable (S : Stock) (c : Compiler) (n : Node) : Prop where
  entry : S.entry (some n)
  balances : Balances S [] n.emitters (·.getD []) (c.part n).run
  appends : Keeps Draft.Appends (c.part n).run

namespace Compile

variable {c : Compiler} {collection : Collection} {base : List Line}

/-- The same of a child that may be absent. -/
structure Splice.ChildAccountable (S : Stock) (c : Compiler) (child : Option Node) : Prop where
  entry : S.entry child
  part : ∀ n, child = some n → c.Accountable S n

/-- **The account of the loop** from draft `d₀` on: the statements of the
commands `ms` are in the pieces, and those of `ns` were written since. -/
structure Splice.Accounted (S : Stock) (collection : Collection) (base : List Line) (d₀ : Draft)
    (s : Splice) (d : Draft) (ms ns : List Node) (ps : List Piece) (since : List Line) :
    Prop where
  sound : s.Sound collection base d ps since
  account : Account S d₀ (ms ++ ns) (Piece.allLines d.depth ps ++ since) (Piece.items ps) d
  pieces : Line.Attributed ms (Piece.allLines d.depth ps)
  since : Line.Attributed ns since
  pending : ∀ r ∈ s.pending, S.entry r
  items : collection ≠ .generic → Piece.items ps = []

namespace Splice

variable {d₀ d d' : Draft} {s s' : Splice} {ms ns : List Node} {ps : List Piece}
  {since : List Line} {child : Option Node} {i count : Nat}

theorem appends_child (h : ChildAccountable S c child) :
    Keeps Draft.Appends (runChild (child.map c.part)) :=
  keeps_runChild Draft.Appends.frame fun p hp => by
    obtain ⟨n, hn, rfl⟩ := Option.map_eq_some_iff.1 hp
    exact (h.part n hn).appends

theorem balances_child (h : ChildAccountable S c child) :
    Balances S [] (child.toList.flatMap Node.emitters) (·.getD [])
      (runChild (child.map c.part)) := by
  cases child with
  | none => exact .pure (by simp)
  | some n =>
    rw [Option.toList_some, List.flatMap_singleton]
    exact (h.part n rfl).balances

/-- The statements of commands in what is added for a child are those written
since the child before it. -/
theorem attributed_contribution (depth k : Nat) (run : List (Option Node)) (es : List Expr)
    (h : Line.Attributed ns since) :
    Line.Attributed ns (Piece.allLines depth (contribution collection k run since es)) := by
  have hstatic : Line.Attributed [] (Piece.allLines depth (collection.ofRun k run)) :=
    .of_auxiliary (collection.isAuxiliary_ofRun _ _ _)
  have hfragments : Line.Attributed [] (Piece.allLines depth (collection.ofFragments es)) :=
    .of_auxiliary (collection.isAuxiliary_ofFragments _ _)
  have hall := hstatic.append (h.append hfragments)
  simpa only [contribution, Piece.allLines_append, Piece.allLines_cons, Piece.lines,
    List.append_nil, List.nil_append] using hall

/-- What is added for a child has the atoms of the run before it, of the
lines written since and of the fragments. -/
theorem mem_atoms_contribution (collection : Collection) (depth k : Nat)
    (run : List (Option Node)) (since : List Line) (es : List Expr) (a : Atom) :
    a ∈ Line.atoms (Piece.allLines depth (contribution collection k run since es)) ++
        Expr.atomsAll (Piece.items (contribution collection k run since es)) ↔
      a ∈ Line.atoms (Piece.allLines depth (collection.ofRun k run)) ++
        Expr.atomsAll (Piece.items (collection.ofRun k run)) ∨
      a ∈ Line.atoms since ++ Expr.atomsAll es := by
  have hfragments : a ∈ Piece.atoms (collection.ofFragments es) ↔ a ∈ Expr.atomsAll es :=
    collection.mem_atoms_ofFragments
  rw [Piece.mem_atoms depth, List.mem_append] at hfragments
  simp only [contribution, Piece.allLines_append, Piece.items_append, Piece.allLines_cons,
    Piece.items_emitted, Piece.lines, Line.atoms_append, Expr.atomsAll_append, List.mem_append,
    ← hfragments]
  grind

/-- **One child** is accounted for. -/
theorem Accounted.step (h : Accounted S collection base d₀ s d ms ns ps since)
    (hchild : ChildAccountable S c child)
    (hstep : exec (Splice.step collection count s (child.map c.part, i)) d = (.ok s', d')) :
    ∃ ms' ns' ps' since', Accounted S collection base d₀ s' d' ms' ns' ps' since' ∧
      ms' ++ ns' = ms ++ ns ++ child.toList.flatMap Node.emitters := by
  rcases hrun : exec (runChild (child.map c.part)) d with ⟨e | r, d₁⟩
  · rw [step_error hrun] at hstep
    cases hstep
  obtain ⟨new, hlines, hnew⟩ := (balances_child hchild).account hrun
  have happends : d.Appends d₁ := by
    have hkeeps := appends_child hchild d
    rwa [hrun] at hkeeps
  have hdrop : d₁.lines.drop d.size = new := by rw [hlines, Draft.size, List.drop_left]
  have hvisit := h.sound.visit happends
  rw [hdrop] at hvisit
  have haccount := h.account.append hnew
  have hsince := h.since.append hnew.attributed
  rw [← happends.depth] at haccount
  have hpieces := h.pieces
  rw [← happends.depth] at hpieces
  cases r with
  | none =>
    rw [step_static hrun, Prod.mk.injEq, Except.ok.injEq] at hstep
    obtain ⟨rfl, rfl⟩ := hstep
    refine ⟨ms, ns ++ child.toList.flatMap Node.emitters, ps, since ++ new,
      ⟨⟨hvisit.lines, hvisit.place, hvisit.collector⟩, ?_, hpieces, hsince, ?_, h.items⟩,
      (List.append_assoc ..).symm⟩
    · simpa only [List.append_assoc, Option.getD_none, List.append_nil] using haccount
    · refine List.forall_mem_append.2 ⟨h.pending, List.forall_mem_singleton.2 ?_⟩
      cases child with
      | none => exact hchild.entry
      | some n => simpa using hchild.entry
  | some es =>
    obtain ⟨hpending, ⟨events, rfl⟩, hsound⟩ := step_dynamic hvisit hrun hstep
    have hmade := haccount.append (Account.ofRun (S := S) collection (d := d₁)
      (e := { d₁ with
        lines := base ++ Piece.allLines d₁.depth
          (ps ++ contribution collection d₁.refs.length s.pending (since ++ new) es)
        refs := d₁.refs ++ s.pending
        events }) h.pending rfl rfl d₁.depth)
    have hattributed : Line.Attributed (ms ++ (ns ++ child.toList.flatMap Node.emitters))
        (Piece.allLines d₁.depth
          (ps ++ contribution collection d₁.refs.length s.pending (since ++ new) es)) := by
      rw [Piece.allLines_append]
      exact hpieces.append (attributed_contribution _ _ _ _ hsince)
    refine ⟨_, [], _, [], ⟨hsound, ?_, hattributed, .nil, by simp [hpending], fun hc => ?_⟩,
      by simp⟩
    · rw [List.append_nil, List.append_nil]
      rw [List.append_nil, List.append_assoc] at hmade
      refine hmade.rearrange hattributed fun a => ?_
      have hadded := mem_atoms_contribution collection d₁.depth d₁.refs.length s.pending
        (since ++ new) es a
      simp only [Piece.allLines_append, Piece.items_append, Line.atoms_append,
        Expr.atomsAll_append, List.mem_append, Option.getD_some] at hadded ⊢
      grind
    · obtain ⟨hrun, hfragments⟩ :=
        Collection.items_eq_nil hc d₁.refs.length s.pending es
      simp [contribution, h.items hc, hrun, hfragments]

/-- **The loop** is accounted for. -/
theorem Accounted.loop {children : List (Option Node × Nat)}
    (h : Accounted S collection base d₀ s d ms ns ps since)
    (hchildren : ∀ p ∈ children, ChildAccountable S c p.1)
    (hloop : exec ((children.map (Prod.map (·.map c.part) id)).foldlM
      (Splice.step collection count) s) d = (.ok s', d')) :
    ∃ ms' ns' ps' since', Accounted S collection base d₀ s' d' ms' ns' ps' since' ∧
      ms' ++ ns' = ms ++ ns ++ (children.map Prod.fst).flatMap fun child =>
        child.toList.flatMap Node.emitters := by
  induction children generalizing s d ms ns ps since with
  | nil =>
    cases hloop
    exact ⟨ms, ns, ps, since, h, by simp⟩
  | cons child children ih =>
    rw [List.map_cons, List.foldlM_cons] at hloop
    obtain ⟨s₁, d₁, hstep, hrest⟩ := exec_bind_eq_ok hloop
    obtain ⟨ms₁, ns₁, ps₁, since₁, h₁, hms₁⟩ := h.step (hchildren child List.mem_cons_self) hstep
    obtain ⟨ms', ns', ps', since', h', hms'⟩ :=
      ih h₁ (fun p hp => hchildren p (List.mem_cons_of_mem _ hp)) hrest
    refine ⟨ms', ns', ps', since', h', ?_⟩
    rw [hms', hms₁, List.map_cons, List.flatMap_cons, List.append_assoc]

end Splice

end Compile

/-! ## The finished sequence -/

namespace Account

variable {d₀ d d' : Draft} {ms : List Node} {new : List Line}

/-- A block that would be empty has a line of its own. -/
theorem filled (h : Account S d₀ ms new [] d) (depth : Nat) :
    Account S d₀ ms (filled depth new) [] d := by
  unfold ScriptSplice.filled
  split
  · rename_i hnil
    subst hnil
    exact h.rearrange (.auxiliary rfl h.attributed) fun a => by simp [Stmt.atoms]
  · exact h

/-- The lines of a scope stand behind its head, and its variable is in
hand. -/
theorem scope (h : Account S d₀ ms new [] d) (hrefs : d'.refs = d.refs)
    (hfresh : d'.fresh = d.fresh + 1) (depth : Nat) :
    Account S d₀ ms (⟨depth, .scope d.fresh⟩ :: new.map Line.indent)
      [.apply .children [.var d.fresh]] d' where
  attributed := .auxiliary rfl h.attributed.indent
  entries := hrefs ▸ h.entries
  fresh_le := by
    rw [hfresh]
    exact h.fresh_le.trans (Nat.le_succ _)
  between a ha := by
    simp only [Line.atoms_cons, Stmt.atoms, Line.atoms_map_indent, Expr.atomsAll_cons, Expr.atoms,
      Expr.atomsAll_nil, List.append_nil, List.mem_append, List.mem_singleton] at ha
    rcases ha with (rfl | ha) | rfl
    · exact ⟨h.fresh_le, by omega⟩
    · exact (h.between a (List.mem_append_left _ ha)).mono le_rfl (congrArg List.length hrefs).ge
        le_rfl (by omega)
    · exact ⟨h.fresh_le, by omega⟩
  denoted i hi hi' := by
    obtain ⟨a, ha, hdenotes⟩ := h.denoted i hi (by rwa [hrefs] at hi')
    refine ⟨a, ?_, hdenotes⟩
    simp only [Expr.atomsAll_nil, List.append_nil] at ha
    simp [ha]

/-- **The finished sequence** is accounted for. Commands are with those
collected so far, so there is nothing in hand for them. -/
theorem flush {collection : Collection} {base : List Line} {all : List Piece} {r : Expr}
    (h : Account S d₀ ms (Piece.allLines d.depth all) (Piece.items all) d)
    (hlines : d.lines = base ++ Piece.allLines d.depth all)
    (hitems : collection ≠ .generic → Piece.items all = [])
    (hflush : Collector.flush ⟨collection, base.length, Piece.items all⟩ d = (r, d')) :
    ∃ new, d'.lines = base ++ new ∧ Account S d₀ ms new [r] d' ∧
      (collection = .command → r = .commands) := by
  cases collection with
  | generic =>
    rw [Collector.flush_generic rfl, Prod.mk.injEq] at hflush
    obtain ⟨rfl, rfl⟩ := hflush
    refine ⟨_, (Drafting.lines_use _ _).trans hlines, ?_, by simp⟩
    exact (h.recast (by simp [Expr.atoms])).congr
      (Drafting.refs_use _ _) (Drafting.fresh_use _ _)
  | command =>
    rw [Collector.flush_command rfl hlines rfl, Prod.mk.injEq] at hflush
    obtain ⟨rfl, rfl⟩ := hflush
    rw [hitems (by simp)] at h
    refine ⟨_, rfl, ?_, fun _ => rfl⟩
    exact ((h.filled d.depth).recast (by simp [Expr.atoms])).congr rfl rfl
  | rootCommand =>
    obtain ⟨events, hrun⟩ := Collector.flush_rootCommand
      (c := ⟨.rootCommand, base.length, Piece.items all⟩) rfl hlines rfl
    rw [hrun, Prod.mk.injEq] at hflush
    obtain ⟨rfl, rfl⟩ := hflush
    rw [hitems (by simp)] at h
    refine ⟨_, Drafting.lines_use _ _, (h.filled d.depth).scope ?_ ?_ d.depth, by simp⟩
    · exact Drafting.refs_use _ _
    · exact Drafting.fresh_use _ _

end Account

namespace Compile

variable {c : Compiler}

namespace Splice

variable {collection : Collection} {d₀ d d' : Draft} {s : Splice} {ms ns : List Node}
  {ps : List Piece} {since : List Line} {r : Option Expr}

/-- **The end of the loop** is accounted for. -/
theorem Accounted.close (h : Accounted S collection d₀.lines d₀ s d ms ns ps since)
    (hclose : s.close d = (r, d')) :
    ∃ new, d'.lines = d₀.lines ++ new ∧ Account S d₀ (ms ++ ns) new r.toList d' ∧
      (collection = .command → ∀ e ∈ r, e = .commands) := by
  by_cases hps : ps = []
  · rw [close_static h.sound hps, Prod.mk.injEq] at hclose
    obtain ⟨rfl, rfl⟩ := hclose
    have haccount := h.account
    have hlines := h.sound.lines
    rw [hps] at haccount hlines
    exact ⟨since, by simpa using hlines, by simpa using haccount, by simp⟩
  · rw [close_dynamic h.sound hps rfl, Drafting.map_apply, Prod.mk.injEq] at hclose
    obtain ⟨rfl, rfl⟩ := hclose
    have hrun := Account.ofRun (S := S) collection (d := d)
      (e := { d with refs := d.refs ++ s.pending }) h.pending rfl rfl d.depth
    -- the last run stands behind the lines written since
    have hall : Account S d₀ (ms ++ ns)
        (Piece.allLines d.depth
          (ps ++ .emitted since :: collection.ofRun d.refs.length s.pending))
        (Piece.items (ps ++ .emitted since :: collection.ofRun d.refs.length s.pending))
        { d with refs := d.refs ++ s.pending } := by
      simpa [Piece.lines] using h.account.append hrun
    have hitems : collection ≠ .generic → Piece.items
        (ps ++ .emitted since :: collection.ofRun d.refs.length s.pending) = [] := fun hc => by
      simp [h.items hc, (Collection.items_eq_nil hc d.refs.length s.pending []).1]
    have hflush := Account.flush (d := { d with
      lines := d₀.lines ++ Piece.allLines d.depth
        (ps ++ .emitted since :: collection.ofRun d.refs.length s.pending)
      refs := d.refs ++ s.pending }) (hall.congr rfl rfl) rfl hitems (Prod.mk.eta).symm
    simpa using hflush

end Splice

/-- Absent children write nothing. -/
theorem flatMap_toList_emitters (children : List (Option Node)) :
    (children.flatMap fun child => child.toList.flatMap Node.emitters) =
      (children.filterMap id).flatMap Node.emitters := by
  induction children with
  | nil => rfl
  | cons child children ih =>
    rw [List.flatMap_cons, ih]
    cases child <;> simp

section

variable (collection : Collection) (children : List (Option Node))
  (hchildren : ∀ n, some n ∈ children → c.Accountable S n)
  (hnone : none ∈ children → S.entry none)

include hchildren hnone

/-- **Splicing a sequence** is accounted for if compiling its children is. -/
theorem account_splice {d d' : Draft} {r : Option Expr}
    (hrun : exec (splice collection (children.map (·.map c.part))) d = (.ok r, d')) :
    ∃ new, d'.lines = d.lines ++ new ∧
      Account S d ((children.filterMap id).flatMap Node.emitters) new r.toList d' ∧
      (collection = .command → ∀ e ∈ r, e = .commands) := by
  simp only [Compile.splice, exec_bind, exec_get, List.length_map, List.zipIdx_map] at hrun
  rcases hloop : exec (List.foldlM (Splice.step collection children.length) ⟨[], d.size, none⟩
    (children.zipIdx.map (Prod.map (·.map c.part) id))) d with ⟨e | s, d₁⟩
  · rw [hloop] at hrun
    cases hrun
  rw [hloop] at hrun
  have hstart : Splice.Accounted S collection d.lines d ⟨[], d.size, none⟩ d [] [] [] [] :=
    ⟨.start collection d, .idle rfl rfl, .nil, .nil, by simp, fun _ => rfl⟩
  have haccountable : ∀ p ∈ children.zipIdx, Splice.ChildAccountable S c p.1 := by
    intro p hp
    have hmem := List.fst_mem_of_mem_zipIdx hp
    refine ⟨?_, fun n hn => hchildren n (hn ▸ hmem)⟩
    cases hchild : p.1 with
    | none => exact hnone (hchild ▸ hmem)
    | some n => exact (hchildren n (hchild ▸ hmem)).entry
  obtain ⟨ms, ns, ps, since, h, hms⟩ := hstart.loop haccountable hloop
  have hclose : s.close d₁ = (r, d') := by
    simp only [exec_lift, Prod.mk.injEq, Except.ok.injEq] at hrun
    exact Prod.ext hrun.1 hrun.2
  obtain ⟨new, hlines, hnew, hcommands⟩ := h.close hclose
  rw [hms, List.zipIdx_map_fst, List.append_nil, List.nil_append, flatMap_toList_emitters] at hnew
  exact ⟨new, hlines, hnew, hcommands⟩

/-- **Splicing balances**, with the finished sequence in hand. -/
theorem Balances.splice :
    Balances S [] ((children.filterMap id).flatMap Node.emitters) Option.toList
      (Compile.splice collection (children.map (·.map c.part))) := by
  refine of_account Option.toList fun d r d' hrun => ?_
  obtain ⟨new, hlines, hnew, -⟩ := account_splice collection children hchildren hnone hrun
  exact ⟨new, hlines, hnew⟩

/-- A sequence of commands leaves nothing in hand. -/
theorem Balances.splice_commands :
    Balances S [] ((children.filterMap id).flatMap Node.emitters) (fun _ => [])
      (Compile.splice .command (children.map (·.map c.part))) := by
  refine of_account (fun _ => []) fun d r d' hrun => ?_
  obtain ⟨new, hlines, hnew, hcommands⟩ := account_splice .command children hchildren hnone hrun
  refine ⟨new, hlines, hnew.recast ?_⟩
  cases r with
  | none => simp
  | some e => simp [hcommands rfl e rfl, Expr.atoms]

end

end Compile

end ScriptSplice
