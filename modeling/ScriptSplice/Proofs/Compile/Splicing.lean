import ScriptSplice.Proofs.Compile.Loop
import ScriptSplice.Proofs.Rules.Keeping
/-!
# The splicing law

The statements that a collector writes say what the sequence is to be:
reading them from top to bottom, with references looked up in the table,
gives every unchanged child once and every fragment of the others once, in
the order of the children (`Splice.Loop.reading`). The law puts this
together with what the loop leaves in the buffer.
-/

namespace ScriptSplice

open Compile

namespace Compile

/-! ## Reading a sequence back -/

/-- What a statement or item of a collector adds to the sequence. -/
inductive Reading where
  /-- A node of the tree, as it is. -/
  | node (n : Option Node)
  /-- What a fragment computes. -/
  | code (e : Expr)

namespace Reading

/-- A fragment, with references looked up in the table. -/
def ofExpr (refs : List (Option Node)) : Expr → List Reading
  | .ref i => ((refs.drop i).take 1).map node
  | .slice i j => ((refs.drop i).take (j - i)).map node
  | e => [code e]

/-- What a piece adds to the sequence. -/
def ofPiece (refs : List (Option Node)) : Piece → List Reading
  | .stmt (.append e) | .stmt (.extend e) | .item e => ofExpr refs e
  | _ => []

/-- What a child is to become: itself, or its fragments. -/
def ofVisit (refs : List (Option Node)) (v : Visit) : List Reading :=
  match v.result with
  | none => [node v.node]
  | some es => es.flatMap (ofExpr refs)

/-- A run in the table is what the slice of its places reads. -/
theorem ofExpr_slice {before run refs : List (Option Node)} (h : before ++ run <+: refs) :
    ofExpr refs (.slice before.length (before.length + run.length)) = run.map node := by
  obtain ⟨rest, rfl⟩ := h
  simp [ofExpr, List.append_assoc]

theorem ofExpr_ref {before refs : List (Option Node)} {n : Option Node}
    (h : before ++ [n] <+: refs) : ofExpr refs (.ref before.length) = [node n] := by
  obtain ⟨rest, rfl⟩ := h
  simp [ofExpr, List.append_assoc]

/-- The references to a run read its children one by one. -/
theorem flatMap_refsFrom {before run refs : List (Option Node)} (h : before ++ run <+: refs) :
    (refsFrom before.length run.length).flatMap (ofExpr refs) = run.map node := by
  induction run generalizing before with
  | nil => rfl
  | cons n run ih =>
    have hn : before ++ [n] <+: refs := by
      refine List.IsPrefix.trans ?_ h
      exact ⟨run, by simp⟩
    have hcons : (before ++ [n]) ++ run <+: refs := by simpa using h
    have hrest := ih hcons
    rw [List.length_append, List.length_singleton] at hrest
    rw [refsFrom, List.length_cons, List.range'_succ, List.map_cons, List.flatMap_cons,
      ofExpr_ref hn]
    exact congrArg (node n :: ·) hrest

/-- **A run is read back as it is.** -/
theorem ofRun (collection : Collection) {before run refs : List (Option Node)}
    (h : before ++ run <+: refs) :
    (collection.ofRun before.length run).flatMap (ofPiece refs) = run.map node := by
  have hcommands : ((runStmts before.length run).map Piece.stmt).flatMap (ofPiece refs) =
      run.map node := by
    match run, h with
    | [], _ => rfl
    | [n], h => simpa [runStmts, ofPiece] using ofExpr_ref h
    | n :: m :: ns, h => simpa [runStmts, ofPiece] using ofExpr_slice h
  cases collection with
  | generic =>
    rw [Collection.ofRun, List.flatMap_map]
    exact flatMap_refsFrom h
  | command => exact hcommands
  | rootCommand => exact hcommands

/-- Fragments are read back one by one. -/
theorem ofFragments (collection : Collection) (refs : List (Option Node)) (es : List Expr) :
    (collection.ofFragments es).flatMap (ofPiece refs) = es.flatMap (ofExpr refs) := by
  cases collection <;> simp [Collection.ofFragments, List.flatMap_map, ofPiece]

end Reading

namespace Splice.Loop

variable {collection : Collection} {count : Nat} {children : List (Option Part × Nat)}
  {vs : List Visit} {base since : List Line} {ps : List Piece} {s s' : Splice} {d d' : Draft}

/-- **Reading the pieces back** gives the pending run and then every child
once and in order, whatever the table becomes later. -/
theorem reading (hkeeps : ∀ c ∈ children, ∀ p, c.1 = some p → Keeps Draft.Appends p.run)
    (h : Loop collection count s d children vs s' d')
    (hs : s.Sound collection base d ps since) {refs : List (Option Node)}
    (hrefs : d'.refs ++ s'.pending <+: refs) :
    (pieces collection s.pending since d.refs.length vs).flatMap (Reading.ofPiece refs) =
      s.pending.map .node ++ vs.flatMap (Reading.ofVisit refs) := by
  induction h generalizing ps since with
  | nil =>
    rw [pieces, List.flatMap_cons, Reading.ofRun collection hrefs]
    simp [Reading.ofPiece]
  | static hrun _ ih =>
    have hvisit := hs.visit (appends_child (hkeeps _ List.mem_cons_self) hrun)
    have hrest := ih (fun c hc => hkeeps c (List.mem_cons_of_mem _ hc))
      ⟨hvisit.lines, hvisit.place, hvisit.collector⟩ hrefs
    rw [pieces]
    simpa [Reading.ofVisit, Visit.lines] using hrest
  | @dynamic s s₂ s' d d₁ d₂ d' child i children vs es hrun hstep hloop ih =>
    have happends := appends_child (hkeeps _ List.mem_cons_self) hrun
    have hkeeps' := fun c hc => hkeeps c (List.mem_cons_of_mem _ hc)
    obtain ⟨hpending, ⟨events, hd₂⟩, hs₂⟩ := step_dynamic (hs.visit happends) hrun hstep
    obtain ⟨-, -, -, -, hgrow, -⟩ := hloop.sound hkeeps' hs₂
    have hrefs₂ : d₂.refs = d₁.refs ++ s.pending := by rw [hd₂]
    -- the table only grows from here, so the run is still read where it was put
    have hrun' : d₁.refs ++ s.pending <+: refs :=
      hrefs₂ ▸ hgrow.trans ((List.prefix_append _ _).trans hrefs)
    have hrest := ih hkeeps' hs₂ hrefs
    rw [hpending, hrefs₂, List.length_append] at hrest
    rw [pieces, List.flatMap_append, hrest, contribution, List.flatMap_append, List.flatMap_cons,
      Reading.ofRun collection hrun', Reading.ofFragments]
    simp [Reading.ofVisit, Reading.ofPiece]

end Splice.Loop

end Compile

/-! ## The law -/

namespace Compiler

variable (c : Compiler)

/-- A child in a numbered list of children. -/
private theorem exists_of_mem_zipIdx {children : List (Option Node)} {p : Option Part × Nat}
    (hp : p ∈ (children.map (·.map c.part)).zipIdx) : ∃ n : Option Node, p.1 = n.map c.part := by
  have hmem := List.mem_map_of_mem (f := Prod.fst) hp
  rw [List.zipIdx_map_fst] at hmem
  obtain ⟨n, -, hn⟩ := List.mem_map.1 hmem
  exact ⟨n, hn.symm⟩

/-- **The splicing law.** Splicing fails only where a child does. If every
child stays as it is, nothing comes of the sequence, and all that happens
is that the children are compiled one after another. Otherwise a sequence
of commands leaves the lines of its pieces in the buffer, `pass` if there
is none, and reading the pieces from top to bottom gives every unchanged
child once and every fragment of the others once, in the order of the
children. -/
theorem splicing_law (hc : c.RulesKeep Draft.Appends) (collection : Collection)
    (children : List (Option Node)) (d : Draft) :
    let parts := children.map (·.map c.part)
    let vs := visits collection parts d
    match exec (splice collection parts) d with
    | (.error _, _) => vs.length < children.length
    | (.ok r, d') =>
      vs.map (·.node) = children ∧
      (∀ v ∈ vs, exec (runChild (v.node.map c.part)) v.before = (.ok v.result, v.after) ∧
        v.after.lines = v.before.lines ++ v.lines) ∧
      ((∀ v ∈ vs, v.isStatic) →
        r = none ∧ d'.lines = d.lines ++ vs.flatMap Visit.lines ∧
          exec (parts.mapM runChild) d = (.ok (vs.map (·.result)), d')) ∧
      ((∃ v ∈ vs, ¬ v.isStatic) → collection = .command →
        r = some .commands ∧
          d'.lines = d.lines ++ filled d.depth
            (Piece.allLines d.depth (pieces .command [] [] d.refs.length vs)) ∧
          (pieces .command [] [] d.refs.length vs).flatMap (Reading.ofPiece d'.refs) =
            vs.flatMap (Reading.ofVisit d'.refs)) := by
  intro parts vs
  have hkeeps : ∀ p ∈ parts.zipIdx, ∀ q, p.1 = some q → Keeps Draft.Appends q.run := by
    intro p hp q hq
    obtain ⟨n, hn⟩ := exists_of_mem_zipIdx c hp
    obtain ⟨m, -, rfl⟩ := Option.map_eq_some_iff.1 (hn.symm.trans hq)
    exact keeps_part Draft.Appends.frame hc m
  have hparts : ∀ p ∈ parts.zipIdx, (p.1.map (·.node)).map c.part = p.1 := by
    intro p hp
    obtain ⟨n, hn⟩ := exists_of_mem_zipIdx c hp
    rw [hn]
    cases n <;> simp
  have hsplice := splice_visits collection parts d
  rcases hrun : exec (splice collection parts) d with ⟨e | r, d'⟩ <;> rw [hrun] at hsplice
  · simpa [parts] using hsplice
  obtain ⟨s, d₁, hclose, hloop⟩ := hsplice
  have hstart := Splice.Sound.start collection d
  obtain ⟨ps, since, hsound, hdepth, hrefs, hpieces, hstatic⟩ := hloop.sound hkeeps hstart
  have hnodes : vs.map (·.node) = children := by
    have hfst : (parts.zipIdx.map Prod.fst).map (Option.map (·.node)) = children := by
      rw [List.zipIdx_map_fst]
      simp [parts, Function.comp_def]
    rw [← hfst, List.map_map]
    exact hloop.nodes
  refine ⟨hnodes, fun v hv => ?_, fun hall => ?_, fun ⟨v, hv, hchanged⟩ hcommand => ?_⟩
  -- a visit is a run of its own child, and a run only appends
  · exact ⟨hloop.visited hparts v hv, (v.lines_append (hloop.appends_visit hkeeps v hv)).symm⟩
  -- without a changed child there are no pieces, and nothing to close
  · have hps := hstatic.2 hall
    obtain ⟨hs, hmap⟩ := hloop.static_run hall
    rw [Splice.close_static hsound hps, Prod.mk.injEq] at hclose
    obtain ⟨rfl, rfl⟩ := hclose
    refine ⟨rfl, hloop.static_lines hkeeps hall, ?_⟩
    rwa [List.zipIdx_map_fst] at hmap
  -- with one there is a collector, and closing it adds the last run
  · have hps : ps ≠ [] := fun h => hchanged (hstatic.1 h v hv)
    subst hcommand
    rw [Splice.close_dynamic hsound hps rfl, Drafting.map_apply,
      Collector.flush_command rfl rfl rfl, hdepth, List.nil_append, ← hpieces,
      Prod.mk.injEq] at hclose
    obtain ⟨rfl, rfl⟩ := hclose
    exact ⟨rfl, rfl, hloop.reading hkeeps hstart (List.prefix_refl _)⟩

/-- A handler that writes a line and leaves two fragments. -/
private def twice : Handler := fun _ _ _ => do
  Drafting.emit .pass
  return some [.verbatim (ascii "a"), .verbatim (ascii "b")]

/-- The law for a compiler with a further rule, on a changed child between
unchanged ones. -/
theorem splicing_law_twice :
    let c := (builtin .standard []).extend (RuleSet.empty.add (Handler.forKind .message "" twice))
    let leaf : Node := ⟨.string, [], .unknown⟩
    let children : List (Option Node) :=
      [some leaf, some ⟨.message, [], .unknown⟩, none, some leaf]
    let result := exec (splice .command (children.map (·.map c.part))) .empty
    c.RulesKeep Draft.Appends ∧ result.2.lines =
      [⟨0, .append (.ref 0)⟩, ⟨0, .pass⟩, ⟨0, .append (.verbatim (ascii "a"))⟩,
        ⟨0, .append (.verbatim (ascii "b"))⟩, ⟨0, .extend (.slice 1 3)⟩] := by
  intro c leaf children result
  have hc : c.RulesKeep Draft.Appends := by
    refine (rulesKeep_builtin _ _ _).extend fun r hr => ?_
    obtain rfl := List.mem_singleton.1 hr
    exact fun _ _ _ _ => Draft.Appends.frame.bind
      (Frame.lift (Draft.Appends.frame.emit · _)) fun _ => Draft.Appends.frame.pure _
  have hlaw := splicing_law c hc .command children .empty
  exact ⟨hc, (hlaw.2.2.2 ⟨_, List.mem_cons_of_mem _ List.mem_cons_self, by decide⟩ rfl).2.1⟩

end Compiler

end ScriptSplice
