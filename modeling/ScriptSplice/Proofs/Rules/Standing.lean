import ScriptSplice.Proofs.Rules.Deeds
import ScriptSplice.Proofs.Rules.Order
/-!
# Where lines come to stand

What an action writes for one of its deeds is moved about before the
program is done: splicing puts statements of its own before and behind the
lines of a child, and the block of a root moves one level further in. But
the lines of a deed stay together. They stand in the lines of the action in
one piece (`Line.StandIn`), and by induction over the tree so do the lines
of every node that is compiled (`Compiler.leaves_compileRoot`).
-/

namespace ScriptSplice

open Compile

variable {α β : Type}

/-- A line some levels further in. -/
def Line.deeper (levels : Nat) (l : Line) : Line := { l with depth := l.depth + levels }

/-- **Lines in one piece** among others, all as many levels further in. -/
def Line.StandIn (ls all : List Line) : Prop := ∃ levels, ls.map (deeper levels) <:+: all

namespace Line.StandIn

variable {ls ms all : List Line}

theorem of_isInfix (h : ls <:+: all) : StandIn ls all := by
  have hsame : ls.map (deeper 0) = ls := List.map_id ls
  exact ⟨0, by rwa [hsame]⟩

theorem refl (ls : List Line) : StandIn ls ls := .of_isInfix (List.infix_refl ls)

theorem trans (h : StandIn ls ms) (h' : StandIn ms all) : StandIn ls all := by
  obtain ⟨i, hi⟩ := h
  obtain ⟨j, hj⟩ := h'
  refine ⟨i + j, ?_⟩
  have hdeeper : ls.map (deeper (i + j)) = (ls.map (deeper i)).map (deeper j) := by
    simp [deeper, Nat.add_assoc]
  rw [hdeeper]
  exact (hi.map _).trans hj

theorem indent (ls : List Line) : StandIn ls (ls.map Line.indent) :=
  ⟨1, List.infix_refl _⟩

/-- The lines of a block are there even if there are none. -/
theorem filled (depth : Nat) (ls : List Line) : StandIn ls (filled depth ls) := by
  unfold ScriptSplice.filled
  split
  · rename_i hnil
    rw [hnil]
    exact .of_isInfix ⟨[], _, rfl⟩
  · exact .refl ls

end Line.StandIn

/-! ## Pieces of a sequence -/

namespace Compile

variable {collection : Collection} {depth : Nat}

/-- The lines since the last changed child are among those of the pieces. -/
theorem infix_pieces_since (run : List (Option Node)) (since : List Line) (k : Nat)
    (vs : List Visit) :
    since <:+: Piece.allLines depth (pieces collection run since k vs) := by
  induction vs generalizing run since k with
  | nil => exact (List.prefix_append _ _).isInfix
  | cons v vs ih =>
    cases hresult : v.result with
    | none =>
      simp only [pieces, hresult]
      exact (List.prefix_append _ _).isInfix.trans (ih _ _ _)
    | some es =>
      simp only [pieces, hresult, Splice.contribution, Piece.allLines_append, Piece.allLines_cons,
        Piece.lines, List.append_assoc]
      exact List.infix_append' _ since _

/-- The pieces of the later visits come last. -/
theorem suffix_pieces (collection : Collection) (depth : Nat) (run : List (Option Node))
    (since : List Line) (k : Nat) (ws vs : List Visit) : ∃ run' since' k',
      Piece.allLines depth (pieces collection run' since' k' vs) <:+
        Piece.allLines depth (pieces collection run since k (ws ++ vs)) := by
  induction ws generalizing run since k with
  | nil => exact ⟨run, since, k, List.suffix_refl _⟩
  | cons w ws ih =>
    rw [List.cons_append, pieces]
    cases w.result with
    | none => exact ih _ _ _
    | some es =>
      obtain ⟨run', since', k', hsuffix⟩ := ih [] [] (w.after.refs.length + run.length)
      refine ⟨run', since', k', ?_⟩
      simp only [Piece.allLines_append]
      exact hsuffix.trans (List.suffix_append _ _)

/-- **The lines of a child** are among those of the pieces, in one piece. -/
theorem infix_pieces (run : List (Option Node)) (since : List Line) (k : Nat) (ws : List Visit)
    (v : Visit) (vs : List Visit) :
    v.lines <:+: Piece.allLines depth (pieces collection run since k (ws ++ v :: vs)) := by
  obtain ⟨run', since', k', hsuffix⟩ := suffix_pieces collection depth run since k ws (v :: vs)
  refine List.IsInfix.trans ?_ hsuffix.isInfix
  cases hresult : v.result with
  | none =>
    simp only [pieces, hresult]
    exact (List.suffix_append _ _).isInfix.trans (infix_pieces_since _ _ _ _)
  | some es =>
    simp only [pieces, hresult, Splice.contribution, Piece.allLines_append, Piece.allLines_cons,
      Piece.lines]
    exact (List.suffix_append since' _).isInfix.trans
      ((List.prefix_append _ _).isInfix.trans
        ((List.suffix_append _ _).isInfix.trans (List.prefix_append _ _).isInfix))

/-- **Nothing comes between** the lines of two commands that leave no
fragment, one behind the other. -/
theorem infix_pieces_pair (run : List (Option Node)) (since : List Line) (k : Nat)
    (ws : List Visit) {v w : Visit} (vs : List Visit) (hv : v.result = some [])
    (hw : w.result = some []) :
    v.lines ++ w.lines <:+:
      Piece.allLines depth (pieces collection run since k (ws ++ v :: w :: vs)) := by
  obtain ⟨run', since', k', hsuffix⟩ := suffix_pieces collection depth run since k ws (v :: w :: vs)
  refine List.IsInfix.trans ?_ hsuffix.isInfix
  -- no fragment comes behind the first, and no run of static children before
  -- the second
  have hnone : Piece.allLines depth (collection.ofFragments []) = [] ∧
      ∀ i, Piece.allLines depth (collection.ofRun i []) = [] := by
    cases collection <;> exact ⟨rfl, fun _ => rfl⟩
  simp only [pieces, hv, hw, Splice.contribution, Piece.allLines_append, Piece.allLines_cons,
    Piece.lines, hnone.1, hnone.2, List.nil_append, List.append_nil]
  refine ⟨Piece.allLines depth (collection.ofRun v.after.refs.length run') ++ since',
    Piece.allLines depth (pieces collection [] [] (w.after.refs.length + 0) vs), ?_⟩
  simp [List.append_assoc]

/-! ## Actions -/

/-- An action that ends well has written, among its lines and in one piece,
lines with a property. -/
def Leaves (L : List Line → Prop) (act : Compile α) : Prop :=
  ∀ d a d', exec act d = (.ok a, d') → ∃ ls, L ls ∧ Line.StandIn ls (d'.lines.drop d.size)

/-- A deed that leaves lines with a property. -/
def Deed.Leaves (c : Compiler) (L : List Line → Prop) : Deed → Prop
  | compile n => Compile.Leaves L (c.part n).run
  | splice collection children =>
    Compile.Leaves L (Compile.splice collection (children.map (·.map c.part)))
  | write | lack => False

variable {c : Compiler} {P : Prop} {L : List Line → Prop} {xs : List Deed} {act : Compile α}

/-- **What a deed leaves the action leaves.** -/
theorem Does.leaves (hc : c.RulesKeep Draft.Appends) (h : Does c P xs act) {x : Deed} (hx : x ∈ xs)
    (hL : x.Leaves c L) : Leaves L act := by
  have hkeeps : ∀ n, Keeps Draft.Appends (c.part n).run :=
    fun n => c.keeps_part Draft.Appends.frame hc n
  induction h with
  | pure | ref | use | note => cases hx
  | throw => rintro d _ _ ⟨⟩
  | @bind_of_ok _ _ xs ys act next hfirst hnext ih ihnext =>
    intro d b d' hrun
    obtain ⟨a, d₁, hact, hrun⟩ := exec_bind_eq_ok hrun
    have happends : d.Appends d₁ := by
      have hkeep := hfirst.keeps Draft.Appends.frame (fun _ _ n _ => hkeeps n) d
      rwa [hact] at hkeep
    have happends' : d₁.Appends d' := by
      have hkeep := (hnext a d d₁ hact).keeps Draft.Appends.frame (fun _ _ n _ => hkeeps n) d₁
      rwa [hrun] at hkeep
    -- the new lines of both are those of the first, then those of the second
    rw [happends.drop happends']
    rcases List.mem_append.1 hx with hx | hx
    · obtain ⟨ls, hls, hstand⟩ := ih hx d a d₁ hact
      exact ⟨ls, hls, hstand.trans (.of_isInfix (List.prefix_append _ _).isInfix)⟩
    · obtain ⟨ls, hls, hstand⟩ := ihnext a d d₁ hact hx d₁ b d' hrun
      exact ⟨ls, hls, hstand.trans (.of_isInfix (List.suffix_append _ _).isInfix)⟩
  | inBlock _ ih =>
    intro d a d' hrun
    rcases hact : exec _ { d with depth := d.depth + 1 } with ⟨r, d₁⟩
    rw [exec_inBlock, hact] at hrun
    cases hrun
    exact ih hx { d with depth := d.depth + 1 } a d₁ hact
  | emit | skip | lack =>
    obtain rfl := List.mem_singleton.1 hx
    exact hL.elim
  | run n =>
    obtain rfl := List.mem_singleton.1 hx
    exact hL
  | splice collection children =>
    obtain rfl := List.mem_singleton.1 hx
    exact hL

/-! ## Sequences -/

/-- The children of a sequence are compiled at its depth. -/
theorem Splice.Loop.depth_before {count : Nat} {children : List (Option Part × Nat)}
    {vs : List Visit} {s s' : Splice} {d d' : Draft}
    (h : Loop collection count s d children vs s' d')
    (hkeeps : ∀ c ∈ children, ∀ p, c.1 = some p → Keeps Draft.Appends p.run) :
    ∀ v ∈ vs, v.before.depth = d.depth := by
  induction h with
  | nil => simp
  | static hrun _ ih =>
    have happends := appends_child (hkeeps _ List.mem_cons_self) hrun
    refine List.forall_mem_cons.2 ⟨rfl, fun v hv => ?_⟩
    rw [ih (fun c hc => hkeeps c (List.mem_cons_of_mem _ hc)) v hv, happends.depth]
  | dynamic hrun hstep _ ih =>
    have happends := appends_child (hkeeps _ List.mem_cons_self) hrun
    obtain ⟨lines, refs, events, rfl⟩ := step_only hrun hstep
    refine List.forall_mem_cons.2 ⟨rfl, fun v hv => ?_⟩
    rw [ih (fun c hc => hkeeps c (List.mem_cons_of_mem _ hc)) v hv]
    exact happends.depth

/-- The lines of a collector's pieces are among those of the sequence. -/
theorem standIn_flush {d : Draft} {base : List Line} {ps : List Piece}
    (hlines : d.lines = base ++ Piece.allLines depth ps) {e : Expr} {d' : Draft}
    (h : Collector.flush ⟨collection, base.length, Piece.items ps⟩ d = (e, d')) :
    Line.StandIn (Piece.allLines depth ps) (d'.lines.drop base.length) := by
  cases collection with
  | generic =>
    rw [Collector.flush_generic rfl, Prod.mk.injEq] at h
    rw [← h.2, Drafting.lines_use, hlines, List.drop_left]
    exact .refl _
  | command =>
    rw [Collector.flush_command rfl hlines rfl, Prod.mk.injEq] at h
    rw [← h.2, List.drop_left]
    exact .filled _ _
  | rootCommand =>
    obtain ⟨events, hflush⟩ := Collector.flush_rootCommand
      (c := ⟨.rootCommand, base.length, Piece.items ps⟩) rfl hlines rfl
    rw [hflush, Prod.mk.injEq] at h
    rw [← h.2, Drafting.lines_use, List.drop_left]
    exact (Line.StandIn.filled d.depth _).trans
      ((Line.StandIn.indent _).trans (.of_isInfix (List.suffix_cons _ _).isInfix))

/-- **The lines of a sequence.** Its children are compiled in order, each at
the depth of the sequence. If none changes, their lines follow one another,
and otherwise the lines of the pieces that they make stand in those of the
sequence. -/
theorem lines_splice (hc : c.RulesKeep Draft.Appends) {children : List (Option Node)}
    {d d' : Draft} {r : Option Expr}
    (hrun : exec (splice collection (children.map (·.map c.part))) d = (.ok r, d')) :
    ∃ vs : List Visit, vs.map (·.node) = children ∧
      (∀ v ∈ vs, v.before.depth = d.depth ∧
        exec (runChild (v.node.map c.part)) v.before = (.ok v.result, v.after)) ∧
      ((∀ v ∈ vs, v.isStatic) ∧ d'.lines.drop d.size = vs.flatMap Visit.lines ∨
        Line.StandIn (Piece.allLines d.depth (pieces collection [] [] d.refs.length vs))
          (d'.lines.drop d.size)) := by
  have hsplice := splice_visits collection (children.map (·.map c.part)) d
  rw [hrun] at hsplice
  obtain ⟨s, d₁, hclose, hloop⟩ := hsplice
  have hkeeps : ∀ p ∈ (children.map (·.map c.part)).zipIdx, ∀ q, p.1 = some q →
      Keeps Draft.Appends q.run := by
    intro p hp q hq
    obtain ⟨n, -, rfl⟩ := exists_of_mem_parts (hq ▸ List.fst_mem_of_mem_zipIdx hp)
    exact c.keeps_part Draft.Appends.frame hc n
  obtain ⟨hnodes, hvisited⟩ := hloop.visits_children
  refine ⟨_, hnodes, fun v hv => ⟨hloop.depth_before hkeeps v hv, hvisited v hv⟩, ?_⟩
  have hstart := Splice.Sound.start collection d
  obtain ⟨ps, since, hsound, hdepth, -, hpieces, hstatic⟩ := hloop.sound hkeeps hstart
  by_cases hps : ps = []
  · rw [Splice.close_static hsound hps, Prod.mk.injEq] at hclose
    refine .inl ⟨hstatic.1 hps, ?_⟩
    rw [← hclose.2, hloop.static_lines hkeeps (hstatic.1 hps), Draft.size, List.drop_left]
  · -- some child has changed, so there is a collector to flush
    rw [Splice.close_dynamic hsound hps rfl, Drafting.map_apply, Prod.mk.injEq] at hclose
    rw [hpieces, ← hclose.2, ← hdepth]
    exact .inr (standIn_flush rfl rfl)

/-- **What a child leaves the sequence leaves.** -/
theorem leaves_child (hc : c.RulesKeep Draft.Appends) {children : List (Option Node)} {n : Node}
    (hn : some n ∈ children) (hL : Leaves L (c.part n).run) :
    Leaves L (splice collection (children.map (·.map c.part))) := by
  intro d r d' hrun
  obtain ⟨vs, hnodes, hvisits, hlines⟩ := lines_splice hc hrun
  rw [← hnodes] at hn
  obtain ⟨v, hv, hnode⟩ := List.mem_map.1 hn
  have hvisit := (hvisits v hv).2
  rw [hnode] at hvisit
  obtain ⟨ls, hls, hstand⟩ := hL _ _ _ hvisit
  refine ⟨ls, hls, hstand.trans ?_⟩
  rcases hlines with ⟨-, hlines⟩ | hpieces
  · rw [hlines]
    obtain ⟨ws, us, rfl⟩ := List.append_of_mem hv
    rw [List.flatMap_append, List.flatMap_cons, ← List.append_assoc]
    exact .of_isInfix (List.infix_append _ _ _)
  · refine Line.StandIn.trans (.of_isInfix ?_) hpieces
    obtain ⟨ws, us, rfl⟩ := List.append_of_mem hv
    exact infix_pieces _ _ _ ws v us

/-- **Two commands behind one another** that leave no fragment leave their
lines behind one another, written at one depth. -/
theorem leaves_pair (hc : c.RulesKeep Draft.Appends) {xs ys : List (Option Node)} {a b : Node}
    (ha : Yields (c.part a).run (· = some [])) (hb : Yields (c.part b).run (· = some [])) :
    Leaves (fun ls => ∃ va vb : Visit, va.before.depth = vb.before.depth ∧
        exec (c.part a).run va.before = (.ok (some []), va.after) ∧
        exec (c.part b).run vb.before = (.ok (some []), vb.after) ∧ ls = va.lines ++ vb.lines)
      (splice collection ((xs ++ some a :: some b :: ys).map (·.map c.part))) := by
  intro d r d' hrun
  obtain ⟨vs, hnodes, hvisits, hlines⟩ := lines_splice hc hrun
  obtain ⟨ws, us, rfl, -, hus⟩ := List.map_eq_append_iff.1 hnodes
  obtain ⟨va, us, rfl, hva, hus⟩ := List.map_eq_cons_iff.1 hus
  obtain ⟨vb, us, rfl, hvb, -⟩ := List.map_eq_cons_iff.1 hus
  obtain ⟨hdepth, hrunA⟩ := hvisits va (by simp)
  obtain ⟨hdepth', hrunB⟩ := hvisits vb (by simp)
  rw [hva] at hrunA
  rw [hvb] at hrunB
  have hra := ha _ _ _ hrunA
  have hrb := hb _ _ _ hrunB
  rw [hra] at hrunA
  rw [hrb] at hrunB
  refine ⟨_, ⟨va, vb, hdepth.trans hdepth'.symm, hrunA, hrunB, rfl⟩, ?_⟩
  rcases hlines with ⟨hstatic, -⟩ | hpieces
  · -- a child that leaves fragments, be there none, is no static one
    have hv := hstatic va (by simp)
    rw [Visit.isStatic, hra] at hv
    cases hv
  · exact Line.StandIn.trans (.of_isInfix (infix_pieces_pair _ _ _ ws us hra hrb)) hpieces

end Compile

/-! ## Nodes and trees -/

/-- A deed leaves what one of its nodes leaves. -/
theorem Compile.Deed.leaves_of_mem_nodes {c : Compiler} {L : List Line → Prop}
    (hc : c.RulesKeep Draft.Appends) {x : Deed} {n : Node} (hn : n ∈ x.nodes)
    (hL : Compile.Leaves L (c.part n).run) : x.Leaves c L := by
  cases x with
  | compile m =>
    obtain rfl := List.mem_singleton.1 hn
    exact hL
  | splice collection children => exact leaves_child hc (mem_nodes_splice.1 hn) hL
  | write | lack => cases hn

namespace Compiler

variable (o : Options) (parsers : Parsers) {L : List Line → Prop} {n m : Node}

/-- **What compiling a node leaves** stands in one piece in what compiling
any node above it leaves. -/
theorem leaves_part (hm : m ∈ n.invocations) (hL : Leaves L ((builtin o parsers).part m).run) :
    Leaves L ((builtin o parsers).part n).run := by
  have hc := rulesKeep_builtin Draft.Appends o parsers
  induction n using Node.induction_descendants with
  | step n ih =>
    obtain rfl | ⟨x, hx, k, hkx, hm⟩ := Node.mem_invocations_iff.1 hm
    · exact hL
    · have hleaves := ih k (Node.mem_descendants_of_mem_nodes hx hkx) hm
      exact (does_part o parsers n).leaves hc hx (Deed.leaves_of_mem_nodes hc hkx hleaves)

/-- And so it does in the program, whose last line comes behind. -/
theorem leaves_compileRoot {root : Node} (hm : m ∈ root.invocations)
    (hL : Leaves L ((builtin o parsers).part m).run) :
    Leaves L ((builtin o parsers).compileRoot root) := by
  have hroot := leaves_part o parsers hm hL
  intro d outcome d' hrun
  have happends := keeps_part Draft.Appends.frame (rulesKeep_builtin _ o parsers) root d
  rw [exec_compileRoot] at hrun
  rcases hpart : exec ((builtin o parsers).part root).run d with
    ⟨_ | _ | _ | ⟨e, _ | _⟩, d₁⟩ <;> rw [hpart] at hrun happends <;> cases hrun
  · exact hroot d _ d₁ hpart
  · obtain ⟨ls, hls, hstand⟩ := hroot d _ d₁ hpart
    have hle : d.size ≤ d₁.lines.length := happends.lines.length_le
    refine ⟨ls, hls, hstand.trans (.of_isInfix ?_)⟩
    simp only [List.drop_append_of_le_length hle]
    exact (List.prefix_append _ _).isInfix

end Compiler

end ScriptSplice
