import ScriptSplice.Proofs.Compile.Loop
import ScriptSplice.Proofs.Rules.Emission
import ScriptSplice.Proofs.Target.Calls
/-!
# In which order a program calls

The children of a node are compiled in turn. The lines of each are behind
those of the ones before it, and where a sequence collects commands, so
are its fragments. Any other fragment is held back for the new node, and
is evaluated when all lines have run. So the calls of the children come in
the order of the children, unless one that holds calls back is followed
by one whose lines call (`Compiler.calls_in_order`); and then they do not
(`Compiler.calls_out_of_order`).
-/

namespace ScriptSplice

open Compile

/-! ## Turns -/

/-- A child that was compiled in its turn, and whether its fragments were
written behind its lines and not held back. -/
structure Turn where
  visit : Visit
  spent : Bool

namespace Turn

variable (t : Turn)

/-- The fragments of the child. -/
def fragments : List Expr := t.visit.result.getD []

/-- What the child calls. -/
def calls : List Expr := Line.calls t.visit.lines ++ Expr.callsAll t.fragments

/-- What it calls in lines. -/
def written : List Expr :=
  Line.calls t.visit.lines ++ if t.spent then Expr.callsAll t.fragments else []

/-- What it calls when all lines have run. -/
def held : List Expr := if t.spent then [] else Expr.callsAll t.fragments

theorem calls_eq : t.calls = t.written ++ t.held := by
  unfold calls written held
  split <;> simp

/-- **If nothing is held back before calls in lines**, the calls are in the
order of the turns. -/
theorem flatMap_calls {ts : List Turn}
    (h : ts.Pairwise fun t u => t.held = [] ∨ u.written = []) :
    ts.flatMap written ++ ts.flatMap held = ts.flatMap calls := by
  induction ts with
  | nil => rfl
  | cons t ts ih =>
    rw [List.pairwise_cons] at h
    simp only [List.flatMap_cons, ← ih h.2, t.calls_eq, List.append_assoc]
    by_cases hheld : t.held = []
    · rw [hheld, List.nil_append, List.nil_append]
    · have hwritten : ts.flatMap written = [] :=
        List.flatMap_eq_nil_iff.2 fun u hu => (h.1 u hu).resolve_left hheld
      rw [hwritten, List.nil_append, List.nil_append]

end Turn

/-! ## Sequences -/

namespace Compile

variable (collection : Collection)

/-- A statement or an item for children that stay calls nothing. -/
theorem calls_ofRun (depth k : Nat) (run : List (Option Node)) :
    Line.calls (Piece.allLines depth (collection.ofRun k run)) = [] ∧
      Expr.callsAll (Piece.items (collection.ofRun k run)) = [] := by
  have hstmts : Line.calls ((runStmts k run).map (Line.mk depth)) = [] := by
    match run with
    | [] | [_] | _ :: _ :: _ => rfl
  have hrefs : Expr.callsAll (refsFrom k run.length) = [] := by
    rw [Expr.callsAll_eq, refsFrom, List.flatMap_map]
    exact List.flatMap_eq_nil_iff.2 fun _ _ => rfl
  cases collection <;> simp [Collection.ofRun, hstmts, hrefs, -List.map_map]

theorem calls_ofFragments (depth : Nat) (es : List Expr) :
    Line.calls (Piece.allLines depth (collection.ofFragments es)) =
        (if collection != .generic then Expr.callsAll es else []) ∧
      Expr.callsAll (Piece.items (collection.ofFragments es)) =
        if collection != .generic then [] else Expr.callsAll es := by
  have hstmts : Line.calls ((es.map Stmt.append).map (Line.mk depth)) = Expr.callsAll es := by
    rw [List.map_map, Line.calls, List.flatMap_map, Expr.callsAll_eq]
    rfl
  cases collection <;> simp [Collection.ofFragments, hstmts, -List.map_map]

/-- **The calls of a sequence** are those of its turns. -/
theorem calls_pieces (depth : Nat) (run : List (Option Node)) (since : List Line) (k : Nat)
    (vs : List Visit) :
    let ts := vs.map (Turn.mk · (collection != .generic))
    Line.calls (Piece.allLines depth (pieces collection run since k vs)) =
        Line.calls since ++ ts.flatMap Turn.written ∧
      Expr.callsAll (Piece.items (pieces collection run since k vs)) = ts.flatMap Turn.held := by
  induction vs generalizing run since k with
  | nil =>
    have hrun := calls_ofRun collection depth k run
    simp [pieces, Piece.lines, hrun.1, hrun.2]
  | cons v vs ih =>
    cases hresult : v.result with
    | none =>
      have hrest := ih (run ++ [v.node]) (since ++ v.lines) v.after.refs.length
      simp only [pieces, hresult, hrest.1, hrest.2]
      simp [Turn.written, Turn.held, Turn.fragments, hresult]
    | some es =>
      have hrest := ih [] [] (v.after.refs.length + run.length)
      have hrun := calls_ofRun collection depth v.after.refs.length run
      have hes := calls_ofFragments collection depth es
      simp [pieces, hresult, Splice.contribution, Piece.lines, hrest.1, hrest.2, hrun.1, hrun.2,
        hes.1, hes.2, Turn.written, Turn.held, Turn.fragments]

end Compile

/-- The calls of a block that must not be empty are those of its lines. -/
theorem calls_filled (depth : Nat) (ls : List Line) :
    Line.calls (filled depth ls) = Line.calls ls := by
  unfold filled
  split
  · rename_i hnil
    rw [hnil]
    rfl
  · rfl

/-- **Children compiled in their turns**, each where it is said to be, from
one draft to another. Their calls in lines are those of the lines written,
and those held back are those of the fragments given. -/
structure Turns (c : Compiler) (d : Draft) (places : List (Option Node × Bool)) (ts : List Turn)
    (es : List Expr) (d' : Draft) : Prop where
  places : ts.map (fun t => (t.visit.node, t.spent)) = places
  visited : ∀ t ∈ ts,
    exec (runChild (t.visit.node.map c.part)) t.visit.before = (.ok t.visit.result, t.visit.after)
  lines : ∃ new, d'.lines = d.lines ++ new ∧ Line.calls new = ts.flatMap Turn.written
  held : Expr.callsAll es = ts.flatMap Turn.held

namespace Turns

variable {c : Compiler} {d d' d'' : Draft} {places more : List (Option Node × Bool)}
  {ts us : List Turn} {es fs : List Expr}

theorem nil (hlines : d'.lines = d.lines) : Turns c d [] [] [] d' :=
  ⟨rfl, by simp, ⟨[], by simp [hlines], rfl⟩, rfl⟩

theorem append (h : Turns c d places ts es d') (h' : Turns c d' more us fs d'') :
    Turns c d (places ++ more) (ts ++ us) (es ++ fs) d'' where
  places := by rw [List.map_append, h.places, h'.places]
  visited := List.forall_mem_append.2 ⟨h.visited, h'.visited⟩
  lines := by
    obtain ⟨new, hnew, hcalls⟩ := h.lines
    obtain ⟨new', hnew', hcalls'⟩ := h'.lines
    refine ⟨new ++ new', by rw [hnew', hnew, List.append_assoc], ?_⟩
    rw [Line.calls_append, hcalls, hcalls', List.flatMap_append]
  held := by rw [Expr.callsAll_append, h.held, h'.held, List.flatMap_append]

/-- Only the lines matter, and what the fragments call. -/
theorem congr (h : Turns c d places ts es d') (hlines : d''.lines = d'.lines)
    (hcalls : Expr.callsAll fs = Expr.callsAll es) : Turns c d places ts fs d'' where
  places := h.places
  visited := h.visited
  lines := hlines ▸ h.lines
  held := hcalls.trans h.held

end Turns

namespace Compile

variable {c : Compiler} {collection : Collection} {d d' : Draft}

/-- **The finished sequence** calls what its pieces do. -/
theorem calls_flush (base : List Line) {all : List Piece} {e : Expr}
    (hlines : d.lines = base ++ Piece.allLines d.depth all)
    (hitems : collection ≠ .generic → Expr.callsAll (Piece.items all) = [])
    (hflush : Collector.flush ⟨collection, base.length, Piece.items all⟩ d = (e, d')) :
    ∃ new, d'.lines = base ++ new ∧ Line.calls new = Line.calls (Piece.allLines d.depth all) ∧
      e.calls = Expr.callsAll (Piece.items all) := by
  cases collection with
  | generic =>
    rw [Collector.flush_generic rfl, Prod.mk.injEq] at hflush
    obtain ⟨rfl, rfl⟩ := hflush
    refine ⟨_, (Drafting.lines_use _ _).trans hlines, rfl, ?_⟩
    simp [Expr.calls, Helper.converts]
  | command =>
    rw [Collector.flush_command rfl hlines rfl, Prod.mk.injEq] at hflush
    obtain ⟨rfl, rfl⟩ := hflush
    exact ⟨_, rfl, calls_filled _ _, (hitems (by simp)).symm⟩
  | rootCommand =>
    obtain ⟨events, hrun⟩ := Collector.flush_rootCommand
      (c := ⟨.rootCommand, base.length, Piece.items all⟩) rfl hlines rfl
    rw [hrun, Prod.mk.injEq] at hflush
    obtain ⟨rfl, rfl⟩ := hflush
    refine ⟨_, Drafting.lines_use _ _, ?_, (hitems (by simp)).symm⟩
    simp [Stmt.calls, calls_filled]

section

variable {children : List (Option Node)}

/-- The work on a child in its place. -/
theorem exists_child_of_mem_zipIdx {p : Option Part × Nat}
    (hp : p ∈ (children.map (·.map c.part)).zipIdx) :
    ∃ child ∈ children, p.1 = child.map c.part := by
  obtain ⟨child, hchild, h⟩ := List.mem_map.1 (List.fst_mem_of_mem_zipIdx hp)
  exact ⟨child, hchild, h.symm⟩

theorem map_node_part (child : Option Node) : (child.map c.part).map (·.node) = child := by
  cases child <;> simp

/-- A run of the loop visits the children in order. -/
theorem Splice.Loop.visits_children {count : Nat} {vs : List Visit} {s s' : Splice}
    (h : Loop collection count s d (children.map (·.map c.part)).zipIdx vs s' d') :
    vs.map (·.node) = children ∧ ∀ v ∈ vs,
      exec (runChild (v.node.map c.part)) v.before = (.ok v.result, v.after) := by
  refine ⟨?_, h.visited fun p hp => ?_⟩
  · rw [h.nodes]
    change (children.map (·.map c.part)).zipIdx.map ((·.map (·.node)) ∘ Prod.fst) = children
    rw [← List.map_map, List.zipIdx_map_fst, List.map_map]
    exact (List.map_congr_left fun child _ => map_node_part child).trans (List.map_id _)
  · obtain ⟨child, -, hchild⟩ := exists_child_of_mem_zipIdx hp
    rw [hchild, map_node_part]

/-- **The turns of a sequence.** -/
theorem turns_splice (hkeeps : ∀ n, some n ∈ children → Keeps Draft.Appends (c.part n).run)
    {r : Option Expr}
    (hrun : exec (splice collection (children.map (·.map c.part))) d = (.ok r, d')) :
    ∃ ts, Turns c d (children.map (·, collection != .generic)) ts r.toList d' := by
  have hsplice := splice_visits collection (children.map (·.map c.part)) d
  rw [hrun] at hsplice
  obtain ⟨s, d₁, hclose, hloop⟩ := hsplice
  obtain ⟨hnodes, hvisited⟩ := hloop.visits_children
  have hkeeps' : ∀ p ∈ (children.map (·.map c.part)).zipIdx, ∀ q, p.1 = some q →
      Keeps Draft.Appends q.run := by
    intro p hp q hq
    obtain ⟨child, hchild, h⟩ := exists_child_of_mem_zipIdx hp
    obtain ⟨n, rfl, rfl⟩ := Option.map_eq_some_iff.1 (h.symm.trans hq)
    exact hkeeps n hchild
  obtain ⟨ps, since, hsound, -, -, hpieces, -⟩ := hloop.sound hkeeps' (.start collection d)
  generalize visits collection (children.map (·.map c.part)) d = vs at *
  obtain ⟨hlineCalls, hitemCalls⟩ := calls_pieces collection d₁.depth [] [] d.refs.length vs
  rw [hpieces] at hlineCalls hitemCalls
  -- the turns are those of the visits, whatever becomes of the pieces
  have hturns {es : List Expr} {new : List Line} (hlines : d'.lines = d.lines ++ new)
      (hnew : Line.calls new = Line.calls (Piece.allLines d₁.depth
        (ps ++ .emitted since :: collection.ofRun d₁.refs.length s.pending)))
      (hes : Expr.callsAll es = Expr.callsAll (Piece.items
        (ps ++ .emitted since :: collection.ofRun d₁.refs.length s.pending))) :
      ∃ ts, Turns c d (children.map (·, collection != .generic)) ts es d' := by
    refine ⟨vs.map (Turn.mk · (collection != .generic)), ?_, List.forall_mem_map.2 hvisited,
      ⟨new, hlines, hnew.trans hlineCalls⟩, hes.trans hitemCalls⟩
    rw [← hnodes, List.map_map, List.map_map]
    rfl
  by_cases hps : ps = []
  · rw [Splice.close_static hsound hps, Prod.mk.injEq] at hclose
    obtain ⟨rfl, rfl⟩ := hclose
    have hlines := hsound.lines
    obtain ⟨hrunCalls, hrunItems⟩ := calls_ofRun collection d₁.depth d₁.refs.length s.pending
    rw [hps] at hlines hturns
    exact hturns (by simpa using hlines) (by simp [Piece.lines, hrunCalls]) (by simp [hrunItems])
  · rw [Splice.close_dynamic hsound hps rfl, Drafting.map_apply, Prod.mk.injEq] at hclose
    obtain ⟨rfl, rfl⟩ := hclose
    have hitems : collection ≠ .generic → Expr.callsAll (Piece.items
        (ps ++ .emitted since :: collection.ofRun d₁.refs.length s.pending)) = [] := by
      intro hc
      rw [hitemCalls, List.flatMap_eq_nil_iff]
      refine List.forall_mem_map.2 fun v _ => ?_
      simp [Turn.held, hc]
    obtain ⟨new, hlines, hnew, he⟩ := calls_flush d.lines (d := { d₁ with
      lines := d.lines ++ Piece.allLines d₁.depth
        (ps ++ .emitted since :: collection.ofRun d₁.refs.length s.pending)
      refs := d₁.refs ++ s.pending }) rfl hitems (Prod.mk.eta).symm
    exact hturns hlines hnew (by simpa using he)

end

/-- A child whose fragments are held back. -/
theorem turns_held {m : Option Node} {r : Result} (happends : d.Appends d')
    (hrun : exec (runChild (m.map c.part)) d = (.ok r, d')) :
    ∃ ts, Turns c d [(m, false)] ts (r.getD []) d' := by
  have hlines := (Visit.mk m d d' r).lines_append happends
  refine ⟨[⟨⟨m, d, d', r⟩, false⟩], rfl, List.forall_mem_singleton.2 hrun, ⟨_, hlines.symm, ?_⟩, ?_⟩
  · simp [Turn.written]
  · simp [Turn.held, Turn.fragments]

/-- The turn of a single child. -/
theorem turns_operand? {m : Option Node}
    (hkeeps : ∀ n, m = some n → Keeps Draft.Appends (c.part n).run) {r : Option Expr}
    (hrun : exec (operand? (m.map c.part)) d = (.ok r, d')) :
    ∃ ts, Turns c d [(m, false)] ts r.toList d' := by
  cases m with
  | none =>
    cases hrun
    exact turns_held (m := none) (r := none) (Draft.Appends.frame.refl d) rfl
  | some n =>
    obtain ⟨fragments, d₁, hpart, hnext⟩ := exec_bind_eq_ok hrun
    have happends : d.Appends d₁ := by
      have hchild := hkeeps n rfl d
      rwa [hpart] at hchild
    match fragments with
    | none =>
      cases hnext
      exact turns_held (m := some n) happends hpart
    | some [e] =>
      cases hnext
      exact turns_held (m := some n) happends hpart
    | some [] => cases hnext
    | some (_ :: _ :: _) => cases hnext

end Compile

/-- The children of a field, each with whether its fragments are written at
once. -/
def Field.places (collection : Collection) (f : Field Node) : List (Option Node × Bool) :=
  match f.value with
  | .leaf _ => []
  | .child m => [(m, false)]
  | .children cs => cs.map (·, collection != .generic)

namespace Compile

variable {c : Compiler} {collection : Collection} {d d' : Draft}

theorem turns_changedField {f : Field Node}
    (hkeeps : ∀ n ∈ f.value.nodes, Keeps Draft.Appends (c.part n).run)
    {change : Option (Text × Expr)}
    (hrun : exec (changedField collection (f.map c.part)) d = (.ok change, d')) :
    ∃ ts, Turns c d (f.places collection) ts (change.toList.map (·.2)) d' := by
  obtain ⟨name, value⟩ := f
  cases value with
  | leaf l =>
    cases hrun
    exact ⟨[], .nil rfl⟩
  | child m =>
    obtain ⟨r, d₁, hr, hnext⟩ := exec_bind_eq_ok hrun
    cases hnext
    obtain ⟨ts, hts⟩ := turns_operand? (fun n hn => hkeeps n (by simp [Value.nodes, hn])) hr
    exact ⟨ts, hts.congr rfl (by cases r <;> rfl)⟩
  | children cs =>
    obtain ⟨r, d₁, hr, hnext⟩ := exec_bind_eq_ok hrun
    cases hnext
    obtain ⟨ts, hts⟩ := turns_splice (fun n hn => hkeeps n (by simpa [Value.nodes] using hn)) hr
    exact ⟨ts, hts.congr rfl (by cases r <;> rfl)⟩

/-- **The turns of the fields**, one field after another. -/
theorem turns_fields {fields : List (Field Node)}
    (hkeeps : ∀ n ∈ Fields.nodes fields, Keeps Draft.Appends (c.part n).run)
    {changes : List (Option (Text × Expr))}
    (hrun : exec ((Fields.map c.part fields).mapM (changedField collection)) d =
      (.ok changes, d')) :
    ∃ ts, Turns c d (fields.flatMap (Field.places collection)) ts
      ((changes.filterMap id).map (·.2)) d' := by
  induction fields generalizing d changes with
  | nil =>
    cases hrun
    exact ⟨[], .nil rfl⟩
  | cons f fields ih =>
    rw [Fields.map, List.map_cons, List.mapM_cons] at hrun
    obtain ⟨change, d₁, hchange, hrun⟩ := exec_bind_eq_ok hrun
    obtain ⟨later, d₂, hlater, hrun⟩ := exec_bind_eq_ok hrun
    cases hrun
    have hhead : ∀ n ∈ f.value.nodes, Keeps Draft.Appends (c.part n).run := fun n hn =>
      hkeeps n (Fields.mem_nodes List.mem_cons_self hn)
    have htail : ∀ n ∈ Fields.nodes fields, Keeps Draft.Appends (c.part n).run := fun n hn =>
      hkeeps n (by rw [Fields.nodes, List.flatMap_cons]; exact List.mem_append_right _ hn)
    obtain ⟨ts, hts⟩ := turns_changedField hhead hchange
    obtain ⟨us, hus⟩ := ih htail hlater
    rw [List.flatMap_cons]
    refine ⟨ts ++ us, (hts.append hus).congr rfl ?_⟩
    cases change <;> simp

end Compile

/-! ## Nodes -/

/-- How the children of a node are collected that is put together anew. -/
def Form.collection? : Form → Option Collection
  | generic => some .generic
  | root => some .rootCommand
  | _ => none

namespace Compiler

variable (o : Options) (parsers : Parsers) {c : Compiler}

theorem turns_rebuild {n : Node}
    (hkeeps : ∀ m ∈ n.parts, Keeps Draft.Appends (c.part m).run) {collection : Collection}
    {d d' : Draft} {r : Result}
    (hrun : exec (Handler.rebuild collection parsers n (Fields.map c.part n.fields)) d =
      (.ok r, d')) :
    ∃ ts, Turns c d (n.fields.flatMap (Field.places collection)) ts (r.getD []) d' := by
  obtain ⟨e, d₁, he, hrun⟩ := exec_bind_eq_ok hrun
  cases hrun
  obtain ⟨changes, d₂, hchanges, hrun⟩ := exec_bind_eq_ok he
  obtain ⟨ts, hts⟩ := turns_fields hkeeps hchanges
  refine ⟨ts, ?_⟩
  cases hchanged : changes.filterMap id with
  | nil =>
    rw [hchanged] at hrun hts
    cases hrun
    exact hts
  | cons f fs =>
    rw [hchanged] at hrun hts
    cases hrun
    have hcalls : Expr.callsAll [.apply .replace
        (.ref d₂.refs.length :: (f :: fs).map fun f => .keyword f.1 f.2)] =
        Expr.callsAll ((f :: fs).map (·.2)) := by
      rw [← Expr.callsAll_keyword]
      simp [Expr.calls, Helper.converts]
    exact hts.congr (Drafting.lines_use .replace _) hcalls

/-- **The order of calls.** A node that is put together anew compiles its
children in turn, those of one field after those of the one before. The
lines written are those of the turns, so their calls are the ones that
the turns have in lines, in order, and the fragment that is given has the
calls held back, in order too. Hence, if no turn that holds calls back is
followed by one that calls in lines, all the calls of a child come before
those of the children behind it. -/
theorem calls_in_order {n : Node} {collection : Collection}
    (hform : n.form.collection? = some collection) {d d' : Draft} {r : Result}
    (hrun : exec ((builtin o parsers).part n).run d = (.ok r, d')) :
    ∃ (ts : List Turn) (new : List Line),
      ts.map (fun t => (t.visit.node, t.spent)) = n.fields.flatMap (Field.places collection) ∧
      (∀ t ∈ ts, exec (runChild (t.visit.node.map (builtin o parsers).part)) t.visit.before =
        (.ok t.visit.result, t.visit.after)) ∧
      d'.lines = d.lines ++ new ∧ Line.calls new = ts.flatMap Turn.written ∧
      Expr.callsAll (r.getD []) = ts.flatMap Turn.held ∧
      (ts.Pairwise (fun t u => t.held = [] ∨ u.written = []) →
        Line.calls new ++ Expr.callsAll (r.getD []) = ts.flatMap Turn.calls) := by
  obtain ⟨name, hbuiltin⟩ := run_builtin o parsers n
  rw [hbuiltin, exec_bind_of_ok (exec_lift _ _)] at hrun
  have hkeeps : ∀ m ∈ n.parts, Keeps Draft.Appends ((builtin o parsers).part m).run := fun m _ =>
    keeps_part Draft.Appends.frame (rulesKeep_builtin _ _ _) m
  have hhandler : (n.form.handler : Handler) = Handler.rebuild collection := by
    cases hf : n.form <;> rw [hf] at hform <;> cases hform <;> rfl
  rw [hhandler] at hrun
  obtain ⟨ts, hts⟩ := turns_rebuild parsers hkeeps hrun
  obtain ⟨new, hlines, hnew⟩ := hts.lines
  refine ⟨ts, new, hts.places, hts.visited, hlines, hnew, hts.held, fun h => ?_⟩
  rw [hnew, hts.held, Turn.flatMap_calls h]

/-- Two commands of a root. -/
theorem calls_in_order_root :
    let call (name : String) : Node := ⟨.call, [⟨ascii "value", .child (some ⟨.identifier,
      [⟨ascii "value", .leaf (.str (ascii name))⟩], .unknown⟩)⟩,
      ⟨ascii "arguments", .children []⟩], .unknown⟩
    let statement (name : String) : Node := ⟨.command,
      [⟨ascii "identifier", .leaf (.str (ascii "statement"))⟩,
        ⟨ascii "arguments", .children [some (call name)]⟩], .unknown⟩
    let root : Node :=
      ⟨.root, [⟨ascii "commands", .children [some (statement "f"), some (statement "g")]⟩],
        .unknown⟩
    root.form.collection? = some .rootCommand ∧
      ∃ (r : Result) (d' : Draft) (ts : List Turn) (new : List Line),
        exec ((builtin .standard []).part root).run .empty = (.ok r, d') ∧
        ts.map (fun t => (t.visit.node, t.spent)) =
          [(some (statement "f"), true), (some (statement "g"), true)] ∧
        d'.lines = new ∧ Line.calls new ++ Expr.callsAll (r.getD []) = ts.flatMap Turn.calls := by
  intro call statement root
  have hform : root.form.collection? = some .rootCommand := rfl
  have hok : (exec ((builtin .standard []).part root).run .empty).1.toOption.isSome = true := by
    decide +kernel
  refine ⟨hform, ?_⟩
  rcases hrun : exec ((builtin .standard []).part root).run .empty with ⟨e | r, d'⟩
  · rw [hrun] at hok
    cases hok
  · obtain ⟨ts, new, hplaces, -, hlines, -, -, horder⟩ := calls_in_order .standard [] hform hrun
    have hplaces' : ts.map (fun t => (t.visit.node, t.spent)) =
        [(some (statement "f"), true), (some (statement "g"), true)] := hplaces
    refine ⟨r, d', ts, new, rfl, hplaces', hlines, horder ?_⟩
    -- commands are written at once, so nothing is held back
    have hspent : ∀ t ∈ ts, t.spent = true := by
      intro t ht
      have hmem : (t.visit.node, t.spent) ∈ ts.map fun t => (t.visit.node, t.spent) :=
        List.mem_map_of_mem ht
      rw [hplaces'] at hmem
      rcases List.mem_pair.1 hmem with h | h <;> exact (Prod.mk.inj h).2
    refine List.pairwise_of_forall_mem_list fun t ht _ _ => .inl ?_
    rw [Turn.held, if_pos (hspent t ht)]

/-- **A call in lines overtakes one that is held back.** Of the children of
this node the first one calls `f` and converts what it gives, and the
second one calls `g` in a line of its own. -/
theorem calls_out_of_order :
    let call (name : String) : Node := ⟨.call, [⟨ascii "value", .child (some ⟨.identifier,
      [⟨ascii "value", .leaf (.str (ascii name))⟩], .unknown⟩)⟩,
      ⟨ascii "arguments", .children []⟩], .unknown⟩
    let first : Node := ⟨.interpolation, [⟨ascii "converter", .leaf (.str (ascii "int"))⟩,
      ⟨ascii "value", .child (some (call "f"))⟩], .unknown⟩
    let second : Node := ⟨.root, [⟨ascii "commands", .children [some ⟨.command,
      [⟨ascii "identifier", .leaf (.str (ascii "statement"))⟩,
        ⟨ascii "arguments", .children [some (call "g")]⟩], .unknown⟩]⟩], .unknown⟩
    let root : Node :=
      ⟨.message, [⟨ascii "first", .child (some first)⟩, ⟨ascii "second", .child (some second)⟩],
        .unknown⟩
    let c := builtin .standard []
    let written (ls : List Line) : List Text := (Line.calls ls).map (Expr.render (ascii "_bolt"))
    root.form.collection? = some .generic ∧
      root.fields.flatMap (Field.places .generic) = [(some first, false), (some second, false)] ∧
      written (c.run first).2.lines =
        [ascii "(f)()", ascii "_bolt_helper_interpolate_int(((f)()), _bolt_refs[0])"] ∧
      written (c.run second).2.lines = [ascii "(g)()"] ∧
      written (c.run root).2.lines =
        [ascii "(g)()", ascii "(f)()",
          ascii "_bolt_helper_interpolate_int(((f)()), _bolt_refs[0])"] ∧
      (((c.compile root).1.toOption.bind (·.program)).map fun p => (p.1.lines.drop 3, p.2)) =
        some ([ascii "with _bolt_runtime.scope() as _bolt_var0:", ascii "    ((g)())",
          ascii "_bolt_var1 = _bolt_helper_replace(_bolt_refs[2], " ++
            ascii "first=(_bolt_helper_interpolate_int(((f)()), _bolt_refs[0])), " ++
            ascii "second=_bolt_helper_replace(_bolt_refs[1], " ++
            ascii "commands=_bolt_helper_children(_bolt_var0)))"], ascii "_bolt_var1") := by
  intro call first second root c written
  refine ⟨rfl, rfl, ?_, ?_, ?_, ?_⟩ <;> decide +kernel

end Compiler

end ScriptSplice
