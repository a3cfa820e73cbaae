import ScriptSplice.Proofs.Compile.Outcome
/-!
# What collectors put together

A sequence under construction is a list of pieces: lines that compiling
children wrote, and statements or items of the collector's own. A run of
unchanged children and the fragments of a changed child each contribute
pieces that depend on the collection alone (`Collection.ofRun`,
`Collection.ofFragments`). The equations here say that a collector writes
exactly the lines of its pieces and keeps exactly their items, and what
the finished sequence is.
-/

namespace ScriptSplice

/-- A piece of a sequence under construction. -/
inductive Piece where
  /-- Lines that compiling the children wrote. -/
  | emitted (lines : List Line)
  /-- A statement of the collector. -/
  | stmt (s : Stmt)
  /-- An item of a sequence that is an expression. -/
  | item (e : Expr)

namespace Piece

/-- The lines of a piece at a depth. -/
def lines (depth : Nat) : Piece → List Line
  | emitted ls => ls
  | stmt s => [⟨depth, s⟩]
  | item _ => []

/-- The item that a piece is. -/
def item? : Piece → Option Expr
  | item e => some e
  | _ => none

/-- The lines of some pieces. -/
def allLines (depth : Nat) (ps : List Piece) : List Line := ps.flatMap (lines depth)

/-- The items among some pieces. -/
def items (ps : List Piece) : List Expr := ps.filterMap item?

variable (depth : Nat) (ps qs : List Piece)

@[simp] theorem allLines_nil : allLines depth [] = [] := rfl

@[simp] theorem allLines_cons (p : Piece) :
    allLines depth (p :: ps) = p.lines depth ++ allLines depth ps := rfl

@[simp] theorem allLines_append :
    allLines depth (ps ++ qs) = allLines depth ps ++ allLines depth qs := List.flatMap_append

@[simp] theorem items_nil : items [] = [] := rfl

@[simp] theorem items_append : items (ps ++ qs) = items ps ++ items qs := List.filterMap_append

@[simp] theorem items_emitted (ls : List Line) : items (emitted ls :: ps) = items ps := rfl

@[simp] theorem allLines_stmts (stmts : List Stmt) :
    allLines depth (stmts.map stmt) = stmts.map (Line.mk depth) := by
  induction stmts with
  | nil => rfl
  | cons s stmts ih => rw [List.map_cons, allLines_cons, ih]; rfl

@[simp] theorem items_stmts (stmts : List Stmt) : items (stmts.map stmt) = [] := by
  induction stmts with
  | nil => rfl
  | cons s stmts ih => exact ih

@[simp] theorem allLines_items (es : List Expr) : allLines depth (es.map item) = [] := by
  induction es with
  | nil => rfl
  | cons e es ih => exact ih

@[simp] theorem items_items (es : List Expr) : items (es.map item) = es := by
  induction es with
  | nil => rfl
  | cons e es ih => exact congrArg (e :: ·) ih

end Piece

/-- The statements that add a run of unchanged children, the first of
which becomes reference `k`: none for no child, and a slice for more than
one. -/
def runStmts (k : Nat) : List (Option Node) → List Stmt
  | [] => []
  | [_] => [.append (.ref k)]
  | ns => [.extend (.slice k (k + ns.length))]

/-- The references from `k` on. -/
def refsFrom (k count : Nat) : List Expr := (List.range' k count).map .ref

namespace Collection

/-- What a run of unchanged children contributes. -/
def ofRun (k : Nat) (run : List (Option Node)) : Collection → List Piece
  | generic => (refsFrom k run.length).map .item
  | command | rootCommand => (runStmts k run).map .stmt

/-- What the fragments of a changed child contribute. -/
def ofFragments (es : List Expr) : Collection → List Piece
  | generic => es.map .item
  | command | rootCommand => (es.map Stmt.append).map .stmt

end Collection

/-- The lines of a block, which must not be empty. -/
def filled (depth : Nat) (lines : List Line) : List Line :=
  if lines = [] then [⟨depth, .pass⟩] else lines

namespace Collector

open Drafting

theorem emitRun_apply (run : List (Option Node)) (d : Draft) :
    emitRun run d =
      ((), { d with
        lines := d.lines ++ (runStmts d.refs.length run).map (Line.mk d.depth)
        refs := d.refs ++ run }) := by
  match run with
  | [] => simp [emitRun, runStmts]
  | [n] => rfl
  | n :: m :: ns => rfl

theorem refs_apply (run : List (Option Node)) (d : Draft) :
    run.mapM ref d = (refsFrom d.refs.length run.length, { d with refs := d.refs ++ run }) := by
  induction run generalizing d with
  | nil => simp [refsFrom]
  | cons n run ih =>
    rw [List.mapM_cons, bind_apply, bind_apply, ih]
    simp [refsFrom, List.range'_succ]

theorem emits_apply (es : List Expr) (d : Draft) :
    (forM es fun e => emit (.append e)) d =
      ((), { d with lines := d.lines ++ (es.map Stmt.append).map (Line.mk d.depth) }) := by
  induction es generalizing d with
  | nil => simp
  | cons e es ih =>
    rw [List.forM_cons, bind_apply, ih]
    simp

/-- **A run of unchanged children** is added to the table and contributes
its pieces. -/
theorem addStatic_apply (c : Collector) (run : List (Option Node)) (d : Draft) :
    c.addStatic run d =
      ({ c with items := c.items ++ Piece.items (c.collection.ofRun d.refs.length run) },
        { d with
          lines := d.lines ++ Piece.allLines d.depth (c.collection.ofRun d.refs.length run)
          refs := d.refs ++ run }) := by
  obtain ⟨collection, start, items⟩ := c
  cases collection <;>
    simp [addStatic, emitRun_apply, refs_apply, Collection.ofRun]

/-- **The fragments of a changed child** contribute their pieces. -/
theorem addDynamic_apply (c : Collector) (es : List Expr) (d : Draft) :
    c.addDynamic es d =
      ({ c with items := c.items ++ Piece.items (c.collection.ofFragments es) },
        { d with
          lines := d.lines ++ Piece.allLines d.depth (c.collection.ofFragments es) }) := by
  obtain ⟨collection, start, items⟩ := c
  cases collection <;> simp [addDynamic, emits_apply, Collection.ofFragments, -List.map_map]

/-! ## The finished sequence

`base` is what was in the buffer before the sequence and `new` what was
written for it. -/

variable {c : Collector} {d : Draft} {base new : List Line}

theorem fillEmpty_apply (hlines : d.lines = base ++ new) (hstart : c.start = base.length) :
    c.fillEmpty d = ((), { d with lines := base ++ filled d.depth new }) := by
  change (if d.size = c.start then emit .pass else pure ()) d = _
  have hsize : d.size = c.start ↔ new = [] := by
    simp [Draft.size, hlines, hstart]
  by_cases hnew : new = []
  · rw [if_pos (hsize.2 hnew), emit_apply, hlines, hnew]
    simp [filled]
  · rw [if_neg (mt hsize.1 hnew), filled, if_neg hnew, ← hlines]
    rfl

/-- A generic sequence is an expression, and writes nothing. -/
theorem flush_generic (hc : c.collection = .generic) (d : Draft) :
    c.flush d = (.apply .children [.list c.items], (use .children d).2) := by
  unfold flush
  rw [hc]
  rfl

/-- A sequence of commands is in the buffer of the runtime. -/
theorem flush_command (hc : c.collection = .command) (hlines : d.lines = base ++ new)
    (hstart : c.start = base.length) :
    c.flush d = (.commands, { d with lines := base ++ filled d.depth new }) := by
  unfold flush
  rw [hc]
  change (Expr.commands, (c.fillEmpty d).2) = _
  rw [fillEmpty_apply hlines hstart]

/-- The commands of a root are behind the head of a scope, one level
deeper, and the sequence is what its variable holds. -/
theorem flush_rootCommand (hc : c.collection = .rootCommand) (hlines : d.lines = base ++ new)
    (hstart : c.start = base.length) :
    ∃ events, c.flush d = (.apply .children [.var d.fresh], (use .children { d with
      lines := base ++ ⟨d.depth, .scope d.fresh⟩ :: (filled d.depth new).map Line.indent
      fresh := d.fresh + 1
      events }).2) := by
  have henclose : ∃ events,
      c.enclose { d with lines := base ++ filled d.depth new } = (d.fresh, { d with
        lines := base ++ ⟨d.depth, .scope d.fresh⟩ :: (filled d.depth new).map Line.indent
        fresh := d.fresh + 1
        events }) := by
    simp only [enclose, bind_apply, freshVariable_apply, indentFrom_apply, hstart, get_apply,
      insertLine_apply, note_apply, pure_apply, List.take_left, List.drop_left]
    exact ⟨_, rfl⟩
  obtain ⟨events, henclose⟩ := henclose
  refine ⟨events, ?_⟩
  unfold flush
  rw [hc]
  change apply .children [.var (c.enclose (c.fillEmpty d).2).1]
    (c.enclose (c.fillEmpty d).2).2 = _
  rw [fillEmpty_apply hlines hstart, henclose]
  rfl

end Collector

end ScriptSplice
