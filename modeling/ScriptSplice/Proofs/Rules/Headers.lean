import ScriptSplice.Proofs.Compile.Quiet
import ScriptSplice.Proofs.Rules.Deeds
import ScriptSplice.Proofs.Rules.Twin
/-!
# Commands with a block

A command with a block writes what its operands write, its header behind
its mark, and its block below the header (`Compiler.WroteBlock`). That a
block has lines, and that they are all further in than the header, is known
from twin runs: what compiling anything writes are well-nested lines at the
depth where it began.
-/

namespace ScriptSplice

open Compile

variable {V : Vocabulary} {α β : Type}

/-! ## Depths of well-nested lines -/

namespace Blocks

variable {depth : Nat} {ls : List Line}

/-- No line is further out than the blocks it is in. -/
theorem floor (h : Blocks V depth ls) : ∀ l ∈ ls, depth ≤ l.depth := by
  induction h with
  | nil => simp
  | mark _ _ _ ih | line _ _ _ ih => exact List.forall_mem_cons.2 ⟨Nat.le_refl _, ih⟩
  | block _ _ _ _ _ ihbody ih =>
    refine List.forall_mem_cons.2 ⟨Nat.le_refl _, List.forall_mem_append.2 ⟨fun l hl => ?_, ih⟩⟩
    exact (Nat.le_succ _).trans (ihbody l hl)

/-- The first line is at their depth. -/
theorem head (h : Blocks V depth ls) : ∀ l ∈ ls.head?, l.depth = depth := by
  cases h <;> simp

end Blocks

/-- What an action and its twin write, seen from one run of the action. -/
theorem Compile.Writes.blocks {d d' : Draft} {Q : List Line → α → β → Prop} {act : Compile α}
    {act' : Compile β} (h : Writes V d.depth Q act act') {a : α}
    (hrun : exec act d = (.ok a, d')) :
    Blocks V d.depth (d'.lines.drop d.size) ∧ ∃ b, Q (d'.lines.drop d.size) a b := by
  -- any draft has a twin
  have htwin : d.Twin ⟨d.depth, Line.unmarkedAll d.lines, d.refs.map (·.map Node.unlocated),
    d.helpers, d.fresh, []⟩ := ⟨rfl, rfl, rfl, rfl, rfl⟩
  have houtcome := h d _ rfl htwin
  rw [hrun] at houtcome
  generalize exec act' _ = y at houtcome
  cases houtcome with
  | ok hlines hblocks _ _ hQ =>
    rw [hlines, Draft.size, List.drop_left]
    exact ⟨hblocks, _, hQ⟩

/-! ## Anything goes -/

/-- Texts of any kind. -/
def Vocabulary.any : Vocabulary := ⟨fun _ => True, True, fun _ => True, trivial⟩

theorem Node.within_any (n : Node) : n.Within .any := fun _ _ =>
  ⟨fun _ _ => ⟨fun _ _ => trivial, fun _ => trivial⟩, fun _ _ => trivial⟩

namespace Compiler

variable (o : Options) (parsers : Parsers) {n : Node} {d d' : Draft}

/-- **A body is written as well-nested lines**, and there are some. -/
theorem blocks_body
    (hrun : exec (body .command n (Fields.map (builtin o parsers).part n.fields)) d =
      (.ok (), d')) :
    Blocks .any d.depth (d'.lines.drop d.size) ∧ d'.lines.drop d.size ≠ [] := by
  have hbody : Fills .any d.depth (fun _ _ => True)
      (body .command n (Fields.map (builtin o parsers).part n.fields)) _ :=
    TwinParts.body fun k _ => twinParts o parsers (twin_part o parsers k.within_any)
  obtain ⟨hblocks, -, hne, -⟩ := Writes.blocks hbody hrun
  exact ⟨hblocks, hne⟩

end Compiler

/-! ## Headers -/

/-- The draft at the start of the block of a header. -/
def Draft.opened (d : Draft) (header : Stmt) : Draft :=
  { d with depth := d.depth + 1, lines := d.lines ++ [⟨d.depth, header⟩] }

/-- The same behind the mark of the header. -/
def Draft.headed (d : Draft) (place : Location) (header : Stmt) : Draft :=
  (Drafting.mark place d).2.opened header

theorem Draft.headed_eq (d : Draft) (place : Location) (header : Stmt) :
    d.headed place header = { d with
      depth := d.depth + 1
      lines := d.lines ++ (Line.markOf d.depth place ++ [⟨d.depth, header⟩]) } := by
  rw [headed, opened, Drafting.mark_apply, Line.markOf, ← List.append_assoc]

namespace Compile

variable {d d' : Draft}

/-- A block begins behind its header. -/
theorem exec_opened (header : Stmt) (block : Compile α) (d : Draft) :
    exec (do Drafting.emit header; inBlock block) d =
      ((exec block (d.opened header)).1,
        { (exec block (d.opened header)).2 with depth := d.depth }) := by
  rw [exec_bind_of_ok (exec_lift _ _), exec_inBlock, Drafting.emit_apply, Draft.opened]

/-- **A header behind its mark, and its block.** -/
theorem exec_headed {place : Location} {s : α → Stmt} {act : Compile α} {block : Compile Unit}
    {r : Result} (hact : Keeps Draft.Appends act) (hblock : Keeps Draft.Appends block)
    (hrun : exec (do
      let a ← act
      Drafting.mark place
      Drafting.emit (s a)
      inBlock block
      return some []) d = (.ok r, d')) :
    ∃ a d₁ d₂, exec act d = (.ok a, d₁) ∧ d₁.depth = d.depth ∧
      exec block (d₁.headed place (s a)) = (.ok (), d₂) ∧
      d'.lines.drop d.size = d₁.lines.drop d.size ++ (Line.markOf d.depth place ++
        ⟨d.depth, s a⟩ :: d₂.lines.drop (d₁.headed place (s a)).size) := by
  obtain ⟨a, d₁, ha, hrun⟩ := exec_bind_eq_ok hrun
  have happends : d.Appends d₁ := by
    have hkeep := hact d
    rwa [ha] at hkeep
  rw [exec_bind_of_ok (exec_lift _ _), ← bind_assoc] at hrun
  obtain ⟨u, d₃, hrunBlock, hrun⟩ := exec_bind_eq_ok hrun
  rw [exec_opened] at hrunBlock
  have hinside := hblock (d₁.headed place (s a))
  rcases hexec : exec block (d₁.headed place (s a)) with ⟨e | u, d₂⟩ <;>
    rw [← Draft.headed, hexec] at hrunBlock <;> cases hrunBlock
  rw [hexec] at hinside
  cases hrun
  refine ⟨a, d₁, d₂, ha, happends.depth, hexec, ?_⟩
  -- what came before the header is kept, and so is the header
  obtain ⟨new, hnew⟩ := happends.lines
  obtain ⟨more, hmore⟩ : (d₁.headed place (s a)).lines <+: d₂.lines := hinside.lines
  have hblockLines : d₂.lines.drop (d₁.headed place (s a)).size = more := by
    rw [← hmore, Draft.size, List.drop_left]
  rw [hblockLines]
  simp only [← hmore, Draft.headed_eq, ← hnew, happends.depth, Draft.size, List.append_assoc,
    List.drop_left, List.singleton_append]

end Compile

/-! ## Commands -/

/-- **What a command with a block wrote** at a depth: what its operands
wrote, its header behind its mark, and its block further in. -/
structure Compiler.WroteBlock (c : Compiler) (n : Node) (depth : Nat) (ahead : List Line)
    (header : Stmt) (block ls : List Line) : Prop where
  run : ∃ d r d', d.depth = depth ∧ exec (c.part n).run d = (.ok r, d') ∧
    d'.lines.drop d.size = ls
  lines : ls = ahead ++ (Line.markOf depth n.location ++ ⟨depth, header⟩ :: block)
  header : n.Writes header
  block_ne : block ≠ []
  block_deeper : ∀ l ∈ block, depth < l.depth

/-- The commands whose block is a body. -/
def Form.hasBody : Form → Bool
  | branch _ | otherwise | loop => true
  | _ => false

namespace Compiler

variable (o : Options) (parsers : Parsers) {n : Node} {d d' : Draft}

/-- Lines are only written behind those there are. What an action lacks if
it fails is of no account here. -/
theorem keeps_does {xs : List Deed} {act : Compile α} (h : Does (builtin o parsers) True xs act) :
    Keeps Draft.Appends act :=
  h.keeps Draft.Appends.frame fun _ _ n _ =>
    keeps_part Draft.Appends.frame (rulesKeep_builtin _ o parsers) n

/-- The body among the arguments. -/
theorem blocks_bodyOf {i : Nat}
    (hrun : exec (bodyOf (Handler.argument (Fields.map (builtin o parsers).part n.fields) i)) d =
      (.ok (), d')) :
    Blocks .any d.depth (d'.lines.drop d.size) ∧ d'.lines.drop d.size ≠ [] := by
  rw [Handler.argument_map] at hrun
  cases hargument : Handler.argument n.fields i with
  | none => simp [hargument, bodyOf] at hrun
  | some m =>
    rw [hargument, Option.map_some, bodyOf, node_part, fields_part] at hrun
    exact blocks_body o parsers hrun

/-- Commands that write their header when their operands are compiled. -/
theorem wroteBlock_of_headed {act : Compile α} {s : α → Stmt} (i : Nat) {r : Result}
    (hact : Does (builtin o parsers) True (n.ahead.map .compile) act) (hs : ∀ a, n.Writes (s a))
    (hhandler : n.form.handler parsers n (Fields.map (builtin o parsers).part n.fields) = (do
      let a ← act
      Drafting.mark n.location
      Drafting.emit (s a)
      inBlock (bodyOf (Handler.argument (Fields.map (builtin o parsers).part n.fields) i))
      return some []))
    (hrun : exec ((builtin o parsers).part n).run d = (.ok r, d')) :
    ∃ ahead header block,
      (builtin o parsers).WroteBlock n d.depth ahead header block (d'.lines.drop d.size) ∧
      ((∀ m ∈ n.ahead, Keeps Draft.LinesKept ((builtin o parsers).part m).run) → ahead = []) := by
  obtain ⟨events, hexec⟩ := exec_run_builtin o parsers n d
  rw [hhandler] at hexec
  obtain ⟨a, d₁, d₂, ha, hdepth, hblock, hlines⟩ := exec_headed (keeps_does o parsers hact)
    (keeps_does o parsers (Handler.does_bodyOf i fun _ => trivial)) (hexec.symm.trans hrun)
  obtain ⟨hblocks, hne⟩ := blocks_bodyOf o parsers hblock
  refine ⟨_, s a, _, ⟨⟨d, r, d', rfl, hrun, rfl⟩, hlines, hs a, hne, fun l hl => ?_⟩,
    fun hquiet => ?_⟩
  · have hfloor := hblocks.floor l hl
    rw [Draft.headed_eq, hdepth] at hfloor
    exact hfloor
  · -- operands that write nothing leave the lines as they were
    have hkept : Keeps Draft.LinesKept act := by
      refine hact.quiet (by simp [Deed.isQuiet]) fun x hx m hm => ?_
      obtain ⟨k, hk, rfl⟩ := List.mem_map.1 hx
      obtain rfl := List.mem_singleton.1 hm
      exact hquiet m hk
    have hsame := hkept { d with events }
    rw [ha] at hsame
    rw [hsame]
    exact List.drop_length

/-- **A command whose block is a body** writes what its operands write, its
header behind its mark, and its body below the header. -/
theorem exists_wroteBlock (hform : n.form.hasBody = true) {r : Result}
    (hrun : exec ((builtin o parsers).part n).run d = (.ok r, d')) :
    ∃ ahead header block,
      (builtin o parsers).WroteBlock n d.depth ahead header block (d'.lines.drop d.size) ∧
      ((∀ m ∈ n.ahead, Keeps Draft.LinesKept ((builtin o parsers).part m).run) → ahead = []) := by
  cases h : n.form with
  | branch keyword =>
    have hahead : n.ahead = n.argumentNodes 0 := by unfold Node.ahead; simp only [h]
    exact wroteBlock_of_headed o parsers 1 (hahead ▸ Handler.does_required 0 fun _ => trivial)
      (fun condition => .branch condition h) (by rw [h]; rfl) hrun
  | otherwise =>
    have hahead : n.ahead = [] := by unfold Node.ahead; simp only [h]
    have hact : Does (builtin o parsers) True (n.ahead.map .compile)
        (Pure.pure () : Compile Unit) := hahead ▸ .pure ()
    exact wroteBlock_of_headed o parsers 0 hact (fun _ => .otherwise h) (by rw [h]; rfl) hrun
  | loop =>
    have hahead : n.ahead = n.argumentNodes 0 ++ n.argumentNodes 1 := by
      unfold Node.ahead; simp only [h]
    have hact : Does (builtin o parsers) True (n.ahead.map .compile) (do
        let target ← required (Handler.argument (Fields.map (builtin o parsers).part n.fields) 0)
        let iterable ← required (Handler.argument (Fields.map (builtin o parsers).part n.fields) 1)
        return (target, iterable)) := by
      rw [hahead, List.map_append]
      exact (Handler.does_required 0 fun _ => trivial).bind fun _ =>
        (Handler.does_required 1 fun _ => trivial).next fun _ => .pure _
    refine wroteBlock_of_headed o parsers 2 hact (fun p => .loop p.1 p.2 h) ?_ hrun
    simp only [h, Form.handler, Handler.loop, bind_assoc, pure_bind]
  | _ =>
    rw [h] at hform
    cases hform

end Compiler

end ScriptSplice
