import ScriptSplice.Proofs.Rules.Headers
import ScriptSplice.Proofs.Rules.Standing
/-!
# Chains of branches

The target language takes an `elif` or an `else` only right behind the
block that it belongs to. What could come between are the lines that
compiling its condition writes, and the statements by which a sequence adds
its other children. A pure expression writes no line, and commands leave
nothing to add, so the header of an `elif` with a pure condition, or of an
`else`, stands right behind the block of the command before it
(`Compiler.chains_adjacent`).
-/

namespace ScriptSplice

open Compile

namespace Node

variable (n : Node)

/-- **Pure expressions**: no command and no root is among the nodes. -/
def isPure : Bool := n.subtree.all fun m => m.kind != .command && m.kind != .root

/-- The commands that an `elif` or an `else` can come behind. -/
def beginsChain : Bool :=
  match n.form with
  | .branch _ | .loop => true
  | _ => false

/-- An `else`, or an `elif` whose condition is a pure expression. -/
def continuesChain : Bool :=
  n.form == .otherwise || n.form == .branch "elif" && (n.argumentNodes 0).all isPure

/-- **The command sequences of a node**: the commands of a root, or those of
the body of a command. -/
def commandSequences : List (List (Option Node)) :=
  match n.form with
  | .root => [n.children (ascii "commands")]
  | .function | .branch _ => (n.argumentNodes 1).map (·.children (ascii "commands"))
  | .otherwise => (n.argumentNodes 0).map (·.children (ascii "commands"))
  | .loop => (n.argumentNodes 2).map (·.children (ascii "commands"))
  | _ => []

variable {n} {m : Node}

/-! ## Pure expressions -/

theorem isPure_of_mem_descendants (h : n.isPure = true) (hm : m ∈ n.descendants) :
    m.isPure = true := by
  rw [isPure, List.all_eq_true] at h ⊢
  exact fun k hk => h k (subtree_trans (mem_subtree.2 (.inr hm)) hk)

/-- A pure expression is neither a statement nor a root. -/
theorem form_of_isPure (h : n.isPure = true) : n.form.isStatement = false ∧ n.form ≠ .root := by
  have hkind := List.all_eq_true.1 h n (mem_subtree_self n)
  obtain ⟨kind, fields, location⟩ := n
  cases kind <;> first | (cases hkind; done) | exact ⟨rfl, nofun⟩

/-- The rules for pure expressions write no lines of their own. -/
theorem isQuiet_of_mem_deeds (hs : n.form.isStatement = false) (hr : n.form ≠ .root) :
    ∀ x ∈ n.deeds, x.isQuiet = true := by
  have hcompile (ns : List Node) : ∀ x ∈ ns.map Deed.compile, x.isQuiet = true := by
    simp [Deed.isQuiet]
  unfold deeds
  cases h : n.form <;> rw [h] at hs hr
  case generic =>
    intro x hx
    obtain ⟨⟨name, value⟩, -, hx⟩ := List.mem_flatMap.1 hx
    cases value with
    | leaf l => cases hx
    | child c => exact hcompile _ x hx
    | children cs =>
      obtain rfl := List.mem_singleton.1 hx
      rfl
  case root => exact absurd rfl hr
  all_goals first | exact hcompile _ | cases hs

/-! ## Sequences -/

/-- A command sequence is spliced by the rule for its node. -/
theorem exists_splice_of_mem_commandSequences {commands : List (Option Node)}
    (h : commands ∈ n.commandSequences) (hne : commands ≠ []) :
    ∃ collection, Deed.splice collection commands ∈ n.deeds := by
  have hblock {i : Nat} (h : commands ∈ (n.argumentNodes i).map (·.children (ascii "commands"))) :
      Deed.splice .command commands ∈ n.blockDeeds i := by
    obtain ⟨b, hb, rfl⟩ := List.mem_map.1 h
    exact List.mem_flatMap.2 ⟨b, hb, List.mem_cons_self⟩
  unfold commandSequences at h
  unfold deeds
  cases hform : n.form <;> simp only [hform, List.not_mem_nil] at h ⊢
  case root =>
    obtain rfl := List.mem_singleton.1 h
    -- there are commands, so the field is there
    rw [children, Fields.children] at hne ⊢
    split at hne
    · rename_i cs hvalue
      obtain ⟨f, hf, hfv⟩ := Fields.exists_of_value? hvalue
      refine ⟨.rootCommand, List.mem_flatMap.2 ⟨f, hf, ?_⟩⟩
      rw [hfv]
      exact List.mem_singleton_self _
    · exact absurd rfl hne
  case function => exact ⟨.command, by simp [hblock h]⟩
  case branch => exact ⟨.command, by simp [hblock h]⟩
  case otherwise => exact ⟨.command, by simp [hblock h]⟩
  case loop => exact ⟨.command, by simp [hblock h]⟩

/-! ## Commands of a chain -/

theorem hasBody_of_beginsChain (h : n.beginsChain = true) : n.form.hasBody = true := by
  unfold beginsChain at h
  cases hform : n.form <;> rw [hform] at h <;> first | rfl | cases h

theorem cases_of_continuesChain (h : n.continuesChain = true) :
    n.form = .otherwise ∨ n.form = .branch "elif" ∧ ∀ m ∈ n.argumentNodes 0, m.isPure = true := by
  simpa only [continuesChain, Bool.or_eq_true, Bool.and_eq_true, beq_iff_eq,
    List.all_eq_true] using h

theorem hasBody_of_continuesChain (h : n.continuesChain = true) : n.form.hasBody = true := by
  rcases cases_of_continuesChain h with hform | ⟨hform, -⟩ <;> rw [hform] <;> rfl

/-- What is compiled ahead of its header are pure expressions. -/
theorem isPure_of_mem_ahead (h : n.continuesChain = true) (hm : m ∈ n.ahead) :
    m.isPure = true := by
  unfold ahead at hm
  rcases cases_of_continuesChain h with hform | ⟨hform, hpure⟩ <;> rw [hform] at hm
  · cases hm
  · exact hpure m hm

end Node

theorem Form.isStatement_of_hasBody {form : Form} (h : form.hasBody = true) :
    form.isStatement = true := by
  cases form <;> first | rfl | cases h

namespace Compiler

variable (o : Options) (parsers : Parsers)

/-- A command with a body leaves no fragment. -/
theorem yields_of_hasBody {n : Node} (h : n.form.hasBody = true) :
    Yields ((builtin o parsers).part n).run (· = some []) :=
  (gives_part o parsers n).mono fun _ hgives =>
    hgives.eq_some_nil_iff.2 (n.isStatement_eq.trans (Form.isStatement_of_hasBody h))

/-- **Compiling a pure expression writes no line**, whether or not it fails. -/
theorem keeps_lines_part {n : Node} (h : n.isPure = true) :
    Keeps Draft.LinesKept ((builtin o parsers).part n).run := by
  induction n using Node.induction_descendants with
  | step n ih =>
    obtain ⟨hs, hr⟩ := Node.form_of_isPure h
    refine (does_part o parsers n).quiet (Node.isQuiet_of_mem_deeds hs hr) fun x hx m hm => ?_
    have hbelow := Node.mem_descendants_of_mem_nodes hx hm
    exact ih m hbelow (Node.isPure_of_mem_descendants h hbelow)

/-- **Chains of branches stay together.** Compiling a pure expression writes
no line. So when an `if`, `elif`, `while` or `for` has an `else` right
behind it in a sequence of commands, or an `elif` with a pure condition,
the lines of the two commands stand in the program in one piece: what the
operands of the first write, its header behind its mark, its block further
in, and then, behind its mark and at the same depth, the header of the
second. -/
theorem chains_adjacent :
    (∀ (n : Node) (d : Draft), n.isPure = true →
      (exec ((builtin o parsers).part n).run d).2.lines = d.lines) ∧
    ∀ (root : Node) (outcome : Option Nat) (draft : Draft),
      (builtin o parsers).run root = (.ok outcome, draft) →
      ∀ n ∈ root.invocations, ∀ (before after : List (Option Node)) (a b : Node),
        before ++ some a :: some b :: after ∈ n.commandSequences →
        a.beginsChain = true → b.continuesChain = true →
        ∃ depth operands header block lines header' block' lines',
          (builtin o parsers).WroteBlock a depth operands header block lines ∧
          (builtin o parsers).WroteBlock b depth [] header' block' lines' ∧
          Line.StandIn (lines ++ lines') draft.lines := by
  refine ⟨fun n d h => keeps_lines_part o parsers h d, ?_⟩
  intro root outcome draft hrun n hn before after a b hcommands ha hb
  have hc := rulesKeep_builtin Draft.Appends o parsers
  have hbodyA := Node.hasBody_of_beginsChain ha
  have hbodyB := Node.hasBody_of_continuesChain hb
  -- their sequence leaves the lines of both in one piece, and so does the whole tree
  obtain ⟨collection, hdeed⟩ := Node.exists_splice_of_mem_commandSequences hcommands (by simp)
  have hleaves := leaves_compileRoot o parsers hn ((does_part o parsers n).leaves hc hdeed
    (leaves_pair hc (yields_of_hasBody o parsers hbodyA) (yields_of_hasBody o parsers hbodyB)))
  obtain ⟨ls, ⟨va, vb, hdepth, hrunA, hrunB, rfl⟩, hstand⟩ := hleaves .empty outcome draft hrun
  obtain ⟨operands, header, block, hwroteA, -⟩ := exists_wroteBlock o parsers hbodyA hrunA
  obtain ⟨operands', header', block', hwroteB, hnone⟩ := exists_wroteBlock o parsers hbodyB hrunB
  rw [hnone fun m hm => keeps_lines_part o parsers (Node.isPure_of_mem_ahead hb hm),
    ← hdepth] at hwroteB
  exact ⟨_, operands, header, block, _, header', block', _, hwroteA, hwroteB, hstand⟩

/-- An `if` and its `elif` between commands that stay as they are. -/
theorem chains_adjacent_elif :
    let name (t : String) : Node :=
      ⟨.identifier, [⟨ascii "value", .leaf (.str (ascii t))⟩], ⟨1, 4⟩⟩
    let command (identifier : String) (arguments : List (Option Node)) (line : Int) : Node :=
      ⟨.command, [⟨ascii "identifier", .leaf (.str (ascii identifier))⟩,
        ⟨ascii "arguments", .children arguments⟩], ⟨line, 1⟩⟩
    let body (line : Int) : Node :=
      ⟨.root, [⟨ascii "commands", .children [some (command "pass" [] line)]⟩], ⟨line, 1⟩⟩
    let first := command "if:condition:body" [name "x", body 2] 1
    let second := command "elif:condition:body" [name "y", body 4] 3
    let still := command "say" [] 5
    let root : Node :=
      ⟨.root, [⟨ascii "commands", .children [still, some first, some second, still]⟩], ⟨1, 1⟩⟩
    let c := builtin .standard []
    (name "y").isPure = true ∧ (exec (c.part (name "y")).run .empty).2.lines = [] ∧
      (c.run root).1 = .ok (some 1) ∧ root ∈ root.invocations ∧
      [some still] ++ some first :: some second :: [some still] ∈ root.commandSequences ∧
      first.beginsChain = true ∧ second.continuesChain = true ∧
      ∃ depth operands header block lines header' block' lines',
        c.WroteBlock first depth operands header block lines ∧
        c.WroteBlock second depth [] header' block' lines' ∧
        Line.StandIn (lines ++ lines') (c.run root).2.lines := by
  intro name command body first second still root c
  have hpure : (name "y").isPure = true := by decide
  have hok : (c.run root).1 = .ok (some 1) := by decide +kernel
  have hrun : c.run root = (.ok (some 1), (c.run root).2) := by rw [← hok]
  have hroot : root ∈ root.invocations := root.mem_invocations_self
  have hcommands : [some still] ++ some first :: some second :: [some still] ∈
      root.commandSequences := List.mem_singleton_self _
  have hfirst : first.beginsChain = true := by decide
  have hsecond : second.continuesChain = true := by decide
  obtain ⟨hquiet, hchains⟩ := chains_adjacent .standard []
  exact ⟨hpure, hquiet (name "y") .empty hpure, hok, hroot, hcommands, hfirst, hsecond,
    hchains root _ _ hrun root hroot _ _ first second hcommands hfirst hsecond⟩

end Compiler

end ScriptSplice
