import ScriptSplice.Proofs.Compile.Asking
import ScriptSplice.Proofs.Rules.Headers
import ScriptSplice.Proofs.Rules.Standing
/-!
# The layout of functions

The head of a function names its parameters, and marks those that have a
default. Below it there is a guard for each of these, in order, with what
computes the default inside, and then the body (`Compiler.WroteFunction`).
What stands for an argument that was not given is in use in a program
exactly if one of its functions has such a parameter.
-/

namespace ScriptSplice

open Compile

namespace Node

/-- The default of a parameter. -/
def default? (p : Node) : Option Node := p.child? (ascii "default")

/-- A parameter as it stands in the head of a function. -/
def declaration (stem : Text) (p : Node) : Text :=
  p.text (ascii "name") ++
    if p.default?.isSome then ascii "=" ++ Expr.render stem .missing else []

variable (n : Node)

/-- The head of a function with a signature. -/
def functionHead (signature : Node) : Stmt :=
  .define (signature.text (ascii "name"))
    (n.parameters.map fun p => (p.text (ascii "name"), p.default?.isSome))

/-- **The text of the head** lists the parameters in order. -/
theorem render_functionHead (stem : Text) (signature : Node) :
    (n.functionHead signature).render stem =
      ascii "def " ++ signature.text (ascii "name") ++ ascii "(" ++
        Text.commaSeparated (n.parameters.map (declaration stem)) ++ ascii "):" := by
  have hparameter (p : Node) :
      Stmt.parameter stem (p.text (ascii "name"), p.default?.isSome) = p.declaration stem := by
    unfold declaration Stmt.parameter
    cases p.default?.isSome <;> simp
  rw [functionHead, Stmt.render, List.map_map]
  simp only [Function.comp_def, hparameter]

end Node

/-! ## Guards -/

/-- **The guards for arguments that were not given**, as they are written
from one draft on. A parameter that has a default has one, with the lines
that compiling the default writes inside, and behind these the fragment of
the default bound to the name. -/
inductive Compiler.Guards (c : Compiler) : List Node → Draft → List Line → Draft → Prop
  | nil (d : Draft) : Guards c [] d [] d
  | none {p : Node} {ps : List Node} {d d' : Draft} {ls : List Line} : p.default? = none →
      Guards c ps d ls d' → Guards c (p :: ps) d ls d'
  | guard {p value : Node} {ps : List Node} {d d₁ d' : Draft} {e : Expr} {ls inside : List Line} :
      p.default? = some value →
      exec (required (some (c.part value))) (d.opened (.default (p.text (ascii "name")))) =
        (.ok e, d₁) →
      d₁.lines.drop (d.size + 1) = inside → (∀ l ∈ inside, d.depth < l.depth) →
      Guards c ps { (Drafting.emit (.bind (p.text (ascii "name")) e) d₁).2 with
        depth := d.depth } ls d' →
      Guards c (p :: ps) d (⟨d.depth, .default (p.text (ascii "name"))⟩ ::
        (inside ++ ⟨d.depth + 1, .bind (p.text (ascii "name")) e⟩ :: ls)) d'

namespace Compiler

variable (o : Options) (parsers : Parsers) {n m p : Node} {d d' : Draft}

/-- A default is written as well-nested lines. -/
theorem blocks_required {value : Node} {e : Expr}
    (hrun : exec (required (some ((builtin o parsers).part value))) d = (.ok e, d')) :
    Blocks .any d.depth (d'.lines.drop d.size) := by
  have hrequired : Alike .any d.depth (Expr.Twin .any)
      (required ((some value).map (builtin o parsers).part)) _ :=
    TwinParts.required fun k _ => twinParts o parsers (twin_part o parsers k.within_any)
  exact (Writes.blocks hrequired hrun).1

/-- **One guard**, or none for a parameter without a default. -/
theorem guards_step
    (hrun : exec (Handler.supplyDefault ((builtin o parsers).part p)) d = (.ok (), d')) :
    ∃ ls, d'.lines = d.lines ++ ls ∧ d'.depth = d.depth ∧
      ∀ ps more d'', (builtin o parsers).Guards ps d' more d'' →
        (builtin o parsers).Guards (p :: ps) d (ls ++ more) d'' := by
  rw [Handler.supplyDefault, Handler.parameterDefault_eq, Handler.parameterName, node_part] at hrun
  cases hdefault : p.default? with
  | none =>
    rw [Node.default?] at hdefault
    rw [hdefault] at hrun
    cases hrun
    exact ⟨[], by simp, rfl, fun ps more d'' h => .none hdefault h⟩
  | some value =>
    rw [Node.default?] at hdefault
    rw [hdefault, Option.map_some] at hrun
    let start := d.opened (.default (p.text (ascii "name")))
    rcases hinside : exec (do
      Drafting.emit (.bind (p.text (ascii "name"))
        (← required (some ((builtin o parsers).part value))))) start with ⟨e | u, d₁⟩ <;>
      rw [exec_opened, hinside] at hrun <;> cases hrun
    obtain ⟨e, d₂, he, hbind⟩ := exec_bind_eq_ok hinside
    cases hbind
    -- between the header of the guard and the assignment there is what the default wrote
    have hblocks := blocks_required o parsers he
    have happends : start.Appends d₂ := by
      have hkeeps := keeps_does o parsers (Does.required (o := some value) (by simp)) start
      rwa [Option.map_some, he] at hkeeps
    have hsize : start.size = d.size + 1 := List.length_append
    obtain ⟨inside, hlines⟩ := happends.lines
    have hinside : d₂.lines.drop (d.size + 1) = inside := by
      rw [← hsize, ← hlines, Draft.size, List.drop_left]
    rw [hsize, hinside] at hblocks
    refine ⟨⟨d.depth, .default (p.text (ascii "name"))⟩ ::
      (inside ++ [⟨d.depth + 1, .bind (p.text (ascii "name")) e⟩]), ?_, rfl, ?_⟩
    · change d₂.lines ++ [⟨d₂.depth, _⟩] = _
      rw [happends.depth, ← hlines]
      simp [start, Draft.opened]
    · intro ps more d'' h
      have hguard := Guards.guard hdefault he hinside (fun l hl => hblocks.floor l hl) h
      rwa [List.cons_append, List.append_assoc, List.singleton_append]

/-- **The guards of all parameters**, in order. -/
theorem exists_guards {ps : List Node}
    (hrun : exec (ps.forM fun p => Handler.supplyDefault ((builtin o parsers).part p)) d =
      (.ok (), d')) :
    ∃ ls, d'.lines = d.lines ++ ls ∧ d'.depth = d.depth ∧
      (builtin o parsers).Guards ps d ls d' := by
  induction ps generalizing d with
  | nil =>
    cases hrun
    exact ⟨[], by simp, rfl, .nil _⟩
  | cons p ps ih =>
    obtain ⟨u, d₁, hfirst, hrest⟩ := exec_bind_eq_ok hrun
    obtain ⟨ls, hlines, hdepth, hguards⟩ := guards_step o parsers hfirst
    obtain ⟨more, hmore, hdepth', hrestGuards⟩ := ih hrest
    refine ⟨ls ++ more, ?_, hdepth'.trans hdepth, hguards ps more d' hrestGuards⟩
    rw [hmore, hlines, List.append_assoc]

/-! ## Functions -/

/-- **A function as it was written** from one draft to another: its head
behind its mark, and in its block the guards of its parameters and then the
body. -/
structure WroteFunction (c : Compiler) (n : Node) (d d' : Draft) (signature body : Node)
    (guards block : List Line) : Prop where
  hasSignature : Handler.argument n.fields 0 = some signature
  hasBody : Handler.argument n.fields 1 = some body
  lines : d'.lines.drop d.size = Line.markOf d.depth n.location ++
    ⟨d.depth, n.functionHead signature⟩ :: (guards ++ block)
  inside : ∃ start d₁ d₂, start.depth = d.depth + 1 ∧
    start.lines = d.lines ++ (Line.markOf d.depth n.location ++
      [⟨d.depth, n.functionHead signature⟩]) ∧
    c.Guards n.parameters start guards d₁ ∧ d₁.lines = start.lines ++ guards ∧
    exec (Compile.body .command body (Fields.map c.part body.fields)) d₁ = (.ok (), d₂) ∧
    d₂.lines = d₁.lines ++ block
  block_ne : block ≠ []
  block_head : ∀ l ∈ block.head?, l.depth = d.depth + 1
  block_deeper : ∀ l ∈ block, d.depth < l.depth

/-- The parameters are declared in order, and no line is written. -/
theorem declares_spec {ps : List Node} {declared : List (Text × Bool)}
    (hrun : exec (liftM (ps.mapM fun p => Handler.declare ((builtin o parsers).part p))) d =
      (.ok declared, d')) :
    declared = ps.map (fun p => (p.text (ascii "name"), p.default?.isSome)) ∧
      d'.lines = d.lines := by
  constructor
  · have hdeclare (p : Node) (d : Draft) : (Handler.declare ((builtin o parsers).part p) d).1 =
        (p.text (ascii "name"), p.default?.isSome) := by
      rw [Handler.declare, Handler.parameterDefault_eq, Handler.parameterName, node_part,
        Option.isSome_map, Node.default?]
      cases p.child? (ascii "default") <;> rfl
    have hmapM : ((ps.mapM fun p => Handler.declare ((builtin o parsers).part p)) d).1 =
        ps.map fun p => (p.text (ascii "name"), p.default?.isSome) := by
      clear hrun
      induction ps generalizing d with
      | nil => rfl
      | cons p ps ih =>
        rw [List.mapM_cons, Drafting.bind_apply, Drafting.bind_apply, Drafting.pure_apply,
          hdeclare, ih]
        rfl
    rw [exec_lift, Prod.mk.injEq, Except.ok.injEq] at hrun
    rw [← hrun.1, hmapM]
  · have hquiet : ∀ x ∈ ps.flatMap Node.declareDeeds, x = .lack := fun x hx => by
      obtain ⟨p, -, hx⟩ := List.mem_flatMap.1 hx
      exact Node.eq_lack_of_mem_declareDeeds hx
    have hkept := (Handler.does_declares (c := builtin o parsers) (P := True) ps).quiet
      (fun x hx => by rw [hquiet x hx]; rfl) (fun x hx => by rw [hquiet x hx]; simp [Deed.nodes]) d
    rwa [hrun] at hkept

/-- **Functions are laid out.** -/
theorem wroteFunction_of_handler {r : Result}
    (hrun : exec (Handler.function parsers n (Fields.map (builtin o parsers).part n.fields)) d =
      (.ok r, d')) :
    ∃ signature body guards block,
      (builtin o parsers).WroteFunction n d d' signature body guards block := by
  obtain ⟨_, d₀, hsignature, hrest⟩ := exec_bind_eq_ok hrun
  obtain ⟨m, hm, -, rfl, rfl⟩ := Handler.exec_signatureOf hsignature
  simp only [Handler.parameters_of_signature hm, List.mapM_map, List.forM_eq_forM, List.forM_map]
    at hrest
  obtain ⟨declared, d₁, d₂, hdeclared, hdepth, hblock, hlines⟩ :=
    exec_headed (keeps_does o parsers (Handler.does_declares n.parameters)) (keeps_does o parsers
      ((Handler.does_supplyDefaults n.parameters).bind fun _ =>
        Handler.does_bodyOf 1 fun _ => trivial)) hrest
  obtain ⟨rfl, hsame⟩ := declares_spec o parsers hdeclared
  have hhead : Stmt.define (m.text (ascii "name"))
    (n.parameters.map fun p => (p.text (ascii "name"), p.default?.isSome)) = n.functionHead m := rfl
  rw [node_part, hhead] at hblock hlines
  have hstart : d₁.headed n.location (n.functionHead m) = { d₁ with
      depth := d₀.depth + 1
      lines := d₀.lines ++ (Line.markOf d₀.depth n.location ++
        [⟨d₀.depth, n.functionHead m⟩]) } := by
    rw [Draft.headed_eq, hdepth, hsame]
  rw [hstart] at hblock hlines
  -- in the block the guards come first and the body last
  obtain ⟨u, d₃, hguardsRun, hbodyRun⟩ := exec_bind_eq_ok hblock
  obtain ⟨guards, hguardLines, hguardDepth, hguards⟩ := exists_guards o parsers hguardsRun
  obtain ⟨block, hblockLines⟩ : d₃.lines <+: d₂.lines := by
    have hkeeps := keeps_does o parsers (Handler.does_bodyOf (n := n) 1 fun _ => trivial) d₃
    rw [hbodyRun] at hkeeps
    exact hkeeps.lines
  obtain ⟨hblocks, hne⟩ := blocks_bodyOf o parsers hbodyRun
  have hnew : d₂.lines.drop d₃.size = block := by
    rw [← hblockLines, Draft.size, List.drop_left]
  rw [hnew, hguardDepth] at hblocks
  rw [hnew] at hne
  rw [Handler.argument_map] at hbodyRun
  cases hb : Handler.argument n.fields 1 with
  | none =>
    rw [hb] at hbodyRun
    cases hbodyRun
  | some b =>
    rw [hb, Option.map_some, bodyOf, node_part, fields_part] at hbodyRun
    refine ⟨m, b, guards, block, hm, hb, ?_, ⟨_, d₃, d₂, rfl, rfl, hguards, hguardLines, hbodyRun,
      hblockLines.symm⟩, hne, hblocks.head, hblocks.floor⟩
    rw [hlines, hsame, Draft.size, List.drop_length, List.nil_append, ← hblockLines, hguardLines,
      Draft.size, List.append_assoc, List.drop_left]

/-- **Functions are laid out**, whatever they are compiled behind. -/
theorem exists_wroteFunction (hform : n.form = .function) {r : Result}
    (hrun : exec ((builtin o parsers).part n).run d = (.ok r, d')) :
    ∃ signature body guards block,
      (builtin o parsers).WroteFunction n d d' signature body guards block := by
  obtain ⟨events, hexec⟩ := exec_run_builtin o parsers n d
  rw [hrun, hform] at hexec
  obtain ⟨signature, body, guards, block, h⟩ := wroteFunction_of_handler o parsers hexec.symm
  exact ⟨signature, body, guards, block, h.hasSignature, h.hasBody, h.lines, h.inside, h.block_ne,
    h.block_head, h.block_deeper⟩

/-! ## What stands for arguments that were not given -/

theorem lack_mem_declareDeeds : Deed.lack ∈ p.declareDeeds ↔ p.default?.isSome = true := by
  rw [Node.declareDeeds, Node.childNodes, Node.default?]
  cases p.child? (ascii "default") <;> simp

/-- Only a function with a parameter that may be left out asks for it. -/
theorem lack_mem_deeds : Deed.lack ∈ n.deeds ↔
    n.form = .function ∧ ∃ p ∈ n.parameters, p.default?.isSome = true := by
  have hfields (collection : Collection) :
      Deed.lack ∉ n.fields.flatMap fun f => f.value.deeds collection := by
    rw [List.mem_flatMap]
    rintro ⟨⟨name, value⟩, -, h⟩
    cases value <;> simp [Value.deeds] at h
  unfold Node.deeds
  cases n.form <;>
    simp [hfields, Node.blockDeeds, Node.bodyDeeds, Node.guardDeeds, lack_mem_declareDeeds]

/-- **Compiling a tree asks for it** if a function of the tree does. -/
theorem asks_part (n : Node) :
    Asks (∃ m ∈ n.invocations, Deed.lack ∈ m.deeds) ((builtin o parsers).part n).run := by
  induction n using Node.induction_descendants with
  | step n ih =>
    refine ((does_part o parsers n).asks fun x hx m hm =>
      ih m (Node.mem_descendants_of_mem_nodes hx hm)).congr ?_
    constructor
    · rintro (hlack | ⟨x, hx, k, hk, m, hm, hlack⟩)
      · exact ⟨n, n.mem_invocations_self, hlack⟩
      · exact ⟨m, Node.mem_invocations_iff.2 (.inr ⟨x, hx, k, hk, hm⟩), hlack⟩
    · rintro ⟨m, hm, hlack⟩
      obtain rfl | ⟨x, hx, k, hk, hm⟩ := Node.mem_invocations_iff.1 hm
      · exact .inl hlack
      · exact .inr ⟨x, hx, k, hk, m, hm, hlack⟩

/-- A whole program asks for it if its tree does. -/
theorem mem_helpers_compileRoot {root : Node} {outcome : Option Nat} {draft : Draft}
    (hrun : (builtin o parsers).run root = (.ok outcome, draft)) :
    Helper.missing ∈ draft.program.helpers ↔ ∃ n ∈ root.invocations,
      n.form = .function ∧ ∃ p ∈ n.parameters, p.default?.isSome = true := by
  have hexec : exec ((builtin o parsers).compileRoot root) .empty = (.ok outcome, draft) := hrun
  rw [exec_compileRoot] at hexec
  rcases hpart : exec ((builtin o parsers).part root).run .empty with
    ⟨_ | _ | _ | ⟨e, _ | _⟩, d⟩ <;> rw [hpart] at hexec <;> cases hexec
  all_goals
    have hasks := asks_part o parsers root _ _ _ hpart
    simp only [lack_mem_deeds] at hasks
    exact hasks.trans (or_iff_right List.not_mem_nil)

/-! ## The law -/

/-- **The layout of functions.** However a function is compiled, its head
lists the parameters, and in its block there is a guard for each parameter
with a default, in order, and then the body. What a default writes stands
inside its guard, before the assignment. In a program the lines of the
function stand in one piece, and what stands for an argument that was not
given is bound in the header exactly if a function of the program has a
parameter with a default. -/
theorem function_layout :
    (∀ (n signature : Node) (stem : Text), (n.functionHead signature).render stem =
      ascii "def " ++ signature.text (ascii "name") ++ ascii "(" ++
        Text.commaSeparated (n.parameters.map (Node.declaration stem)) ++ ascii "):") ∧
    (∀ (n : Node) (d d' : Draft) (r : Result), n.form = .function →
      exec ((builtin o parsers).part n).run d = (.ok r, d') →
      ∃ signature body guards block,
        (builtin o parsers).WroteFunction n d d' signature body guards block) ∧
    ∀ (root : Node) (outcome : Option Nat) (draft : Draft),
      (builtin o parsers).run root = (.ok outcome, draft) →
      (∀ n ∈ root.invocations, n.form = .function → ∃ r d d',
        exec ((builtin o parsers).part n).run d = (.ok r, d') ∧
        Line.StandIn (d'.lines.drop d.size) draft.lines) ∧
      (Helper.missing ∈ draft.program.helpers ↔ ∃ n ∈ root.invocations,
        n.form = .function ∧ ∃ p ∈ n.parameters, p.default?.isSome = true) := by
  refine ⟨fun n signature stem => n.render_functionHead stem signature,
    fun n d d' r hform hpart => exists_wroteFunction o parsers hform hpart, ?_⟩
  intro root outcome draft hrun
  constructor
  · intro n hn _
    have hleaves : Leaves (fun ls => ∃ r d d', exec ((builtin o parsers).part n).run d =
        (.ok r, d') ∧ ls = d'.lines.drop d.size) ((builtin o parsers).part n).run :=
      fun d r d' hpart => ⟨_, ⟨r, d, d', hpart, rfl⟩, .refl _⟩
    obtain ⟨ls, ⟨r, d, d', hpart, rfl⟩, hstand⟩ :=
      leaves_compileRoot o parsers hn hleaves .empty outcome draft hrun
    exact ⟨r, d, d', hpart, hstand⟩
  · exact mem_helpers_compileRoot o parsers hrun

/-- A function of two parameters, one with a default. -/
theorem function_layout_default :
    let parameter (name : String) (value : Option Node) : Node :=
      ⟨.functionArgument, [⟨ascii "name", .leaf (.str (ascii name))⟩,
        ⟨ascii "default", .child value⟩], .unknown⟩
    let signature : Node := ⟨.functionSignature, [⟨ascii "name", .leaf (.str (ascii "f"))⟩,
      ⟨ascii "arguments", .children [some (parameter "a" none),
        some (parameter "x" (some ⟨.value, [⟨ascii "value", .leaf (.int 1)⟩], .unknown⟩))]⟩],
      .unknown⟩
    let command (identifier : String) (arguments : List (Option Node)) : Node :=
      ⟨.command, [⟨ascii "identifier", .leaf (.str (ascii identifier))⟩,
        ⟨ascii "arguments", .children arguments⟩], .unknown⟩
    let block (commands : List (Option Node)) : Node :=
      ⟨.root, [⟨ascii "commands", .children commands⟩], .unknown⟩
    let function := command "def:function:body" [some signature, some (block [command "pass" []])]
    let root := block [some function]
    let c := builtin .standard []
    function.form = .function ∧ function ∈ root.invocations ∧
      (c.run root).1 = .ok (some 1) ∧
      (function.functionHead signature).render (ascii "_bolt") =
        ascii "def f(a, x=_bolt_helper_missing):" ∧
      ∃ d d' r signature body guards block, exec (c.part function).run d = (.ok r, d') ∧
        c.WroteFunction function d d' signature body guards block ∧
        Line.StandIn (d'.lines.drop d.size) (c.run root).2.lines ∧
        Helper.missing ∈ (c.run root).2.program.helpers := by
  intro parameter signature command block function root c
  have hform : function.form = .function := by decide
  have hfunction : function ∈ root.invocations := by
    have hbelow : function ∈ root.ahead ++ root.inside := List.mem_singleton_self _
    rw [Node.invocations_eq]
    exact List.mem_cons_of_mem _ (List.mem_flatMap.2
      ⟨function, hbelow, function.mem_invocations_self⟩)
  have hok : (c.run root).1 = .ok (some 1) := by decide +kernel
  have hrun : c.run root = (.ok (some 1), (c.run root).2) := by rw [← hok]
  obtain ⟨hhead, hlaid, hprogram⟩ := function_layout .standard []
  obtain ⟨hplaced, hmissing⟩ := hprogram root _ _ hrun
  obtain ⟨r, d, d', hpart, hstand⟩ := hplaced function hfunction hform
  obtain ⟨m, body, guards, lines, hwrote⟩ := hlaid function d d' r hform hpart
  refine ⟨hform, hfunction, hok, ?_, d, d', r, m, body, guards, lines, hpart, hwrote, hstand,
    hmissing.2 ⟨function, hfunction, hform, ?_⟩⟩
  · rw [hhead]
    decide
  · exact ⟨_, List.mem_cons_of_mem _ List.mem_cons_self, rfl⟩

end Compiler

end ScriptSplice
