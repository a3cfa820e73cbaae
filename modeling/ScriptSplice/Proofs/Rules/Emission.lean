import ScriptSplice.Proofs.Rules.Keeping
import ScriptSplice.Rules.Recipe
/-!
# Handlers that only emit

`Emission` holds of the actions that are built from the operations of
emission: writing statements, referring to nodes, taking variables, using
helpers, acting in blocks, and compiling the parts of the node at hand. It
says how an action is built, not what it does; that such an action only
adds to the draft is a theorem (`Emission.keeps`). Every recipe is built
this way (`Recipe.emits`).
-/

namespace ScriptSplice

open Compile

/-- **Emission.** The actions a handler builds from the operations of
emission, given the fields of the node at hand. -/
inductive Compile.Emission : Fields Part → {α : Type} → Compile α → Prop
  | pure {fields : Fields Part} {α : Type} (a : α) : Emission fields (Pure.pure a)
  | bind {fields : Fields Part} {α β : Type} {act : Compile α} {next : α → Compile β}
      (hact : Emission fields act) (hnext : ∀ a, Emission fields (next a)) :
      Emission fields (act >>= next)
  | throw {fields : Fields Part} {α : Type} (e : Failure) :
      Emission fields (MonadExcept.throw e : Compile α)
  /-- Goes on after a failure. -/
  | tryCatch {fields : Fields Part} {α : Type} {act : Compile α} {handle : Failure → Compile α}
      (hact : Emission fields act) (hhandle : ∀ e, Emission fields (handle e)) :
      Emission fields (MonadExcept.tryCatch act handle)
  /-- Looks at the draft. -/
  | look {fields : Fields Part} : Emission fields (get : Compile Draft)
  | statement {fields : Fields Part} (s : Stmt) : Emission fields (liftM (Drafting.emit s))
  | block {fields : Fields Part} {α : Type} {act : Compile α} (hact : Emission fields act) :
      Emission fields (inBlock act)
  | ref {fields : Fields Part} (n : Option Node) : Emission fields (liftM (Drafting.ref n))
  | slice {fields : Fields Part} (ns : List (Option Node)) :
      Emission fields (liftM (Drafting.slice ns))
  | fresh {fields : Fields Part} : Emission fields (liftM Drafting.freshVariable)
  | apply {fields : Fields Part} (h : Helper) (args : List Expr) :
      Emission fields (liftM (Drafting.apply h args))
  | missing {fields : Fields Part} : Emission fields (liftM Drafting.missing)
  | mark {fields : Fields Part} (place : Location) :
      Emission fields (liftM (Drafting.mark place))
  /-- Compiles a part of the node, or a part of its parts. -/
  | run {fields : Fields Part} {p : Part} (hp : Reaches fields p) : Emission fields p.run
  /-- Compiles any node by a compiler of its own, whose further rules only
  emit, too. -/
  | compile {fields : Fields Part} {c : Compiler}
      (hc : ∀ r ∈ c.rules.ranked, r.toRule ∉ standardRules →
        ∀ parsers n inner, Emission inner (r.action parsers n inner)) (n : Node) :
      Emission fields (c.part n).run
  | operand? {fields : Fields Part} {o : Option Part}
      (ho : ∀ p, o = some p → Reaches fields p) : Emission fields (operand? o)
  | required {fields : Fields Part} {o : Option Part}
      (ho : ∀ p, o = some p → Reaches fields p) : Emission fields (required o)
  | splice {fields : Fields Part} (collection : Collection) {parts : List (Option Part)}
      (hparts : ∀ p, some p ∈ parts → Reaches fields p) :
      Emission fields (splice collection parts)
  | rebuild {fields : Fields Part} (collection : Collection) (n : Node) {inner : Fields Part}
      (hinner : ∀ p ∈ Fields.nodes inner, Reaches fields p) :
      Emission fields (rebuild collection n inner)
  | body {fields : Fields Part} (collection : Collection) (n : Node) {inner : Fields Part}
      (hinner : ∀ p ∈ Fields.nodes inner, Reaches fields p) :
      Emission fields (body collection n inner)

/-- A handler uses the operations of emission only. -/
def Handler.Emits (h : Handler) : Prop := ∀ parsers n fields, Emission fields (h parsers n fields)

/-- The rules of a compiler are standard ones, or further ones whose
handlers only emit. -/
def Compiler.RulesEmit (c : Compiler) : Prop :=
  ∀ r ∈ c.rules.ranked, r.toRule ∉ standardRules → r.action.Emits

variable {R : Draft → Draft → Prop}

theorem Compiler.rulesKeep_of_further {c : Compiler}
    (h : ∀ r ∈ c.rules.ranked, r.toRule ∉ standardRules → r.action.Keeps R) : c.RulesKeep R := by
  intro r hr
  by_cases hstandard : r.toRule ∈ standardRules
  · exact .inl hstandard
  · exact .inr (h r hr hstandard)

/-- **Emission keeps every frame** that the parts keep. -/
theorem Compile.Emission.keeps (hR : Frame R) {fields : Fields Part}
    (h : ∀ p, Reaches fields p → Keeps R p.run) {α : Type} {act : Compile α}
    (hact : Emission fields act) : Keeps R act := by
  induction hact with
  | pure a => exact hR.pure a
  | bind _ _ ih ihnext => exact hR.bind (ih h) fun a => ihnext a h
  | throw e => exact hR.throw e
  | tryCatch _ _ ih ihhandle => exact hR.tryCatch (ih h) fun e => ihhandle e h
  | look => exact hR.refl
  | statement s => exact Frame.lift (hR.emit · s)
  | block _ ih => exact hR.inBlock (ih h)
  | ref n => exact Frame.lift (hR.ref · n)
  | slice ns => exact Frame.lift (hR.slice · ns)
  | fresh => exact Frame.lift hR.freshVariable
  | apply helper args => exact Frame.lift (hR.use · helper)
  | missing => exact Frame.lift (hR.use · .missing)
  | mark place => exact Frame.lift (hR.mark · place)
  | run hp => exact h _ hp
  | compile _ n ih => exact Compiler.keeps_part hR (Compiler.rulesKeep_of_further ih) n
  | operand? ho => exact hR.closed.operand? fun p hp => h p (ho p hp)
  | required ho => exact hR.closed.required fun p hp => h p (ho p hp)
  | splice collection hparts => exact hR.splice collection _ fun p hp => h p (hparts p hp)
  | rebuild collection n hinner => exact hR.closed.rebuild (fun p hp => h p (hinner p hp)) _ n
  | body collection n hinner => exact hR.closed.body (fun p hp => h p (hinner p hp)) _ n

theorem Handler.Emits.keeps (hR : Frame R) {h : Handler} (hh : h.Emits) : h.Keeps R :=
  fun parsers n fields hparts => (hh parsers n fields).keeps hR hparts

theorem Compiler.RulesEmit.rulesKeep (hR : Frame R) {c : Compiler} (hc : c.RulesEmit) :
    c.RulesKeep R := rulesKeep_of_further fun r hr hstandard => (hc r hr hstandard).keeps hR

/-! ## Recipes -/

namespace Recipe

variable (n : Node) (fields : Fields Part)

/-- Compiling every part, one after another. -/
theorem emission_walk : Emission fields (Job.walk fields) := by
  suffices ∀ parts : List Part, (∀ p ∈ parts, Reaches fields p) →
      Emission fields (parts.forM fun p => do let _ ← p.run) from
    this _ fun p hp => .here hp
  intro parts hparts
  induction parts with
  | nil => exact .pure _
  | cons p parts ih =>
    have hp : Emission fields p.run := .run (hparts p List.mem_cons_self)
    have hrest := ih fun q hq => hparts q (List.mem_cons_of_mem _ hq)
    exact .bind (.bind hp fun _ => .pure _) fun _ => hrest

mutual

theorem emission_take : ∀ step, Emission fields (take n fields step)
  | .statement t => .bind (.statement _) fun _ => .pure _
  | .fragment t => .pure _
  | .ref before after => .bind (.ref _) fun _ => .pure _
  | .var => .bind .fresh fun _ => .pure _
  | .mark => .bind (.mark _) fun _ => .pure _
  | .bracket t => .pure _
  | .apply h args => .bind (.apply _ _) fun _ => .pure _
  | .operand name isRequired => by
    have hchild : ∀ p, Fields.child? fields name = some p → Reaches fields p :=
      fun p hp => .here (Fields.mem_nodes_of_child? hp)
    cases isRequired with
    | true => exact .bind (.required hchild) fun _ => .pure _
    | false => exact .bind (.operand? hchild) fun _ => .pure _
  | .splice name collection =>
    .bind (.splice collection fun p hp => .here (Fields.mem_nodes_of_children hp)) fun _ => .pure _
  | .rebuild collection => .bind (.rebuild collection n fun p hp => .here hp) fun _ => .pure _
  | .body collection => .bind (.body collection n fun p hp => .here hp) fun _ => .pure _
  | .block steps => .block (emission_takeAll steps)
  | .bare => .throw _
  | .walk => .bind (emission_walk fields) fun _ => .pure _

theorem emission_takeAll : ∀ steps, Emission fields (takeAll n fields steps)
  | [] => .pure _
  | step :: steps =>
    .bind (emission_take step) fun _ => .bind (emission_takeAll steps) fun _ => .pure _

end

/-- **Every recipe only emits.** -/
theorem emits (r : Recipe) : r.handler.Emits := fun _ n fields =>
  .bind (emission_takeAll n fields r.steps) fun _ => .pure _

end Recipe

/-! ## Compiling a node -/

namespace Compiler

variable {c : Compiler}

theorem rulesEmit_builtin (o : Options) (parsers : Parsers) : (builtin o parsers).RulesEmit :=
  fun _ hr hstandard =>
    absurd ((RuleSet.mem_addAll hr).resolve_left List.not_mem_nil) hstandard

/-- Adding rules whose handlers only emit. -/
theorem RulesEmit.extend (hc : c.RulesEmit) {rules : RuleSet Handler}
    (h : ∀ r ∈ rules.ranked, r.action.Emits) : (c.extend rules).RulesEmit := by
  intro r hr hstandard
  rcases RuleSet.mem_extend hr with hr | ⟨s, hs, heq⟩
  · exact hc r hr hstandard
  · have haction : s.action = r.action := congrArg Rule.action heq
    exact haction ▸ h s hs

/-- The counter moves on by the variables that are handed out. It does not
decrease unless it starts over. -/
theorem counter_of_le {d d' : Draft} (h : d.fresh ≤ d'.fresh) :
    d'.counter = d.counter + .ofNat (d'.fresh - d.fresh) ∧
      (d.counter.toNat + (d'.fresh - d.fresh) < UInt32.size → d.counter ≤ d'.counter) := by
  have hcounter : d'.counter = d.counter + .ofNat (d'.fresh - d.fresh) := by
    rw [Draft.counter, Draft.counter, ← UInt32.ofNat_add, Nat.add_sub_cancel' h]
  refine ⟨hcounter, fun hfew => UInt32.le_iff_toNat_le.2 ?_⟩
  rw [UInt32.size] at hfew
  rw [hcounter, UInt32.toNat_add, UInt32.toNat_ofNat']
  omega

/-- **Compiling a node only adds to the draft**, whether or not it fails:
the depth is the one before, the lines, the nodes referred to and the
helpers begin with those before, and no variable is taken back. The counter
of variables moves on by as many as are handed out, so it does not decrease
as long as it does not start over. -/
theorem part_append_only (hc : c.RulesEmit) (n : Node) (d : Draft) :
    let d' := (exec (c.part n).run d).2
    d'.depth = d.depth ∧ d.lines <+: d'.lines ∧ d.refs <+: d'.refs ∧
      d.helpers <+: d'.helpers ∧ d.fresh ≤ d'.fresh ∧
      d'.counter = d.counter + .ofNat (d'.fresh - d.fresh) ∧
      (d.counter.toNat + (d'.fresh - d.fresh) < UInt32.size → d.counter ≤ d'.counter) := by
  have hgrows : d.Grows (exec (c.part n).run d).2 :=
    keeps_part Draft.Grows.frame (hc.rulesKeep Draft.Grows.frame) n d
  exact ⟨hgrows.depth, hgrows.lines, hgrows.refs, hgrows.helpers, hgrows.fresh,
    counter_of_le hgrows.fresh⟩

/-- A recipe that takes a variable, writes a line in a block, and then fails
there. -/
private def failing : Recipe :=
  ⟨[.var, .block [.statement (ascii "x"), .operand (ascii "y") true]], false⟩

/-- The line that was written before the failure stays, the variable that
was taken is counted, and the depth is the one before. -/
theorem part_append_only_failing :
    let c := (builtin .standard []).extend
      (RuleSet.empty.add (Handler.forKind .message "" failing.handler))
    let n : Node := ⟨.message, [], .unknown⟩
    let d : Draft := ⟨2, [⟨2, .pass⟩], [], [], 7, []⟩
    let d' := (exec (c.part n).run d).2
    c.RulesEmit ∧ (exec (c.part n).run d).1 = .error ⟨.missingOperand, .unknown⟩ ∧
      d'.lines = [⟨2, .pass⟩, ⟨3, .verbatim (ascii "x")⟩] ∧ d'.depth = d.depth ∧
      d.lines <+: d'.lines ∧ d'.fresh = 8 ∧ d.counter ≤ d'.counter := by
  intro c n d d'
  have hc : c.RulesEmit := by
    refine (rulesEmit_builtin _ _).extend fun r hr => ?_
    obtain rfl := List.mem_singleton.1 hr
    exact failing.emits
  obtain ⟨hdepth, hlines, -, -, -, -, hcounter⟩ := part_append_only hc n d
  have hfresh : d'.fresh = 8 := rfl
  exact ⟨hc, rfl, rfl, hdepth, hlines, hfresh, hcounter (by rw [hfresh]; decide)⟩

/-- **The counter starts over**: it is back at zero when the scope of a root
takes the last of its numbers. -/
theorem counter_starts_over :
    let c := builtin .standard []
    let value : Node := ⟨.identifier, [⟨ascii "value", .leaf (.str (ascii "x"))⟩], .unknown⟩
    let root : Node := ⟨.root, [⟨ascii "commands", .children [some value]⟩], .unknown⟩
    let d : Draft := ⟨0, [], [], [], UInt32.size - 1, []⟩
    let d' := (exec (c.part root).run d).2
    c.RulesEmit ∧ d.counter = 4294967295 ∧ d'.counter = 0 ∧ ¬ d.counter ≤ d'.counter := by
  intro c value root d d'
  have hfresh : d'.fresh = UInt32.size := by decide +kernel
  have hcounter : d'.counter = 0 := by rw [Draft.counter, hfresh]; decide
  exact ⟨rulesEmit_builtin _ _, rfl, hcounter, by rw [hcounter]; decide⟩

end Compiler

end ScriptSplice
