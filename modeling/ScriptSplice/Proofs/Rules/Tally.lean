import ScriptSplice.Proofs.Rules.Emitters
import ScriptSplice.Proofs.Target.Replacements
/-!
# Keeping a tally of what is rebuilt

Which nodes the rules are invoked on is plain from the tree
(`Node.invocations`), and so is which of them are rebuilt: those that the
generic rule or the rule for roots is for, if an expression or a statement
is below them (`Node.isRebuilt`). While a tree is compiled, the
replacements are in the lines already written or in expressions in hand. A
tally (`Tally`) says of the time between two drafts that there is one for
every node rebuilt and no other, and that the choices recorded are those
of the invocations. An action tallies (`Compile.Tallies`) if this is so
whenever it gives something; there is one rule for each way of building
an action.
-/

namespace ScriptSplice

open Compile

variable {α β : Type}

/-! ## Which nodes are rebuilt -/

/-- Whether an event is the choice of a rule. -/
def Event.isChoice : Event → Bool
  | chosen .. => true
  | _ => false

/-- The choices recorded. -/
def Draft.choices (d : Draft) : List Event := d.events.filter Event.isChoice

theorem Drafting.choices_use (h : Helper) (d : Draft) : (use h d).2.choices = d.choices := by
  rw [use_apply]
  split <;> rfl

theorem Drafting.prefix_use (h : Helper) (d : Draft) : d.refs <+: (use h d).2.refs :=
  (refs_use h d).symm ▸ List.prefix_refl _

namespace Node

variable (n : Node)

/-- The name of the standard rule for a node. -/
def rule : Text := ((builtinRules.resolve n).map (·.name)).getD []

/-- The record of choosing the rule for a node. -/
def choice : Event := .chosen n.kind n.rule

/-- Whether the generic rule or the rule for roots is for a node. -/
def isGeneric : Bool := n.rule == ascii "generic" || n.rule == ascii "root"

/-- Nodes of one kind and one identifier have one rule. -/
theorem rule_congr {n m : Node} (hk : n.kind = m.kind)
    (hl : n.leaf? Handler.identifierField = m.leaf? Handler.identifierField) :
    n.rule = m.rule := by
  rw [rule, rule, resolve_builtinRules_congr hk hl]

/-- For the other kinds than commands, rules look at the kind alone. -/
theorem rule_bare (hk : n.kind ≠ .command) : n.rule = rule ⟨n.kind, [], .unknown⟩ := by
  have hall : builtinRules.ranked.all (fun r =>
      r.kind == some .command || r.constraints.isEmpty) = true := by decide
  have happlies : ∀ r ∈ builtinRules.ranked,
      r.toRule.applies n = r.toRule.applies ⟨n.kind, [], .unknown⟩ := by
    intro r hr
    rw [Rule.applies, Rule.applies]
    rcases Bool.or_eq_true_iff.1 (List.all_eq_true.1 hall r hr) with hcommand | hnone
    · simp [eq_of_beq hcommand, beq_false_of_ne hk.symm]
    · rw [List.isEmpty_iff.1 hnone]
      rfl
  rw [rule, rule, RuleSet.resolve, RuleSet.resolve, ← List.head?_filter, ← List.head?_filter,
    List.filter_congr happlies]

/-- A command with a listed identifier has a rule of its own. -/
theorem isGeneric_listed {c : Text × Form} (hc : c ∈ Form.commands) :
    isGeneric ⟨.command, [⟨Handler.identifierField, .leaf (.str c.1)⟩], .unknown⟩ = false := by
  have hall : (Form.commands.all fun c => !isGeneric
      ⟨.command, [⟨Handler.identifierField, .leaf (.str c.1)⟩], .unknown⟩) = true := by
    decide +kernel
  simpa using List.all_eq_true.1 hall c hc

/-- A kind alone has a rule of its own exactly if its form never stays as it is. -/
theorem isGeneric_bare (k : Kind) :
    isGeneric ⟨k, [], .unknown⟩ = !(form ⟨k, [], .unknown⟩).isDynamic := by
  have hall : ∀ k ∈ Kind.all,
      isGeneric ⟨k, [], .unknown⟩ = !(form ⟨k, [], .unknown⟩).isDynamic := by decide +kernel
  exact hall k (by cases k <;> decide)

/-- **The generic rule and the rule for roots** are for the nodes that no
rule for an expression or a statement is for. -/
theorem isGeneric_eq (n : Node) : n.isGeneric = !n.isDynamic := by
  rw [n.isDynamic_eq]
  by_cases hk : n.kind = .command
  · have hform : n.form = .ofCommand (n.leaf? Handler.identifierField) := by
      simp only [form, hk]
    rw [hform]
    obtain ⟨c, hc, hl, hlisted⟩ | ⟨hnone, hunlisted⟩ :=
      Form.ofCommand_cases (n.leaf? Handler.identifierField)
    · let listed : Node := ⟨.command, [⟨Handler.identifierField, .leaf (.str c.1)⟩], .unknown⟩
      have hleaf : n.leaf? Handler.identifierField = listed.leaf? Handler.identifierField := hl
      have hrule : n.isGeneric = listed.isGeneric := by
        rw [isGeneric, isGeneric, rule_congr hk hleaf]
      rw [hrule, isGeneric_listed hc, Form.isDynamic_ofCommand, hlisted,
        Form.isStatement_of_mem hc]
      rfl
    · rw [hunlisted, isGeneric, rule, resolve_unlisted hk hnone]
      rfl
  · have hform : n.form = form ⟨n.kind, [], .unknown⟩ := by
      obtain ⟨kind, fields, location⟩ := n
      cases kind <;> first | rfl | exact absurd rfl hk
    rw [hform, ← isGeneric_bare, isGeneric, isGeneric, n.rule_bare hk]

/-- **The nodes of a tree that a rule is invoked on**, in the order of the
invocations. -/
def invocations (n : Node) : List Node :=
  n :: (n.ahead.attach.flatMap (fun m => invocations m.1) ++
    n.inside.attach.flatMap fun m => invocations m.1)
termination_by n.size
decreasing_by
  · exact size_lt_of_mem_descendants (mem_descendants_of_mem_ahead m.2)
  · exact size_lt_of_mem_descendants (mem_descendants_of_mem_inside m.2)

theorem invocations_eq (n : Node) :
    n.invocations = n :: (n.ahead ++ n.inside).flatMap invocations := by
  rw [invocations]
  simp

theorem mem_invocations_self (n : Node) : n ∈ n.invocations := by
  rw [invocations_eq]
  exact List.mem_cons_self

/-- Whether a node is rebuilt: something below it changes. -/
def isRebuilt : Bool := n.isGeneric && n.descendants.any isDynamic

/-- The fields of a node with something in them that changes. -/
def changedFields : List (Field Node) := n.fields.filter fun f => f.value.nodes.any hasDynamic

/-- A copy of a node with these fields replaced. -/
def replacement : Replacement := ⟨some n, n.changedFields.map (·.name)⟩

/-- The nodes that are rebuilt when a tree is compiled. -/
def rebuilt : List Node := n.invocations.filter isRebuilt

/-- The choices recorded when some trees are compiled. -/
def choicesAll (ns : List Node) : List Event := ns.flatMap fun n => n.invocations.map choice

/-- The replacements made when some trees are compiled. -/
def replacementsAll (ns : List Node) : Multiset Replacement :=
  ns.flatMap fun n => n.rebuilt.map replacement

variable (ns ms : List Node)

@[simp] theorem choicesAll_nil : choicesAll [] = [] := rfl

@[simp] theorem choicesAll_append : choicesAll (ns ++ ms) = choicesAll ns ++ choicesAll ms :=
  List.flatMap_append

@[simp] theorem replacementsAll_nil : replacementsAll [] = 0 := rfl

@[simp] theorem replacementsAll_append :
    replacementsAll (ns ++ ms) = replacementsAll ns + replacementsAll ms := by
  simp [replacementsAll]

theorem choicesAll_singleton : choicesAll [n] = n.choice :: choicesAll (n.ahead ++ n.inside) := by
  simp [choicesAll, invocations_eq n, List.map_flatMap]

theorem replacementsAll_singleton :
    replacementsAll [n] =
      (if n.isRebuilt then {n.replacement} else 0) + replacementsAll (n.ahead ++ n.inside) := by
  have hbelow : (((n.ahead ++ n.inside).flatMap invocations).filter isRebuilt).map replacement =
      (n.ahead ++ n.inside).flatMap fun m => m.rebuilt.map replacement := by
    rw [List.filter_flatMap, List.map_flatMap]
    rfl
  rw [replacementsAll, List.flatMap_singleton, rebuilt, invocations_eq, List.filter_cons,
    replacementsAll, ← hbelow]
  split
  · rw [List.map_cons, ← Multiset.cons_coe, Multiset.singleton_add]
  · rw [zero_add]

end Node

/-! ## Tallies -/

/-- **A tally** of the time between two drafts: the nodes `ns` were
compiled, the lines `new` written, and the expressions in hand went from
`es` to `fs`. -/
structure Tally (table : List (Option Node)) (d : Draft) (es : List Expr) (ns : List Node)
    (new : List Line) (fs : List Expr) (d' : Draft) : Prop where
  refs : d.refs <+: d'.refs
  choices : d'.choices = d.choices ++ Node.choicesAll ns
  replacements : d'.refs <+: table →
    Line.replacements table new + Expr.replacementsAll table fs =
      Expr.replacementsAll table es + Node.replacementsAll ns

namespace Tally

variable {table : List (Option Node)} {d d' d'' : Draft} {es fs gs : List Expr}
  {ns ms : List Node} {new more : List Line}

/-- **Two tallies in a row.** -/
theorem append (h : Tally table d es ns new fs d') (h' : Tally table d' fs ms more gs d'') :
    Tally table d es (ns ++ ms) (new ++ more) gs d'' where
  refs := h.refs.trans h'.refs
  choices := by rw [h'.choices, h.choices, Node.choicesAll_append, List.append_assoc]
  replacements htable := by
    have hfirst := h.replacements (h'.refs.trans htable)
    rw [Line.replacements_append, add_assoc, h'.replacements htable, ← add_assoc, hfirst,
      Node.replacementsAll_append, add_assoc]

/-- Nothing is compiled, and the replacements are only moved about. -/
theorem idle (hrefs : d.refs <+: d'.refs) (hchoices : d'.choices = d.choices)
    (hreplacements : Line.replacements table new + Expr.replacementsAll table fs =
      Expr.replacementsAll table es) : Tally table d es [] new fs d' :=
  ⟨hrefs, by simp [hchoices], fun _ => by simpa using hreplacements⟩

/-- **Expressions in hand are kept.** -/
theorem frame (h : Tally table d es ns new fs d') (kept : List Expr) :
    Tally table d (kept ++ es) ns new (kept ++ fs) d' where
  refs := h.refs
  choices := h.choices
  replacements htable := by
    rw [Expr.replacementsAll_append, Expr.replacementsAll_append, add_assoc,
      ← h.replacements htable, add_left_comm]

/-- The same replacements in other lines and expressions. -/
theorem rearrange (h : Tally table d es ns new fs d') (hrefs : d'.refs <+: d''.refs)
    (hchoices : d''.choices = d'.choices)
    (hreplacements : Line.replacements table more + Expr.replacementsAll table gs =
      Line.replacements table new + Expr.replacementsAll table fs) :
    Tally table d es ns more gs d'' where
  refs := h.refs.trans hrefs
  choices := by rw [hchoices, h.choices]
  replacements htable := by
    rw [hreplacements]
    exact h.replacements (hrefs.trans htable)

end Tally

/-! ## Actions -/

/-- **An action tallies**: with the expressions `es` in hand it compiles the
nodes `ns`, and then the expressions that it gives are in hand. -/
def Compile.Tallies (es : List Expr) (ns : List Node) (given : α → List Expr)
    (act : Compile α) : Prop :=
  ∀ table d a d', exec act d = (.ok a, d') →
    ∃ new, d'.lines = d.lines ++ new ∧ Tally table d es ns new (given a) d'

namespace Compile.Tallies

variable {es fs : List Expr} {ns ms : List Node} {given : α → List Expr} {act : Compile α}

/-- **Expressions in hand are kept.** -/
theorem frame (h : Tallies [] ns given act) (es : List Expr) :
    Tallies es ns (fun a => es ++ given a) act := by
  intro table d a d' hrun
  obtain ⟨new, hlines, htally⟩ := h table d a d' hrun
  exact ⟨new, hlines, by simpa using htally.frame es⟩

/-- What is given can be looked at in another way. -/
theorem mono (h : Tallies es ns given act) {given' : α → List Expr}
    (hgiven : ∀ a, given' a = given a) : Tallies es ns given' act := by
  rwa [funext hgiven]

/-- **Two actions in a row.** The second one matters only for what the
first can give. -/
theorem bind_of_ok {next : α → Compile β} {given' : β → List Expr}
    (h : Tallies es ns given act)
    (hnext : ∀ a d d', exec act d = (.ok a, d') → Tallies (given a) ms given' (next a)) :
    Tallies es (ns ++ ms) given' (act >>= next) := by
  intro table d b d' hrun
  obtain ⟨a, d₁, hact, hrun⟩ := exec_bind_eq_ok hrun
  obtain ⟨new, hlines, htally⟩ := h table d a d₁ hact
  obtain ⟨more, hlines', htally'⟩ := hnext a d d₁ hact table d₁ b d' hrun
  exact ⟨new ++ more, by rw [hlines', hlines, List.append_assoc], htally.append htally'⟩

theorem bind {next : α → Compile β} {given' : β → List Expr} (h : Tallies es ns given act)
    (hnext : ∀ a, Tallies (given a) ms given' (next a)) :
    Tallies es (ns ++ ms) given' (act >>= next) :=
  h.bind_of_ok fun a _ _ _ => hnext a

/-- The first action compiles nothing. -/
theorem andThen {next : α → Compile β} {given' : β → List Expr} (h : Tallies es [] given act)
    (hnext : ∀ a d d', exec act d = (.ok a, d') → Tallies (given a) ms given' (next a)) :
    Tallies es ms given' (act >>= next) :=
  h.bind_of_ok hnext

/-- The second action compiles nothing. -/
theorem next {next : α → Compile β} {given' : β → List Expr} (h : Tallies es ns given act)
    (hnext : ∀ a, Tallies (given a) [] given' (next a)) :
    Tallies es ns given' (act >>= next) := by
  have hbind := h.bind hnext
  rwa [List.append_nil] at hbind

/-- Other expressions are made of those in hand. -/
theorem pure {a : α} (hreplacements : ∀ table,
    Expr.replacementsAll table (given a) = Expr.replacementsAll table es) :
    Tallies es [] given (Pure.pure a) := by
  rintro table d _ _ ⟨⟩
  exact ⟨[], by simp, .idle (List.prefix_refl _) rfl (by simp [hreplacements])⟩

theorem throw (e : Failure) : Tallies es ns given (MonadExcept.throw e) := by
  rintro _ _ _ _ ⟨⟩

/-- Reading a node. -/
theorem read (x : Except Failure α) : Tallies es [] (fun _ => es) (liftExcept x) := by
  cases x with
  | error e => exact throw e
  | ok a => exact pure fun _ => rfl

/-- An action that neither writes nor compiles anything. -/
theorem idle {act : Drafting α} (hlines : ∀ d, (act d).2.lines = d.lines)
    (hrefs : ∀ d, d.refs <+: (act d).2.refs) (hchoices : ∀ d, (act d).2.choices = d.choices)
    (hgiven : ∀ table d, Expr.replacementsAll table (given (act d).1) =
      Expr.replacementsAll table es) : Tallies es [] given (liftM act) := by
  rintro table d _ _ ⟨⟩
  exact ⟨[], by simp [hlines], .idle (hrefs d) (hchoices d) (by simp [hgiven])⟩

theorem use (h : Helper) : Tallies es [] (fun _ => es) (liftM (Drafting.use h)) :=
  idle (Drafting.lines_use h) (Drafting.prefix_use h) (Drafting.choices_use h) fun _ _ => rfl

/-- A call of a helper that replaces nothing. -/
theorem apply (h : Helper) (hne : h ≠ .replace) (kept : List Expr) {args : List Expr}
    (hargs : ∀ table, Expr.replacementsAll table (kept ++ args) =
      Expr.replacementsAll table es) :
    Tallies es [] (fun e => kept ++ [e]) (liftM (Drafting.apply h args)) := by
  refine (use h).bind fun _ => pure fun table => ?_
  have hnone : Expr.replacedBy table args h = 0 := by
    cases h <;> first | rfl | exact absurd rfl hne
  rw [← hargs]
  simp [Expr.replacements, hnone]

/-- A reference. -/
theorem ref (r : Option Node) : Tallies es [] (fun e => es ++ [e]) (liftM (Drafting.ref r)) :=
  idle (fun _ => rfl) (fun _ => List.prefix_append _ _) (fun _ => rfl)
    fun _ _ => by simp [Expr.replacements]

/-- A statement is written with the expressions in hand. -/
theorem emit {s : Stmt} (hreplacements : ∀ table,
    s.replacements table = Expr.replacementsAll table es) :
    Tallies es [] (fun _ => []) (liftM (Drafting.emit s)) := by
  rintro table d _ _ ⟨⟩
  exact ⟨[⟨d.depth, s⟩], rfl, .idle (List.prefix_refl _) rfl (by simp [hreplacements])⟩

/-- A mark replaces nothing. -/
theorem mark (place : Location) : Tallies es [] (fun _ => es) (liftM (Drafting.mark place)) := by
  intro table d _ d' hrun
  rw [exec_lift, Drafting.mark_apply, Prod.mk.injEq] at hrun
  obtain ⟨-, rfl⟩ := hrun
  refine ⟨_, rfl, .idle (List.prefix_refl _) rfl ?_⟩
  cases place.line? <;> simp [Stmt.replacements]

/-- A block writes what is written in it. -/
theorem inBlock (h : Tallies es ns given act) : Tallies es ns given (inBlock act) := by
  intro table d a d' hrun
  rw [exec_inBlock, Prod.mk.injEq] at hrun
  obtain ⟨hresult, rfl⟩ := hrun
  obtain ⟨new, hlines, htally⟩ := h table { d with depth := d.depth + 1 } a _
    (Prod.ext hresult rfl)
  exact ⟨new, hlines, htally.refs, htally.choices, htally.replacements⟩

variable {ι : Type} {f : ι → Compile α} {nodes : ι → List Node}

/-- **An action for every element of a list.** -/
theorem mapM (given : α → List Expr) (l : List ι) (h : ∀ i ∈ l, Tallies [] (nodes i) given (f i)) :
    Tallies [] (l.flatMap nodes) (·.flatMap given) (l.mapM f) := by
  induction l with
  | nil => exact pure fun _ => rfl
  | cons i l ih =>
    rw [List.mapM_cons, List.flatMap_cons]
    refine (h i List.mem_cons_self).bind fun a => ?_
    refine ((ih fun j hj => h j (List.mem_cons_of_mem _ hj)).frame (given a)).next fun as => ?_
    exact pure fun _ => by simp

theorem forM {f : ι → Compile Unit} (l : List ι)
    (h : ∀ i ∈ l, Tallies [] (nodes i) (fun _ => []) (f i)) :
    Tallies [] (l.flatMap nodes) (fun _ => []) (l.forM f) := by
  induction l with
  | nil => exact pure fun _ => rfl
  | cons i l ih =>
    exact (h i List.mem_cons_self).bind fun _ => ih fun j hj => h j (List.mem_cons_of_mem _ hj)

end Compile.Tallies

end ScriptSplice
