import ScriptSplice.Dispatch.Survey
import ScriptSplice.Proofs.Dispatch.Choice
import ScriptSplice.Proofs.Tree.Subtree
/-!
# Rules added on the way

Actions may change the rules while a tree is handled. Where the rules are
kept in a state, it is those at the beginning that choose the action for a
node (`Dispatcher.run_dispatch_of_view`).

A survey adds rules in this way. `Visits` says which rule every node is
then handled by: the best one for it among the rules there were when the
survey began and those added until then. What the rule of a node adds
counts from the next node on, and thus below the node, but not for the
node itself.

`Tracked` is what all work of a survey has in common: it is a sequence of
such visits, as far as rules, choices and records go. The ways of putting
work together keep it, so it holds of every job (`leads_job`).
-/

namespace ScriptSplice

/-! ## Rules in a state -/

/-- The second of two actions runs on the state of the first, if the first
did not fail. -/
theorem run_bind {ε σ γ δ : Type} (w : ExceptT ε (StateM σ) γ)
    (next : γ → ExceptT ε (StateM σ) δ) (s : σ) :
    (w >>= next).run.run s =
      match w.run.run s with
      | (.ok a, s') => (next a).run.run s'
      | (.error k, s') => (.error k, s') := by
  simp only [ExceptT.run_bind, StateT.run_bind]
  change (match w.run.run s with | (r, s') => _) = _
  rcases w.run.run s with ⟨_ | a, s'⟩ <;> rfl

namespace Dispatcher

variable {ε σ α β : Type} (d : Dispatcher (ExceptT ε (StateM σ)) α β) (view : σ → RuleSet α)

/-- **The rule is chosen by the rules at the beginning**, where they are
kept in a state, whatever the action does to the state. -/
theorem run_dispatch_of_view (hrules : d.rules = do return view (← get)) (n : Node)
    (fields : Fields (Job (ExceptT ε (StateM σ)) β)) (s : σ) :
    (d.dispatch n fields).run.run s =
      match (view s).resolve n with
      | none => (d.missing n).run.run s
      | some q => (do
          d.chosen n q
          d.act q.action n fields).run.run s := by
  have hview : d.rules.run.run s = (.ok (view s), s) := by
    rw [hrules]
    rfl
  rw [dispatch, ExceptT.run_bind, StateT.run_bind, hview]
  change (match (view s).resolve n with
    | none => d.missing n
    | some q => do
      d.chosen n q
      d.act q.action n fields).run.run s = _
  cases (view s).resolve n with
  | none => rfl
  | some q => rfl

end Dispatcher

/-! ## Visits -/

namespace Survey

/-- The rules that are added when an action begins. -/
def Action.adds : Action → List (Rule Action)
  | .passThrough => []
  | .follow s => s.adds.map Spec.rule

/-- A node that was handled, and the rule it was handled by. -/
structure Visit where
  node : Node
  rule : Rule Action

/-- What is reported of the choice that a visit begins with. -/
def Visit.note (v : Visit) : Text := choiceNote v.node.kind v.rule.name

/-- What is recorded when an action begins at a node. -/
def Action.line? (n : Node) : Action → Option Text
  | .passThrough => none
  | .follow s => some (s.name ++ ascii "@" ++ n.kind.name)

/-- What is recorded when the action of a visit begins. -/
def Visit.line? (v : Visit) : Option Text := v.rule.action.line? v.node

/-- The rules that some visits added. -/
def added (vs : List Visit) : List (Rule Action) := vs.flatMap fun v => v.rule.action.adds

/-- **Visits.** From a history on, each node is handled by the best rule
for it, and what that rule adds counts from the next node on. The end is,
at the latest, a node that no rule is for. -/
inductive Visits : List (Rule Action) → List Visit → Option Node → Prop
  | done (h : List (Rule Action)) : Visits h [] none
  | missing {h : List (Rule Action)} {n : Node} (hn : best n h = none) : Visits h [] (some n)
  | next {h : List (Rule Action)} {v : Visit} {vs : List Visit} {missed : Option Node}
      (hv : best v.node h = some v.rule) (hvs : Visits (h ++ v.rule.action.adds) vs missed) :
      Visits h (v :: vs) missed

variable {γ δ : Type} {h : List (Rule Action)} {vs ws : List Visit} {missed : Option Node}

@[simp] theorem added_nil : added [] = [] := rfl

@[simp] theorem added_cons (v : Visit) (vs : List Visit) :
    added (v :: vs) = v.rule.action.adds ++ added vs := List.flatMap_cons

@[simp] theorem added_append (vs ws : List Visit) : added (vs ++ ws) = added vs ++ added ws :=
  List.flatMap_append

namespace Visits

/-- Visits go on where others ended. -/
theorem append (hvs : Visits h vs none) (hws : Visits (h ++ added vs) ws missed) :
    Visits h (vs ++ ws) missed := by
  generalize hend : (none : Option Node) = m at hvs
  induction hvs with
  | done h => simpa using hws
  | missing _ => cases hend
  | next hv _ ih =>
    refine .next hv (ih ?_ hend)
    rwa [added_cons, ← List.append_assoc] at hws

end Visits

/-! ## Work -/

/-- What work does to a state with a history, if it comes to some visits:
their rules are added, their choices reported and their lines recorded,
and it fails if and only if the last node has no rule. -/
structure Leads (s : State) (h : List (Rule Action)) (vs : List Visit) (missed : Option Node)
    (out : Except Kind γ × State) : Prop where
  visits : Visits h vs missed
  reached : RuleSet.Reached out.2.rules (h ++ added vs)
  choices : out.2.choices = s.choices ++ vs.map Visit.note
  log : ∃ lines, out.2.log = s.log ++ lines ∧ (vs.filterMap Visit.line?).Sublist lines
  error_iff (k : Kind) : out.1 = .error k ↔ missed.map Node.kind = some k

/-- Work that comes to a sequence of visits, whatever state it starts on. -/
def Tracked (w : Work γ) : Prop :=
  ∀ s h, RuleSet.Reached s.rules h → ∃ vs missed, Leads s h vs missed (w.run.run s)

/-- Visits from one state on, and then from the one they lead to. -/
theorem Leads.trans {s s' : State} {a : γ} {out : Except Kind δ × State}
    (hvs : Leads s h vs none ((.ok a : Except Kind γ), s'))
    (hws : Leads s' (h ++ added vs) ws missed out) : Leads s h (vs ++ ws) missed out where
  visits := hvs.visits.append hws.visits
  reached := by
    rw [added_append, ← List.append_assoc]
    exact hws.reached
  choices := by
    rw [hws.choices, hvs.choices, List.map_append, List.append_assoc]
  log := by
    obtain ⟨lines, hs', hlines⟩ := hvs.log
    obtain ⟨lines', hout, hlines'⟩ := hws.log
    refine ⟨lines ++ lines', ?_, ?_⟩
    · rw [hout, hs', List.append_assoc]
    · rw [List.filterMap_append]
      exact hlines.append hlines'
  error_iff := hws.error_iff

namespace Tracked

/-- Work without visits: it changes nothing but what is recorded. -/
theorem silent {w : Work γ} {a : γ} (lines : List Text)
    (hw : ∀ s, w.run.run s = (.ok a, { s with log := s.log ++ lines })) : Tracked w := by
  intro s h hs
  refine ⟨[], none, ?_⟩
  rw [hw]
  exact ⟨.done h, by simpa using hs, by simp, ⟨lines, rfl, List.nil_sublist _⟩, by simp⟩

theorem pure (a : γ) : Tracked (Pure.pure a : Work γ) :=
  silent [] fun s => by rw [List.append_nil]; rfl

theorem record (line : Text) : Tracked (record line) := silent [line] fun _ => rfl

theorem bind {w : Work γ} {next : γ → Work δ} (hw : Tracked w)
    (hnext : ∀ a, Tracked (next a)) : Tracked (w >>= next) := by
  intro s h hs
  obtain ⟨vs, missed, hvs⟩ := hw s h hs
  rw [run_bind]
  rcases hrun : w.run.run s with ⟨k | a, s'⟩ <;> rw [hrun] at hvs
  · have herror : ∀ k',
        (.error k : Except Kind δ) = .error k' ↔ missed.map Node.kind = some k' := by
      intro k'
      rw [← hvs.error_iff k']
      simp
    exact ⟨vs, missed, hvs.visits, hvs.reached, hvs.choices, hvs.log, herror⟩
  · -- the first work did not fail, so its visits did not end early
    obtain rfl : missed = none := by
      cases missed with
      | none => rfl
      | some n => exact absurd ((hvs.error_iff n.kind).2 rfl) (by simp)
    obtain ⟨ws, missed, hws⟩ := hnext a s' _ hvs.reached
    exact ⟨vs ++ ws, missed, hvs.trans hws⟩

theorem forM {f : γ → Work Unit} (l : List γ) (hf : ∀ a ∈ l, Tracked (f a)) :
    Tracked (l.forM f) := by
  induction l with
  | nil => exact pure _
  | cons a l ih =>
    exact bind (hf a List.mem_cons_self) fun _ => ih fun b hb => hf b (List.mem_cons_of_mem _ hb)

theorem foldlM {f : δ → γ → Work δ} (l : List γ) (hf : ∀ b, ∀ a ∈ l, Tracked (f b a)) (b : δ) :
    Tracked (l.foldlM f b) := by
  induction l generalizing b with
  | nil => exact pure _
  | cons a l ih =>
    rw [List.foldlM_cons]
    exact bind (hf b a List.mem_cons_self) fun b' =>
      ih (fun c d hd => hf c d (List.mem_cons_of_mem _ hd)) b'

variable {fields : Fields (Job Work Int)}

theorem walk (hfields : ∀ j ∈ Fields.nodes fields, Tracked j.run) : Tracked (Job.walk fields) :=
  forM _ fun j hj => bind (hfields j hj) fun _ => pure _

theorem below (course : Course) (hfields : ∀ j ∈ Fields.nodes fields, Tracked j.run) :
    Tracked (below course fields) := by
  cases course with
  | stop => exact pure _
  | walk => exact bind (walk hfields) fun _ => pure _
  | child name =>
    simp only [Survey.below]
    split
    · rename_i j hj
      exact hfields j (Fields.mem_nodes_of_child? hj)
    · exact pure _
  | sum => exact foldlM _ (fun _ j hj => bind (hfields j hj) fun _ => pure _) _

end Tracked

/-! ## Handling a node -/

/-- The state in which an action goes below its node: its rule was
reported, its line recorded, and its rules were added. -/
def State.begin (s : State) (v : Visit) : State :=
  ⟨s.rules.addAll v.rule.action.adds, s.log ++ v.line?.toList, s.choices ++ [v.note]⟩

/-- What is left to do for an action then. -/
def Action.rest (fields : Fields (Job Work Int)) : Action → Work Int
  | .passThrough => do
    Job.walk fields
    pure 0
  | .follow s => do
    let rest ← below s.course fields
    record (ascii "end " ++ s.name)
    pure (s.contribution + rest)

theorem reached_adds {rules : RuleSet Action} (hrules : RuleSet.Reached rules h)
    (action : Action) : RuleSet.Reached (rules.addAll action.adds) (h ++ action.adds) := by
  refine hrules.addAll fun r hr => ?_
  cases action with
  | passThrough => cases hr
  | follow s =>
    obtain ⟨spec, -, rfl⟩ := List.mem_map.1 hr
    rfl

/-- An action adds its rules before anything below its node is handled. -/
theorem run_act (action : Action) (n : Node) (fields : Fields (Job Work Int)) (s : State) :
    (act action n fields).run.run s = (action.rest fields).run.run
      ⟨s.rules.addAll action.adds, s.log ++ (action.line? n).toList, s.choices⟩ := by
  cases action with
  | passThrough =>
    rw [Action.line?, Option.toList_none, List.append_nil]
    rfl
  | follow spec => rfl

theorem Tracked.rest (hfields : ∀ j ∈ Fields.nodes fields, Tracked j.run) (action : Action) :
    Tracked (action.rest fields) := by
  cases action with
  | passThrough => exact bind (walk hfields) fun _ => pure _
  | follow s => exact bind (below s.course hfields) fun _ => bind (record _) fun _ => pure _

theorem run_dispatch_of_resolve {n : Node} {q : RankedRule Action} {s : State}
    (hq : s.rules.resolve n = some q) :
    (dispatcher.dispatch n fields).run.run s =
      (q.action.rest fields).run.run (s.begin ⟨n, q.toRule⟩) := by
  rw [Dispatcher.run_dispatch_of_view dispatcher State.rules rfl, hq]
  exact run_act q.action n fields _

theorem run_dispatch_of_resolve_eq_none {n : Node} {s : State} (hn : s.rules.resolve n = none) :
    (dispatcher.dispatch n fields).run.run s = (.error n.kind, s) := by
  rw [Dispatcher.run_dispatch_of_view dispatcher State.rules rfl, hn]
  rfl

/-- **Handling a node** is a visit to it, if there is a rule, and then the
visits below it. -/
theorem leads_dispatch (n : Node) (hfields : ∀ j ∈ Fields.nodes fields, Tracked j.run)
    {s : State} (hs : RuleSet.Reached s.rules h) :
    ∃ vs missed, Leads s h vs missed ((dispatcher.dispatch n fields).run.run s) ∧
      (vs.map Visit.node ++ missed.toList).head? = some n := by
  have hbest := hs.holds.resolve_toRule n
  cases hq : s.rules.resolve n with
  | none =>
    rw [hq, Option.map_none] at hbest
    have hreached : RuleSet.Reached s.rules (h ++ added []) := by
      rw [added_nil, List.append_nil]
      exact hs
    refine ⟨[], some n, ?_, rfl⟩
    rw [run_dispatch_of_resolve_eq_none hq]
    exact ⟨.missing hbest.symm, hreached, by simp, ⟨[], by simp, .slnil⟩, by simp⟩
  | some q =>
    rw [hq, Option.map_some] at hbest
    let v : Visit := ⟨n, q.toRule⟩
    have hbegin : RuleSet.Reached (s.begin v).rules (h ++ q.action.adds) :=
      reached_adds hs q.action
    obtain ⟨vs, missed, hvs⟩ := Tracked.rest hfields q.action _ _ hbegin
    refine ⟨v :: vs, missed, ?_, rfl⟩
    rw [run_dispatch_of_resolve hq]
    refine ⟨.next hbest.symm hvs.visits, ?_, ?_, ?_, hvs.error_iff⟩
    · rw [added_cons, ← List.append_assoc]
      exact hvs.reached
    · rw [hvs.choices, List.map_cons]
      exact List.append_assoc _ _ _
    · obtain ⟨lines, hout, hlines⟩ := hvs.log
      refine ⟨v.line?.toList ++ lines, ?_, ?_⟩
      · rw [hout]
        exact List.append_assoc _ _ _
      · rw [List.filterMap_cons]
        cases v.line? with
        | none => exact hlines
        | some line => exact hlines.cons_cons line

/-- **Every job is a sequence of visits**, the first of them to its node. -/
theorem leads_job (n : Node) {s : State} (hs : RuleSet.Reached s.rules h) :
    ∃ vs missed, Leads s h vs missed ((dispatcher.job n).run.run.run s) ∧
      (vs.map Visit.node ++ missed.toList).head? = some n := by
  induction n using Node.induction generalizing s h with
  | step n ih =>
    rw [Dispatcher.run_job]
    refine leads_dispatch n (fun j hj => ?_) hs
    rw [Fields.nodes_map] at hj
    obtain ⟨m, hm, rfl⟩ := List.mem_map.1 hj
    intro s' h' hs'
    obtain ⟨vs, missed, hvs, -⟩ := ih m hm hs'
    exact ⟨vs, missed, hvs⟩

/-- What a survey of a tree comes to, as a sequence of visits that begins
at the root. -/
structure Account (survey : Survey) (h : List (Rule Action)) (n : Node) (vs : List Visit)
    (missed : Option Node) : Prop where
  visits : Visits h vs missed
  head : (vs.map Visit.node ++ missed.toList).head? = some n
  /-- No rule is lost, and the rules added on the way are kept. -/
  reached : RuleSet.Reached (survey.survey n).2.rules (h ++ added vs)
  report : (survey.survey n).1.report = if survey.traced then (vs.map Visit.note).flatten else []
  /-- Every action that begins is that of the rule its node was resolved to. -/
  log : (vs.filterMap Visit.line?).Sublist (survey.survey n).1.log
  error_iff (k : Kind) : (survey.survey n).1.total = .error k ↔ missed.map Node.kind = some k

/-- **A survey is accounted for by its visits.** -/
theorem exists_account {survey : Survey} (hrules : RuleSet.Reached survey.rules h) (n : Node) :
    ∃ vs missed, survey.Account h n vs missed := by
  have hstart : RuleSet.Reached (⟨survey.rules, [], []⟩ : State).rules h := hrules
  obtain ⟨vs, missed, hvs, hhead⟩ := leads_job n hstart
  refine ⟨vs, missed, hvs.visits, hhead, hvs.reached, ?_, ?_, hvs.error_iff⟩
  · have hchoices := hvs.choices
    rw [List.nil_append] at hchoices
    rw [← hchoices]
    rfl
  · obtain ⟨lines, hlog, hlines⟩ := hvs.log
    rw [List.nil_append] at hlog
    rw [← hlog] at hlines
    exact hlines

end Survey

/-! ## Every history -/

/-- What a rule set does, in terms of its history. -/
structure RuleSet.Resolves {α : Type} (rules : RuleSet α) (h : List (Rule α)) : Prop where
  history : rules.history = h
  count : rules.count = h.length
  /-- Every rule is there, under the number of its place in the history. -/
  perm : rules.ranked.Perm (numbered h)
  nodup : (rules.ranked.map RankedRule.number).Nodup
  /-- In a bucket, more constraints come first, and then later rules. -/
  sorted (kind : Option Kind) : (rules.bucket kind).Pairwise fun p q =>
    q.constraints.length < p.constraints.length ∨
      q.constraints.length = p.constraints.length ∧ q.number < p.number
  buckets (n : Node) : rules.resolve n = ((rules.bucket (some n.kind)).find? (·.applies n)).or
    ((rules.bucket none).find? (·.applies n))
  resolve_some (n : Node) (q : RankedRule α) :
    rules.resolve n = some q ↔ IsBest (numbered h) n q
  resolve_none (n : Node) : rules.resolve n = none ↔ ∀ r ∈ h, ¬ r.applies n = true
  rule (n : Node) : (rules.resolve n).map RankedRule.toRule = best n h

theorem RuleSet.Holds.resolves {α : Type} {rules : RuleSet α} {h : List (Rule α)}
    (hrules : rules.Holds h) : rules.Resolves h where
  history := hrules.history_eq
  count := hrules.count_eq
  perm := hrules.perm
  nodup := by
    have hnumbers : ((numbered h).map RankedRule.number).Nodup :=
      List.pairwise_map.2 ((pairwise_numbered h).imp ne_of_lt)
    exact (hrules.perm.map _).nodup_iff.2 hnumbers
  sorted := hrules.bucket_sorted
  buckets := hrules.resolve_eq_buckets
  resolve_some _ _ := hrules.resolve_eq_some_iff
  resolve_none _ := hrules.resolve_eq_none_iff
  rule := hrules.resolve_toRule

/-- **Rule resolution over every history.** A rule set that was reached
resolves every node to the best rule of its history; a survey handles
every node by the best rule of the history by then, and keeps all rules it
adds; and whatever an action does to the rules, it is the one that they
gave when its node was to be handled. -/
theorem resolution_over_every_history :
    (∀ (α : Type) (rules : RuleSet α) (h : List (Rule α)),
      RuleSet.Reached rules h → rules.Resolves h) ∧
    (∀ (survey : Survey) (h : List (Rule Survey.Action)), RuleSet.Reached survey.rules h →
      ∀ n, ∃ vs missed, survey.Account h n vs missed) ∧
    ∀ (ε σ α β : Type) (d : Dispatcher (ExceptT ε (StateM σ)) α β) (view : σ → RuleSet α),
      d.rules = (do return view (← get)) → ∀ n s, (d.job n).run.run.run s =
        match (view s).resolve n with
        | none => (d.missing n).run.run s
        | some q => (do
            d.chosen n q
            d.act q.action n (Fields.map d.job n.fields)).run.run s := by
  refine ⟨fun α rules h hrules => hrules.holds.resolves,
    fun survey h hrules n => Survey.exists_account hrules n, ?_⟩
  intro ε σ α β d view hrules n s
  rw [Dispatcher.run_job]
  exact d.run_dispatch_of_view view hrules n _ s

/-- A rule for coordinates that adds another one. -/
private def learner : Survey.Spec :=
  ⟨some .coordinate, ascii "first", [], 1, .sum,
    [⟨some .coordinate, ascii "second", [], 1, .stop, []⟩]⟩

/-- A survey with that rule, which took over its own rules. -/
private def learning : Survey := ((Survey.new true).add learner).extendAll [none]

/-- A coordinate in a coordinate: the rule that is added for the outer one
handles the inner one. -/
theorem resolution_while_learning :
    let h := [.passing .passThrough, learner.rule, learner.rule]
    let nested : Node :=
      ⟨.coordinate, [⟨ascii "x", .child (some ⟨.coordinate, [], .unknown⟩)⟩], .unknown⟩
    RuleSet.Reached learning.rules h ∧ learning.rules.Resolves h ∧
      (∃ vs missed, learning.Account h nested vs missed) ∧
      (Survey.dispatcher.job nested).run.run.run ⟨learning.rules, [], []⟩ =
        (Survey.act (.follow learner) nested
          (Fields.map Survey.dispatcher.job nested.fields)).run.run
            ⟨learning.rules, [], [choiceNote .coordinate (ascii "first")]⟩ ∧
      (learning.survey nested).1.log = [ascii "first@coordinate", ascii "second@coordinate",
        ascii "end second", ascii "end first"] := by
  intro h nested
  obtain ⟨hresolves, haccount, hrun⟩ := resolution_over_every_history
  have hreached : RuleSet.Reached learning.rules h :=
    .extendAll [none] (.add (.passing _) rfl) (by simp)
  refine ⟨hreached, hresolves _ _ _ hreached, haccount _ _ hreached nested, ?_, by decide⟩
  rw [hrun _ _ _ _ Survey.dispatcher Survey.State.rules rfl]
  rfl

end ScriptSplice
