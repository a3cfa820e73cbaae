import ScriptSplice.Proofs.Visitor.Standard
/-!
# Handlers that do not count rules

A rule set that took over its own rules makes the same choices, but it has
more rules, with other numbers. A handler that looks at those can tell.
`Blind` holds of the work that does not: it may do whatever it likes with
the draft, fail and go on after failures, have any node handled, ask which
rule is in force for a node, add rules, take over those of others, and work
with a copy of the visitor.

Visitors whose rules make the same choices (`RuleSet.Alike`) stay in step
through blind work (`Blind.inStep`). By induction on the depth they do so
through the handling of any node, if the added handlers are blind
(`inStep_invoke`): the same is written, the same nodes are handled by the
same rules, and what the handlers add to the rules makes the same
difference to either. So they compile all trees alike (`compileAll_alike`).
-/

namespace ScriptSplice

namespace RuleSet

variable {α : Type} {rules rules' : RuleSet α}

/-- **Rule sets are alike** if the rules added to them make the same
choices. -/
def Alike (rules rules' : RuleSet α) : Prop :=
  ∃ h h', Reached rules h ∧ Reached rules' h' ∧ ∀ n, best n h' = best n h

namespace Alike

theorem choice (h : Alike rules rules') (n : Node) :
    (rules'.resolve n).map RankedRule.toRule = (rules.resolve n).map RankedRule.toRule := by
  obtain ⟨k, k', hk, hk', hbest⟩ := h
  rw [hk'.holds.resolve_toRule, hk.holds.resolve_toRule, hbest]

theorem add (h : Alike rules rules') {r : Rule α} (hr : r.builtin = false) :
    Alike (rules.add r) (rules'.add r) := by
  obtain ⟨k, k', hk, hk', hbest⟩ := h
  exact ⟨_, _, hk.add hr, hk'.add hr, fun n => by rw [best_append, best_append, hbest]⟩

/-- Histories that make the same choices still do so when they take over
others, or themselves. -/
theorem best_takeOver {k k' : List (Rule α)} (hk : Founded k) (hk' : Founded k')
    (hbest : ∀ n, best n k' = best n k) (others : List (Option (List (Rule α)))) (n : Node) :
    best n (takeOver k' others) = best n (takeOver k others) := by
  induction others generalizing k k' with
  | nil => exact hbest n
  | cons other others ih =>
    refine ih (hk.append _) (hk'.append _) fun n => ?_
    cases other with
    | none =>
      calc best n (k' ++ passedOn k')
        _ = best n k' := hk'.best_append_passedOn n
        _ = best n k := hbest n
        _ = best n (k ++ passedOn k) := (hk.best_append_passedOn n).symm
    | some l =>
      rw [best_append, best_append, hbest]
      rfl

theorem extendAll (h : Alike rules rules') (others : List (Option (RuleSet α × List (Rule α))))
    (hothers : ∀ other k, some (other, k) ∈ others → Reached other k) :
    Alike (rules.extendAll (others.map (·.map Prod.fst)))
      (rules'.extendAll (others.map (·.map Prod.fst))) := by
  obtain ⟨k, k', hk, hk', hbest⟩ := h
  exact ⟨_, _, hk.extendAll others hothers, hk'.extendAll others hothers,
    best_takeOver hk.founded hk'.founded hbest _⟩

/-- **A rule set that took over its own rules** is alike. -/
theorem iterate_extend_self {h : List (Rule α)} (hrules : Reached rules h) (m : ℕ) :
    Alike rules ((fun rules => rules.extend rules)^[m] rules) := by
  obtain ⟨k, hk, hbest⟩ := hrules.iterate_extend_self m
  exact ⟨h, k, hrules, hk, hbest⟩

end Alike

end RuleSet

namespace Visitor

open Compile

variable {α β γ : Type}

/-! ## Blind work -/

/-- **Blind work**, built without a look at how many rules there are or at
their numbers, given how nodes are handled. -/
inductive Blind (handle : Node → Work α Result) : {β : Type} → Work α β → Prop
  | pure {β : Type} (b : β) : Blind handle (Pure.pure b)
  | throw {β : Type} (e : Failure) : Blind handle (MonadExcept.throw e : Work α β)
  | bind {β γ : Type} {act : Work α β} {next : β → Work α γ} (hact : Blind handle act)
      (hnext : ∀ b, Blind handle (next b)) : Blind handle (act >>= next)
  /-- Goes on after a failure. -/
  | tryCatch {β : Type} {act : Work α β} {rescue : Failure → Work α β}
      (hact : Blind handle act) (hrescue : ∀ e, Blind handle (rescue e)) :
      Blind handle (MonadExcept.tryCatch act rescue)
  /-- Whatever can be done with the draft. -/
  | draft {β : Type} (act : Drafting β) : Blind handle (liftM act)
  | block {β : Type} {act : Work α β} (hact : Blind handle act) : Blind handle (inBlock act)
  /-- Has any node handled. -/
  | handle (n : Node) : Blind handle (handle n)
  | choice (n : Node) : Blind handle (choice n)
  | add {r : Rule (Action α)} (hr : r.builtin = false) : Blind handle (add r)
  | extendAll (others : List (Option (RuleSet (Action α) × List (Rule (Action α)))))
      (hothers : ∀ other k, some (other, k) ∈ others → RuleSet.Reached other k) :
      Blind handle (extendAll (others.map (·.map Prod.fst)))
  | aside {β : Type} {act : Work α β} (hact : Blind handle act) : Blind handle (aside act)

/-- A handler does not count rules. -/
def Handler.Blind (h : Handler α) : Prop := ∀ handle n, Visitor.Blind handle (h handle n)

/-! ## In step -/

/-- The same is written, and the rules are alike. -/
structure State.Alike (s s' : State α) : Prop where
  draft : s'.draft = s.draft
  rules : s.rules.Alike s'.rules

/-- The same outcome, and alike states. -/
structure SameOutcome (p p' : Except Failure β × State α) : Prop where
  outcome : p'.1 = p.1
  state : p.2.Alike p'.2

/-- What goes on from related results in a related way stays related. -/
private theorem rel_bind {γ γ' δ δ' : Type} {R : γ → γ' → Prop} {S : δ → δ' → Prop}
    {o : Option γ} {o' : Option γ'} {next : γ → Option δ} {next' : γ' → Option δ'}
    (h : Option.Rel R o o') (hnext : ∀ p p', R p p' → Option.Rel S (next p) (next' p')) :
    Option.Rel S (o.bind next) (o'.bind next') := by
  cases h with
  | none => exact .none
  | some h => exact hnext _ _ h

private theorem map_fst_eq {γ δ : Type} {o o' : Option (γ × δ)}
    (h : Option.Rel (fun p p' => p'.1 = p.1) o o') : o'.map Prod.fst = o.map Prod.fst := by
  cases h with
  | none => rfl
  | some h => exact congrArg some h

/-- **Work keeps alike states in step**: it is done on both or on neither,
with the same outcome, and they are alike afterwards. -/
def InStep (act : Work α β) : Prop :=
  ∀ s s', State.Alike s s' → Option.Rel SameOutcome (follow act s) (follow act s')

namespace InStep

theorem pure (b : β) : InStep (Pure.pure b : Work α β) := fun _ _ h => .some ⟨rfl, h⟩

theorem throw (e : Failure) : InStep (MonadExcept.throw e : Work α β) :=
  fun _ _ h => .some ⟨rfl, h⟩

theorem bind {act : Work α β} {next : β → Work α γ} (h : InStep act)
    (hnext : ∀ b, InStep (next b)) : InStep (act >>= next) := by
  intro s s' hs
  rw [follow_bind, follow_bind]
  refine rel_bind (h s s' hs) fun p p' hp => ?_
  rw [hp.outcome]
  cases p.1 with
  | error e => exact .some ⟨rfl, hp.state⟩
  | ok b => exact hnext b _ _ hp.state

theorem tryCatch {act : Work α β} {rescue : Failure → Work α β} (h : InStep act)
    (hrescue : ∀ e, InStep (rescue e)) : InStep (MonadExcept.tryCatch act rescue) := by
  intro s s' hs
  rw [follow_tryCatch, follow_tryCatch]
  refine rel_bind (h s s' hs) fun p p' hp => ?_
  rw [hp.outcome]
  cases p.1 with
  | error e => exact hrescue e _ _ hp.state
  | ok b => exact .some ⟨rfl, hp.state⟩

theorem lift (act : Drafting β) : InStep (liftM act : Work α β) := by
  intro s s' hs
  rw [follow_lift, follow_lift, hs.draft]
  exact .some ⟨rfl, rfl, hs.rules⟩

theorem inBlock {act : Work α β} (h : InStep act) : InStep (inBlock act) := by
  intro s s' hs
  rw [follow_inBlock, follow_inBlock, Option.map_eq_bind, Option.map_eq_bind, hs.draft]
  refine rel_bind (h _ _ ⟨rfl, hs.rules⟩) fun p p' hp => .some ⟨hp.outcome, ?_, hp.state.rules⟩
  exact congrArg (fun d => { d with depth := s.draft.depth }) hp.state.draft

/-- What is done with a copy of the visitor is forgotten. -/
theorem aside {act : Work α β} (h : InStep act) : InStep (aside act) := by
  intro s s' hs
  rw [follow_aside, follow_aside, Option.map_eq_bind, Option.map_eq_bind]
  exact rel_bind (h s s' hs) fun p p' hp => .some ⟨hp.outcome, hp.state.draft, hs.rules⟩

/-- The same choice is made, whatever the numbers of the rules. -/
theorem choice (n : Node) : InStep (choice n : Work α _) := by
  intro s s' hs
  rw [follow_choice, follow_choice, hs.rules.choice]
  exact .some ⟨rfl, hs⟩

theorem add {r : Rule (Action α)} (hr : r.builtin = false) : InStep (add r) :=
  fun _ _ hs => .some ⟨rfl, hs.draft, hs.rules.add hr⟩

theorem extendAll (others : List (Option (RuleSet (Action α) × List (Rule (Action α)))))
    (hothers : ∀ other k, some (other, k) ∈ others → RuleSet.Reached other k) :
    InStep (extendAll (others.map (·.map Prod.fst))) :=
  fun _ _ hs => .some ⟨rfl, hs.draft, hs.rules.extendAll others hothers⟩

/-- **Whatever is built** from work in step and from work on drafts is in
step. -/
theorem congruence : Congruence (Work α) (Work α) fun {_} act _ => InStep act where
  lawful := inferInstance
  lawful' := inferInstance
  lawful_lift := inferInstance
  lawful_lift' := inferInstance
  pure := pure
  throw := throw
  bind := bind
  throw_bind e _ _ := throw e
  inBlock := inBlock
  emit _ := lift _
  ref _ := lift _
  use _ := lift _
  note _ := lift _
  splice collection _ _ _ h := splice_of_lift pure bind lift collection h

end InStep

/-- **Blind work is in step** if handling nodes is. -/
theorem Blind.inStep {handle : Node → Work α Result} (hhandle : ∀ n, InStep (handle n))
    {act : Work α β} (h : Blind handle act) : InStep act := by
  induction h with
  | pure b => exact .pure b
  | throw e => exact .throw e
  | bind _ _ ih ihnext => exact ih.bind ihnext
  | tryCatch _ _ ih ihrescue => exact ih.tryCatch ihrescue
  | draft act => exact .lift act
  | block _ ih => exact ih.inBlock
  | handle n => exact hhandle n
  | choice n => exact .choice n
  | add hr => exact .add hr
  | extendAll others hothers => exact .extendAll others hothers
  | aside _ ih => exact ih.aside

/-! ## Handling nodes -/

variable {handlers : α → Handler α} (hblind : ∀ a, (handlers a).Blind) (parsers : Parsers)

include hblind

/-- One level keeps in step if the level below does. -/
theorem inStep_invoke_succ {depth : Nat} (ih : ∀ n, InStep (invoke handlers parsers depth n))
    (n : Node) : InStep (invoke handlers parsers (depth + 1) n) := by
  intro s s' hs
  rw [follow_invoke, follow_invoke]
  rcases RuleSet.resolve_cases (hs.rules.choice n) with ⟨hnone, hnone'⟩ | ⟨r, r', hr, hr', heq⟩
  · rw [hnone, hnone']
    exact .some ⟨rfl, hs⟩
  · -- the chosen rules may have different numbers, but a handler is not given them
    rw [hr, hr']
    simp only [heq, hs.draft]
    have hact : InStep ((dispatcher handlers parsers (invoke handlers parsers depth)).act r.action n
        (Fields.map (Job.of (invoke handlers parsers depth)) n.fields)) := by
      cases r.action with
      | standard i =>
        simp only [dispatcher, standardHandler_eq]
        exact (Form.standard.get ⟨i, i.isLt⟩).linked InStep.congruence parsers n _
          (invoke handlers parsers depth) fun k _ => ih k
      | added a => exact (hblind a _ n).inStep ih
    exact hact _ _ ⟨rfl, hs.rules⟩

/-- **Having any node handled keeps in step**, at every depth. -/
theorem inStep_invoke (depth : Nat) (n : Node) : InStep (invoke handlers parsers depth n) := by
  induction depth generalizing n with
  | zero => exact fun _ _ _ => .none
  | succ depth ih => exact inStep_invoke_succ hblind parsers ih n

/-! ## Compiling -/

omit hblind in
/-- Making a program of a tree keeps in step. -/
theorem inStep_finish (t : Node) (r : Result) : InStep (finish t r : Work α _) := by
  match r with
  | none => exact .bind (.lift _) fun _ => .bind (.lift _) fun _ => .pure _
  | some [] => exact .throw _
  | some [e] =>
    exact .bind (.lift _) fun _ => .bind (.lift _) fun _ => .bind (.lift _) fun _ =>
      .bind (.lift _) fun _ => .pure _
  | some (_ :: _ :: _) => exact .throw _

variable {c : Compiler (Action α)} {rules : RuleSet (Action α)}

/-- **A compiler with rules that are alike** compiles a tree to the same
outcome, and its rules are alike afterwards. -/
theorem compile_alike (hrules : c.rules.Alike rules) (depth : Nat) (t : Node) :
    Option.Rel (fun p p' => p'.1 = p.1 ∧
        ∃ rules, p'.2 = { p.2 with rules } ∧ p.2.rules.Alike rules)
      (compile handlers depth c t) (compile handlers depth { c with rules } t) := by
  rw [compile_eq, compile_eq, Option.map_eq_bind, Option.map_eq_bind]
  refine rel_bind ((inStep_invoke hblind c.parsers depth t).bind (inStep_finish t)
    ⟨.empty, c.rules⟩ ⟨.empty, rules⟩ ⟨rfl, hrules⟩) fun p p' hp => ?_
  refine .some ⟨?_, _, rfl, hp.state.rules⟩
  simp only [hp.outcome, hp.state.draft]
  rfl

/-- **And all trees**, one after another. -/
theorem compileAll_alike (hrules : c.rules.Alike rules) (depth : Nat) (ts : List Node) :
    (compileAll handlers depth { c with rules } ts).map Prod.fst =
      (compileAll handlers depth c ts).map Prod.fst := by
  refine map_fst_eq ?_
  induction ts generalizing c rules with
  | nil => exact .some rfl
  | cons t ts ih =>
    refine rel_bind (compile_alike hblind hrules depth t) ?_
    rintro ⟨outcome, c⟩ ⟨outcome', c'⟩ ⟨houtcome, rules, hc, hrules⟩
    obtain rfl : outcome' = outcome := houtcome
    obtain rfl : c' = { c with rules } := hc
    refine rel_bind (ih hrules) ?_
    rintro ⟨outcomes, after⟩ ⟨outcomes', after'⟩ houtcomes
    exact .some (congrArg (outcome' :: ·) houtcomes)

end Visitor

end ScriptSplice
