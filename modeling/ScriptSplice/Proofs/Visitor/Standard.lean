import ScriptSplice.Proofs.Dispatch.Composition
import ScriptSplice.Proofs.Rules.Keeping
import ScriptSplice.Visitor
/-!
# Standard rules on a visitor

The standard handlers take no notice of the visitor. Where they are chosen
for every node of a tree, compiling the tree on a visitor, deep enough, is
compiling it with the standard rules alone (`Visitor.compile_of_standard`),
whatever other rules there are and whatever their handlers can do: the
outcome is the same, and the rules stay.
-/

namespace ScriptSplice

namespace Visitor

open Compile

variable {α β γ : Type}

instance : LawfulMonadLift Drafting (StateT (State α) Option) where
  monadLift_pure _ := rfl
  monadLift_bind _ _ := rfl

/-! ## Following work -/

/-- What work comes to from a state on, if it is done at its depth. -/
def follow (act : Work α β) (s : State α) : Option (Except Failure β × State α) := act.run.run s

variable (s : State α)

theorem follow_bind (act : Work α β) (next : β → Work α γ) :
    follow (act >>= next) s = (follow act s).bind fun p =>
      match p.1 with
      | .ok b => follow (next b) p.2
      | .error e => some (.error e, p.2) := by
  simp only [follow, ExceptT.run_bind, StateT.run_bind]
  change (act.run.run s).bind _ = _
  congr 1
  funext p
  obtain ⟨_ | b, s⟩ := p <;> rfl

theorem follow_tryCatch (act : Work α β) (handle : Failure → Work α β) :
    follow (tryCatch act handle) s = (follow act s).bind fun p =>
      match p.1 with
      | .ok b => some (.ok b, p.2)
      | .error e => follow (handle e) p.2 := by
  simp only [follow, ExceptT.run_tryCatch, StateT.run_bind]
  change (act.run.run s).bind _ = _
  congr 1
  funext p
  obtain ⟨_ | b, s⟩ := p <;> rfl

@[simp] theorem follow_lift (act : Drafting β) :
    follow (liftM act) s = some (.ok (act s.draft).1, { s with draft := (act s.draft).2 }) := rfl

@[simp] theorem follow_inBlock (act : Work α β) :
    follow (inBlock act) s =
      (follow act { s with draft := { s.draft with depth := s.draft.depth + 1 } }).map fun p =>
        (p.1, { p.2 with draft := { p.2.draft with depth := s.draft.depth } }) := by
  have hbind : follow (inBlock act) s =
      (follow act { s with draft := { s.draft with depth := s.draft.depth + 1 } }).bind fun p =>
        some (p.1, { p.2 with draft := { p.2.draft with depth := s.draft.depth } }) := rfl
  rw [hbind, Option.map_eq_bind]
  rfl

@[simp] theorem follow_aside (act : Work α β) :
    follow (aside act) s = (follow act s).map fun p => (p.1, { p.2 with rules := s.rules }) := by
  rw [Option.map_eq_bind]
  rfl

@[simp] theorem follow_choice (n : Node) :
    follow (choice n) s = some (.ok ((s.rules.resolve n).map RankedRule.toRule), s) := rfl

/-! ## Mirrors -/

/-- **Work on a visitor mirrors an action on a draft** if it does the same to
the draft, and leaves the rules alone. -/
def Mirrors (rules : RuleSet (Action α)) (act : Work α β) (act' : Compile β) : Prop :=
  ∀ d, follow act ⟨d, rules⟩ = some ((exec act' d).1, ⟨(exec act' d).2, rules⟩)

theorem Mirrors.bind {rules : RuleSet (Action α)} {act : Work α β} {act' : Compile β}
    {next : β → Work α γ} {next' : β → Compile γ} (h : Mirrors rules act act')
    (hnext : ∀ b, Mirrors rules (next b) (next' b)) :
    Mirrors rules (act >>= next) (act' >>= next') := by
  intro d
  rw [follow_bind, h, exec_bind]
  rcases exec act' d with ⟨e | b, d'⟩
  · rfl
  · exact hnext b d'

/-- Whatever is built from work on drafts is mirrored. -/
theorem Mirrors.congruence (rules : RuleSet (Action α)) :
    Congruence (Work α) Compile fun {_} act act' => Mirrors rules act act' where
  lawful := inferInstance
  lawful' := inferInstance
  lawful_lift := inferInstance
  lawful_lift' := inferInstance
  pure _ _ := rfl
  throw _ _ := rfl
  bind := Mirrors.bind
  throw_bind _ _ _ _ := rfl
  inBlock h d := by rw [follow_inBlock, h, exec_inBlock, Option.map_some]
  emit _ _ := rfl
  ref _ _ := rfl
  use _ _ := rfl
  note _ _ := rfl
  splice collection _ _ _ h :=
    splice_of_lift (fun _ _ => rfl) Mirrors.bind (fun _ _ => rfl) collection h

/-! ## Standard rules -/

/-- What an action stands for when no rules were added. -/
def Action.plain : Action α → ScriptSplice.Handler
  | standard i => standardHandler Compile i
  | added _ => fun _ n _ => Compile.fail (.noRule n.kind)

/-- A rule, with what its action stands for. -/
def plainRule (r : Rule (Action α)) : Rule ScriptSplice.Handler :=
  { r with action := r.action.plain }

theorem map_plainRule_standardRules :
    (standardRules α).map plainRule = ScriptSplice.standardRules := by
  rw [standardRules, List.map_ofFn]
  exact List.ofFn_get _

/-- **The handler of a standard rule** is that of a form, in every monad. -/
theorem standardHandler_eq (m : Type → Type) [Monad m] [MonadExceptOf Failure m]
    [MonadLiftT Drafting m] [HasBlocks m] (i : Fin (ScriptSplice.standardRules Compile).length) :
    standardHandler m i = (Form.standard.get ⟨i, i.isLt⟩).handler := by
  have hget := List.get_of_eq (map_action_standardRules m) ⟨i, i.isLt⟩
  simpa only [standardHandler, List.get_eq_getElem, List.getElem_map] using hget

theorem reached_standard (o : Options) (parsers : Parsers) :
    RuleSet.Reached (standard α o parsers).rules (standardRules α) := by
  have hbuiltin : (ScriptSplice.standardRules Compile).all (fun r => !r.builtin) = true := by decide
  refine RuleSet.Reached.empty.addAll fun r hr => ?_
  obtain ⟨i, rfl⟩ := (List.mem_ofFn' _ _).1 hr
  simpa using List.all_eq_true.1 hbuiltin _ (List.get_mem _ i)

/-! ## Compiling with standard rules -/

variable (handlers : α → Handler α) (parsers : Parsers)

/-- **The equation of handling a node.** The choice is recorded, and the
handler runs one level deeper. -/
theorem follow_invoke (depth : Nat) (n : Node) :
    follow (invoke handlers parsers (depth + 1) n) s =
      match s.rules.resolve n with
      | none => some (.error ⟨.noRule n.kind, .unknown⟩, s)
      | some r =>
        follow ((dispatcher handlers parsers (invoke handlers parsers depth)).act r.action n
          (Fields.map (Job.of (invoke handlers parsers depth)) n.fields))
          { s with draft := (Drafting.note (.chosen n.kind r.name) s.draft).2 } := by
  have hrules : follow (dispatcher handlers parsers (invoke handlers parsers depth)).rules s =
      some (.ok s.rules, s) := rfl
  rw [invoke, Dispatcher.dispatch, follow_bind, hrules, Option.bind_some]
  cases hr : s.rules.resolve n with
  | none =>
    simp only [hr]
    rfl
  | some r =>
    simp only [hr, follow_bind]
    rfl

/-- The rules make the choice of the standard ones for every node of a
tree. -/
def ChoosesStandard (rules : RuleSet (Action α)) (t : Node) : Prop :=
  ∀ n ∈ t.subtree, (rules.resolve n).map RankedRule.toRule = best n (standardRules α)

/-- A chosen standard rule names its handler by its place. -/
theorem action_of_best {n : Node} {r : Rule (Action α)} (hr : best n (standardRules α) = some r) :
    ∃ i, r.action = .standard i := by
  have hresolve := (reached_standard (α := α) .standard []).holds.resolve_toRule n
  rw [hr, Option.map_eq_some_iff] at hresolve
  obtain ⟨q, hq, rfl⟩ := hresolve
  have hmem := (RuleSet.mem_addAll (RuleSet.mem_of_resolve hq)).resolve_left List.not_mem_nil
  obtain ⟨i, hi⟩ := (List.mem_ofFn' _ _).1 hmem
  exact ⟨i, by rw [← hi]⟩

/-- What the standard rules choose is what a compiler with nothing added
chooses. -/
theorem resolve_builtin (o : Options) (n : Node) :
    ((Compiler.builtin o parsers).rules.resolve n).map RankedRule.toRule =
      (best n (standardRules α)).map plainRule := by
  rw [(Compiler.reached_builtin o parsers).holds.resolve_toRule,
    ← @map_plainRule_standardRules α]
  exact best_map plainRule (fun _ => rfl) (fun _ => rfl) _

variable {rules : RuleSet (Action α)}

/-- **Where the standard rules make the choice**, so they do for a compiler
with nothing added, and what they do has a place among them. -/
theorem ChoosesStandard.resolve_cases {n : Node} (h : ChoosesStandard rules n) (o : Options) :
    (rules.resolve n = none ∧ (Compiler.builtin o parsers).rules.resolve n = none) ∨
      ∃ r q i, rules.resolve n = some r ∧ (Compiler.builtin o parsers).rules.resolve n = some q ∧
        r.action = .standard i ∧ q.action = standardHandler Compile i ∧ q.name = r.name := by
  have hchoice := h n (Node.mem_subtree_self n)
  have hplain := @resolve_builtin α parsers o n
  rw [← hchoice, Option.map_map] at hplain
  refine (RuleSet.resolve_cases hplain).imp id ?_
  rintro ⟨r, q, hr, hq, heq⟩
  rw [hr, Option.map_some] at hchoice
  obtain ⟨i, hi⟩ := action_of_best hchoice.symm
  have haction : q.action = r.action.plain := congrArg Rule.action heq
  rw [hi] at haction
  exact ⟨r, q, i, hr, hq, hi, haction, congrArg Rule.name heq⟩

/-- **Having a node handled by standard rules** mirrors compiling it. -/
theorem mirrors_invoke (o : Options) {depth : Nat} {n : Node} (hdepth : n.size ≤ depth)
    (hrules : ChoosesStandard rules n) :
    Mirrors rules (invoke handlers parsers depth n) ((Compiler.builtin o parsers).part n).run := by
  induction depth generalizing n with
  | zero => exact absurd n.size_pos (Nat.not_lt.2 hdepth)
  | succ depth ih =>
    -- what is below is smaller, so one level less is deep enough for it
    have hbelow : ∀ k ∈ n.descendants, Mirrors rules (invoke handlers parsers depth k)
        ((Compiler.builtin o parsers).part k).run := fun k hk =>
      ih (Nat.le_of_lt_succ ((Node.size_lt_of_mem_descendants hk).trans_le hdepth))
        fun j hj => hrules j (Node.subtree_trans (Node.mem_subtree.2 (.inr hk)) hj)
    intro d
    rw [follow_invoke, Compiler.run_part, Dispatcher.dispatch]
    simp only [Compiler.dispatcher, pure_bind]
    rcases hrules.resolve_cases parsers o with
      ⟨hnone, hnone'⟩ | ⟨r, q, i, hr, hq, hi, haction, hname⟩
    · rw [hnone, hnone']
      rfl
    · rw [hr, hq]
      simp only [haction, hname, exec_bind, exec_lift, hi, dispatcher, standardHandler_eq]
      rw [Compiler.part_eq_of]
      exact (Form.standard.get ⟨i, i.isLt⟩).linked (Mirrors.congruence rules) parsers n _ _ hbelow _

/-- What the outcome of work makes of a compiler. -/
theorem compile_eq (c : Compiler (Action α)) (depth : Nat) (t : Node) :
    compile handlers depth c t =
      (follow (do Compile.finish t (← invoke handlers c.parsers depth t)) ⟨.empty, c.rules⟩).map
        fun p => (c.conclude p.1 p.2.draft, { c with rules := p.2.rules }) := by
  rw [Option.map_eq_bind]
  rfl

/-- **Where standard rules are chosen for every node** of a tree, compiling
it deep enough is compiling it with the standard rules alone. -/
theorem compile_of_standard {c : Compiler (Action α)} {depth : Nat} {t : Node}
    (hdepth : t.size ≤ depth) (hc : ChoosesStandard c.rules t) :
    compile handlers depth c t = some ((Compiler.builtin c.options c.parsers).compile t, c) := by
  have hfinish : ∀ r, Mirrors c.rules (Compile.finish t r) (Compile.finish t r) := by
    intro r d
    match r with
    | none => rfl
    | some [] => rfl
    | some [e] => rfl
    | some (_ :: _ :: _) => rfl
  have hroot := (mirrors_invoke handlers c.parsers c.options hdepth hc).bind hfinish .empty
  rw [compile_eq, hroot]
  rfl

end Visitor

end ScriptSplice
