import ScriptSplice.Proofs.Dispatch.History
import ScriptSplice.Proofs.Rules.Linked
/-!
# What compiling a node keeps

The standard handlers are built from what every rule does with the parts
of its node, so they are within a closed family of actions that has the
work on those parts (`Form.within`). By induction over the tree so is
compiling a node, for any compiler whose further handlers are within the
family too (`Compiler.within_part`). In particular it keeps the frames that
these handlers keep (`Compiler.keeps_part`): lines are only added to the
buffer and nodes to the table.
-/

namespace ScriptSplice

open Compile

/-- The parts that a handler can reach from the fields it is given. -/
inductive Compile.Reaches (fields : Fields Part) : Part → Prop
  | here {p : Part} : p ∈ Fields.nodes fields → Reaches fields p
  | within {p q : Part} : Reaches fields p → q ∈ Fields.nodes p.fields → Reaches fields q

/-- A handler is within a family of actions if what it does with parts of
the family is in the family. -/
def Handler.Within (P : ∀ {α : Type}, Compile α → Prop) (h : Handler) : Prop :=
  ∀ parsers n fields, (∀ p, Reaches fields p → P p.run) → P (h parsers n fields)

/-- A handler keeps a relation between drafts if it does so on parts that
do. -/
def Handler.Keeps (R : Draft → Draft → Prop) (h : Handler) : Prop :=
  ∀ parsers n fields, (∀ p, Reaches fields p → Compile.Keeps R p.run) →
    Compile.Keeps R (h parsers n fields)

/-- The signature of a function is its first argument. -/
theorem Handler.argument_of_signatureOf {n : Node} {fields : Fields Part} {p : Part}
    {d d' : Draft} (h : exec (signatureOf n fields) d = (.ok p, d')) :
    argument fields 0 = some p := by
  unfold signatureOf at h
  split at h
  · rename_i q hq
    split at h <;> simp_all
  · simp at h

/-! ## Compiling a node -/

namespace Compiler

variable {R : Draft → Draft → Prop} {P : ∀ {α : Type}, Compile α → Prop} {c : Compiler}

/-- The rules of a compiler are standard ones, or further ones within a
family of actions. -/
def RulesWithin (P : ∀ {α : Type}, Compile α → Prop) (c : Compiler) : Prop :=
  ∀ r ∈ c.rules.ranked, r.toRule ∈ standardRules ∨ r.action.Within P

/-- The rules of a compiler are standard ones, or further ones that keep a
relation between drafts. -/
def RulesKeep (R : Draft → Draft → Prop) (c : Compiler) : Prop :=
  ∀ r ∈ c.rules.ranked, r.toRule ∈ standardRules ∨ r.action.Keeps R

theorem rulesWithin_builtin (P : ∀ {α : Type}, Compile α → Prop) (o : Options)
    (parsers : Parsers) : (builtin o parsers).RulesWithin P := fun _ hr =>
  Or.inl ((RuleSet.mem_addAll hr).resolve_left (List.not_mem_nil))

theorem rulesKeep_builtin (R : Draft → Draft → Prop) (o : Options) (parsers : Parsers) :
    (builtin o parsers).RulesKeep R := rulesWithin_builtin (Compile.Keeps R) o parsers

/-- The rules of a compiler that only has the standard ones. -/
theorem reached_builtin (o : Options) (parsers : Parsers) :
    RuleSet.Reached (builtin o parsers).rules standardRules := by
  have hstandard : standardRules.all (fun r => !r.builtin) = true := by decide
  refine RuleSet.Reached.empty.addAll fun r hr => ?_
  simpa using List.all_eq_true.1 hstandard r hr

/-- Adding rules whose handlers keep a relation keeps it. -/
theorem RulesKeep.extend (hc : c.RulesKeep R) {rules : RuleSet Handler}
    (h : ∀ r ∈ rules.ranked, r.action.Keeps R) : (c.extend rules).RulesKeep R := by
  intro r hr
  rcases RuleSet.mem_extend hr with hr | ⟨s, hs, heq⟩
  · exact hc r hr
  · have haction : s.action = r.action := congrArg Rule.action heq
    exact Or.inr (haction ▸ h s hs)

/-- The parts that a handler reaches from a node are what is below it. -/
private theorem run_of_reaches {n : Node} {p : Part} (hp : Reaches (c.part n).fields p) :
    ∃ k ∈ n.descendants, p = c.part k := by
  induction hp with
  | here hp =>
    rw [fields_part, Fields.nodes_map] at hp
    obtain ⟨k, hk, rfl⟩ := List.mem_map.1 hp
    exact ⟨k, Node.mem_descendants_of_mem_parts hk, rfl⟩
  | within _ hq ih =>
    obtain ⟨k, hk, rfl⟩ := ih
    rw [fields_part, Fields.nodes_map] at hq
    obtain ⟨j, hj, rfl⟩ := List.mem_map.1 hq
    exact ⟨j, Node.descendants_trans hk (Node.mem_descendants_of_mem_parts hj), rfl⟩

/-- The work of compiling nodes makes the parts that handlers are given. -/
theorem part_eq_of : c.part = Job.of fun n => (c.part n).run := by
  funext n
  induction n using Node.induction with
  | step n ih =>
    calc c.part n
        = ⟨n, (c.part n).run, Fields.map c.part n.fields⟩ := by
          rw [run_part]
          exact c.dispatcher.job_eq n
      _ = Job.of (fun n => (c.part n).run) n := by rw [Job.of_eq, Fields.map_congr ih]

/-- **Compiling a node is within every closed family** that the rules are
within. -/
theorem within_part (hP : Closed P) (hc : c.RulesWithin P) (n : Node) : P (c.part n).run := by
  -- a handler can reach below the parts, so the induction is over all that is below
  induction n using Node.induction_descendants with
  | step n ih =>
    rw [run_part, Dispatcher.dispatch]
    simp only [dispatcher, pure_bind]
    split
    · exact hP.throw _
    · rename_i r hr
      refine Closed.bind hP (hP.note _) fun _ => ?_
      rcases hc r (List.mem_of_find?_eq_some hr) with hstandard | hwithin
      · obtain ⟨f, hf⟩ := exists_form_of_mem_standardRules hstandard
        rw [hf, part_eq_of]
        exact f.linked hP c.parsers n _ (fun k => (c.part k).run) ih
      · refine hwithin c.parsers n _ fun p hp => ?_
        obtain ⟨k, hk, rfl⟩ := run_of_reaches (n := n) (by rwa [fields_part])
        exact ih k hk

/-- Compiling a node with the standard rules is what the handler of its form
does, once the choice is recorded. -/
theorem exec_run_builtin (o : Options) (parsers : Parsers) (n : Node) (d : Draft) :
    ∃ events, exec ((builtin o parsers).part n).run d =
      exec (n.form.handler parsers n (Fields.map (builtin o parsers).part n.fields))
        { d with events } := by
  obtain ⟨name, hrun⟩ := run_builtin o parsers n
  rw [hrun]
  exact ⟨_, exec_bind_of_ok (exec_lift _ d)⟩

/-- **Compiling a node keeps every frame** that the rules keep. -/
theorem keeps_part (hR : Frame R) (hc : c.RulesKeep R) (n : Node) : Keeps R (c.part n).run :=
  within_part hR.closed hc n

end Compiler

end ScriptSplice
