import ScriptSplice.Dispatch.Rule
/-!
# Working through a tree

Handling a node means to resolve it and to act as the rule says, and an
action may have parts of the node handled. A `Job` is a node with the
work of handling it, not yet done, and with its fields, where every node
has become a job in turn. An action is given the fields of its node in
that form; so it reaches the parts of its node, and parts of those, and
no other nodes, and the work ends because trees do. Where nodes are handled
in a way that is known already, `Job.of` makes their jobs.
-/

namespace ScriptSplice

/-- A node, the work of handling it, and the jobs in its fields. -/
structure Job (m : Type → Type) (β : Type) where
  node : Node
  run : m β
  fields : List (Field (Job m β))

namespace Job

variable {m : Type → Type} {β : Type} (handle : Node → m β) (n : Node)

/-- The job of a node, and those of its parts, if nodes are handled in a
given way. -/
def of : Node → Job m β := Node.fold fun n fields => ⟨n, handle n, fields⟩

theorem of_eq : of handle n = ⟨n, handle n, Fields.map (of handle) n.fields⟩ := by
  rw [of, Node.fold_eq]

@[simp] theorem node_of : (of handle n).node = n := by rw [of_eq]

@[simp] theorem run_of : (of handle n).run = handle n := by rw [of_eq]

@[simp] theorem fields_of : (of handle n).fields = Fields.map (of handle) n.fields := by rw [of_eq]

end Job

/-- How nodes are handled: by which rules, what happens when there is none
or when one is chosen, and what an action does. -/
structure Dispatcher (m : Type → Type) (α β : Type) where
  /-- The rules in force at the moment. -/
  rules : m (RuleSet α)
  missing : Node → m β
  chosen : Node → RankedRule α → m Unit
  act : α → Node → Fields (Job m β) → m β

namespace Dispatcher

variable {m : Type → Type} {α β : Type} [Monad m] (d : Dispatcher m α β)

/-- **Handling a node**, given the jobs in its fields. The rule is chosen
before its action runs, which may change the rules for later choices. -/
def dispatch (n : Node) (fields : Fields (Job m β)) : m β := do
  match (← d.rules).resolve n with
  | none => d.missing n
  | some r =>
    d.chosen n r
    d.act r.action n fields

/-- The job of a node. -/
def job : Node → Job m β := Node.fold fun n fields => ⟨n, d.dispatch n fields, fields⟩

theorem job_eq (n : Node) :
    d.job n = ⟨n, d.dispatch n (Fields.map d.job n.fields), Fields.map d.job n.fields⟩ := by
  rw [job, Node.fold_eq]

@[simp] theorem node_job (n : Node) : (d.job n).node = n := by rw [job_eq]

@[simp] theorem fields_job (n : Node) : (d.job n).fields = Fields.map d.job n.fields := by
  rw [job_eq]

/-- **The equation of the traversal.** -/
theorem run_job (n : Node) : (d.job n).run = d.dispatch n (Fields.map d.job n.fields) := by
  rw [job_eq]

end Dispatcher

/-- Handles every node of some fields, in order, for the effect alone. -/
def Job.walk {m : Type → Type} {β : Type} [Monad m] (fields : Fields (Job m β)) : m Unit :=
  (Fields.nodes fields).forM fun j => do
    let _ ← j.run

/-- What is reported of a choice. A zero byte ends the rule's name. -/
def choiceNote (kind : Kind) (name : Text) : Text :=
  ascii "[dbg][dispatch] " ++ kind.name ++ ascii " -> " ++
    (if name.isEmpty then ascii "<anonymous>" else name.untilNul) ++ ascii "\n"

end ScriptSplice
