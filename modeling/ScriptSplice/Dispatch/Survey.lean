import ScriptSplice.Dispatch.Traversal
/-!
# Surveys

A survey goes through a tree to count and to record. Its rules are data:
each has a number to contribute, says how the traversal goes on below its
node, and may add rules while the survey is under way. Those apply to
every node handled from then on, and stay when the survey is over.
-/

namespace ScriptSplice

namespace Survey

/-- How a survey goes on below a node. -/
inductive Course where
  | stop
  /-- Through every part, whose contributions do not count. -/
  | walk
  /-- To the single child under a name, whose contribution counts. -/
  | child (name : Text)
  /-- Through every part, whose contributions count. -/
  | sum

/-- A rule of a survey. -/
structure Spec where
  kind : Option Kind
  name : Text
  constraints : List Constraint
  contribution : Int
  course : Course
  /-- The rules that are added when this one is used. -/
  adds : List Spec

/-- What the rules of a survey do: pass through in silence, as the
built-in rule does, or follow a rule given as data. -/
inductive Action where
  | passThrough
  | follow (spec : Spec)

/-- A rule given as data, as a rule. -/
def Spec.rule (s : Spec) : Rule Action := ⟨s.kind, s.constraints, .follow s, s.name, false⟩

/-- The state of a survey: the rules in force, what was recorded, and the
choices that were made. -/
structure State where
  rules : RuleSet Action
  log : List Text
  choices : List Text

/-- The work of a survey. It stops at a node no rule is for, and what was
recorded until then stays. -/
abbrev Work := ExceptT Kind (StateM State)

/-- Records a line. -/
def record (line : Text) : Work Unit := modify fun s => { s with log := s.log ++ [line] }

/-- Adds rules in order. -/
def learn (specs : List Spec) : Work Unit :=
  modify fun s => { s with rules := s.rules.addAll (specs.map Spec.rule) }

/-- What lies below a node contributes this. -/
def below (course : Course) (fields : Fields (Job Work Int)) : Work Int :=
  match course with
  | .stop => pure 0
  | .walk => do
    Job.walk fields
    pure 0
  | .child name =>
    match Fields.child? fields name with
    | some j => j.run
    | none => pure 0
  | .sum => (Fields.nodes fields).foldlM (fun total j => return total + (← j.run)) 0

/-- Follows a rule at a node. -/
def act (action : Action) (n : Node) (fields : Fields (Job Work Int)) : Work Int := do
  match action with
  | .passThrough =>
    Job.walk fields
    pure 0
  | .follow s =>
    record (s.name ++ ascii "@" ++ n.kind.name)
    learn s.adds
    let rest ← below s.course fields
    record (ascii "end " ++ s.name)
    pure (s.contribution + rest)

/-- How a survey handles nodes. -/
def dispatcher : Dispatcher Work Action Int where
  rules := return (← get).rules
  missing n := throw n.kind
  chosen n r := modify fun s => { s with choices := s.choices ++ [choiceNote n.kind r.name] }
  act := act

end Survey

/-- A set of survey rules, and whether its choices are reported. -/
structure Survey where
  rules : RuleSet Survey.Action
  traced : Bool

namespace Survey

/-- A survey without rules, or with the built-in one that passes through
every node. -/
def new (passesThrough : Bool) : Survey :=
  let builtin : Rule Action := ⟨none, [], .passThrough, ascii "generic", true⟩
  ⟨if passesThrough then RuleSet.empty.add builtin else .empty, false⟩

/-- Adds a rule. -/
def add (s : Survey) (spec : Spec) : Survey := { s with rules := s.rules.add spec.rule }

/-- Takes over the rules of other surveys, one after another. None stands
for the survey itself. -/
def extendAll (s : Survey) (others : List (Option Survey)) : Survey :=
  { s with rules := s.rules.extendAll (others.map (·.map (·.rules))) }

/-- The outcome of a survey: the total or the kind of the node that no
rule is for, what was recorded, and the report of choices. -/
structure Outcome where
  total : Except Kind Int
  log : List Text
  report : Text

/-- **Surveying a tree.** The rules learned on the way stay. -/
def survey (s : Survey) (n : Node) : Outcome × Survey :=
  let (total, state) := (dispatcher.job n).run.run ⟨s.rules, [], []⟩
  (⟨total, state.log, if s.traced then state.choices.flatten else []⟩,
    { s with rules := state.rules })

end Survey

end ScriptSplice
