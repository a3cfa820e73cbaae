import ScriptSplice.Proofs.Rules.Keeping
import ScriptSplice.Proofs.Rules.Trichotomy
/-!
# Which commands write statements

A rule compiles some of the nodes below its node before it writes a
statement of its own (`Node.ahead`) and some in the block of that statement
(`Node.inside`). Read off the tree this way, the commands that write a
statement come in the order in which their statements stand in the program
(`Node.emitters`), and `Node.Writes` says what the statement of a command
can be. The statements of a program that no command writes are the
compiler's own (`Stmt.isAuxiliary`).
-/

namespace ScriptSplice

open Handler

namespace Node

variable (n : Node)

/-- The child under a name, if there is one. -/
def childNodes (name : String) : List Node := (n.child? (ascii name)).toList

/-- The children of the sequence under a name, absent ones left out. -/
def sequenceNodes (name : String) : List Node := (n.children (ascii name)).filterMap id

/-- An argument of a command, if there is one. -/
def argumentNodes (i : Nat) : List Node := (argument n.fields i).toList

/-- The commands of the body among the arguments. -/
def bodyNodes (i : Nat) : List Node := (n.argumentNodes i).flatMap (sequenceNodes · "commands")

/-- The nodes that are compiled ahead of the statement of a node. -/
def ahead : List Node :=
  match n.form with
  | .generic | .root => n.parts
  | .interpolation | .argumentInterpolation | .unary | .attributeOf => n.childNodes "value"
  | .binary => n.childNodes "left" ++ n.childNodes "right"
  | .formatString => n.sequenceNodes "values"
  | .tuple | .list => n.sequenceNodes "items"
  | .dict => (n.sequenceNodes "items").flatMap fun item =>
      item.childNodes "key" ++ item.childNodes "value"
  | .lookup | .call => n.childNodes "value" ++ n.sequenceNodes "arguments"
  | .assignment => n.childNodes "target" ++ n.childNodes "value"
  | .statement | .control _ | .branch _ => n.argumentNodes 0
  | .loop => n.argumentNodes 0 ++ n.argumentNodes 1
  | .value | .identifier | .targetIdentifier | .function | .otherwise
  | .importModule | .importAs | .fromImport => []

/-- The nodes that are compiled in the block of the statement of a node. -/
def inside : List Node :=
  match n.form with
  | .function =>
    ((n.argumentNodes 0).flatMap (sequenceNodes · "arguments")).flatMap (childNodes · "default") ++
      n.bodyNodes 1
  | .branch _ => n.bodyNodes 1
  | .otherwise => n.bodyNodes 0
  | .loop => n.bodyNodes 2
  | _ => []

/-- Whether a node writes a statement. An expression that stays as it is
has no effect, so its statement is left out. -/
def writes : Bool :=
  match n.form with
  | .statement => (n.argumentNodes 0).any hasDynamic
  | form => form.isStatement

/-! ## They are below the node -/

variable {n} {m : Node}

theorem mem_descendants_of_childNodes {name : String} (h : m ∈ n.childNodes name) :
    m ∈ n.descendants :=
  mem_descendants_of_mem_parts (Fields.mem_nodes_of_child? (Option.mem_toList.1 h))

theorem mem_descendants_of_sequenceNodes {name : String} (h : m ∈ n.sequenceNodes name) :
    m ∈ n.descendants :=
  mem_descendants_of_mem_children (by simpa [sequenceNodes] using h)

theorem mem_descendants_of_argumentNodes {i : Nat} (h : m ∈ n.argumentNodes i) :
    m ∈ n.descendants :=
  mem_descendants_of_mem_parts (mem_nodes_of_argument (Option.mem_toList.1 h))

theorem mem_descendants_of_bodyNodes {i : Nat} (h : m ∈ n.bodyNodes i) : m ∈ n.descendants := by
  obtain ⟨b, hb, hm⟩ := List.mem_flatMap.1 h
  exact descendants_trans (mem_descendants_of_argumentNodes hb)
    (mem_descendants_of_sequenceNodes hm)

theorem mem_descendants_of_mem_ahead (h : m ∈ n.ahead) : m ∈ n.descendants := by
  unfold ahead at h
  split at h
  case h_1 | h_2 => exact mem_descendants_of_mem_parts h
  case h_3 | h_4 | h_5 | h_6 => exact mem_descendants_of_childNodes h
  case h_7 =>
    exact (List.mem_append.1 h).elim mem_descendants_of_childNodes mem_descendants_of_childNodes
  case h_8 | h_9 | h_10 => exact mem_descendants_of_sequenceNodes h
  case h_11 =>
    obtain ⟨item, hitem, hm⟩ := List.mem_flatMap.1 h
    exact descendants_trans (mem_descendants_of_sequenceNodes hitem)
      ((List.mem_append.1 hm).elim mem_descendants_of_childNodes mem_descendants_of_childNodes)
  case h_12 | h_13 =>
    exact (List.mem_append.1 h).elim mem_descendants_of_childNodes mem_descendants_of_sequenceNodes
  case h_14 =>
    exact (List.mem_append.1 h).elim mem_descendants_of_childNodes mem_descendants_of_childNodes
  case h_15 | h_16 | h_17 => exact mem_descendants_of_argumentNodes h
  case h_18 =>
    exact (List.mem_append.1 h).elim mem_descendants_of_argumentNodes
      mem_descendants_of_argumentNodes
  all_goals exact absurd h List.not_mem_nil

theorem mem_descendants_of_mem_inside (h : m ∈ n.inside) : m ∈ n.descendants := by
  unfold inside at h
  split at h
  case h_1 =>
    rcases List.mem_append.1 h with h | h
    · obtain ⟨p, hp, hm⟩ := List.mem_flatMap.1 h
      obtain ⟨s, hs, hp⟩ := List.mem_flatMap.1 hp
      have hdescendant := descendants_trans (mem_descendants_of_argumentNodes hs)
        (mem_descendants_of_sequenceNodes hp)
      exact descendants_trans hdescendant (mem_descendants_of_childNodes hm)
    · exact mem_descendants_of_bodyNodes h
  case h_5 => exact absurd h List.not_mem_nil
  all_goals exact mem_descendants_of_bodyNodes h

/-! ## In the order of their statements -/

/-- **The commands of a tree that write a statement**, in the order in which
their statements come. -/
def emitters (n : Node) : List Node :=
  n.ahead.attach.flatMap (fun m => emitters m.1) ++ (if n.writes then [n] else []) ++
    n.inside.attach.flatMap fun m => emitters m.1
termination_by n.size
decreasing_by
  · exact size_lt_of_mem_descendants (mem_descendants_of_mem_ahead m.2)
  · exact size_lt_of_mem_descendants (mem_descendants_of_mem_inside m.2)

theorem emitters_eq (n : Node) : n.emitters =
    n.ahead.flatMap emitters ++ (if n.writes then [n] else []) ++ n.inside.flatMap emitters := by
  rw [emitters]
  simp

end Node

/-! ## Statements and who writes them -/

/-- The statements that no command writes. -/
def Stmt.isAuxiliary : Stmt → Bool
  | bind .. | output .. | append _ | extend _ | extendBody _ | pass | default _ | scope _ => true
  | _ => false

/-- **The statements that the rule for a command writes.** -/
inductive Node.Writes (n : Node) : Stmt → Prop
  | eval (e : Expr) : n.form = .statement → Writes n (.eval e)
  | control {keyword : String} (operand : Option Expr) : n.form = .control keyword →
      Writes n (.control (ascii keyword) operand)
  | branch {keyword : String} (condition : Expr) : n.form = .branch keyword →
      Writes n (.branch (ascii keyword) condition)
  | otherwise : n.form = .otherwise → Writes n .otherwise
  | loop (target iterable : Expr) : n.form = .loop → Writes n (.loop target iterable)
  | define {signature : Node} (parameters : List (Text × Bool)) : n.form = .function →
      argument n.fields 0 = some signature →
      Writes n (.define (signature.text (ascii "name")) parameters)
  | importNative {m : ModulePath} : n.form = .importModule → moduleOf n = .ok m →
      Writes n (.importNative m.path)
  | importNativeAs {m : ModulePath} : n.form = .importAs → moduleOf n = .ok m →
      Writes n (.importNativeAs m.path (importedName (argument n.fields 1)))
  | fromNative {m : ModulePath} {names : List Text} : n.form = .fromImport →
      moduleOf n = .ok m → importedNames n = .ok names → Writes n (.fromNative m.path names)
  | bindModule {m : ModulePath} : n.form = .importModule → moduleOf n = .ok m →
      Writes n (.bindModule m.lastPart m.target)
  | bindModuleAs {m : ModulePath} : n.form = .importAs → moduleOf n = .ok m →
      Writes n (.bindModule (importedName (argument n.fields 1)) m.target)
  | bindNames {m : ModulePath} {names : List Text} : n.form = .fromImport →
      moduleOf n = .ok m → importedNames n = .ok names → Writes n (.bindNames names m.target)

/-- The mark of a place at a depth, if the place is known. -/
def Line.markOf (depth : Nat) (place : Location) : List Line :=
  (place.line?.map fun line => ⟨depth, .mark line⟩).toList

/-- **Lines and the commands that write them.** The statements that are not
auxiliary are those of the commands, in order, each behind the mark of its
command, if that has a known place. -/
inductive Line.Attributed : List Node → List Line → Prop
  | nil : Attributed [] []
  | auxiliary {ms : List Node} {l : Line} {ls : List Line} : l.stmt.isAuxiliary = true →
      Attributed ms ls → Attributed ms (l :: ls)
  | command {m : Node} {ms : List Node} {s : Stmt} {ls : List Line} (depth : Nat) : m.Writes s →
      Attributed ms ls →
      Attributed (m :: ms) (markOf depth m.location ++ ⟨depth, s⟩ :: ls)

namespace Line.Attributed

variable {ms ns : List Node} {ls ks : List Line}

theorem append (h : Attributed ms ls) (h' : Attributed ns ks) :
    Attributed (ms ++ ns) (ls ++ ks) := by
  induction h with
  | nil => exact h'
  | auxiliary hl _ ih => exact .auxiliary hl ih
  | command depth hs _ ih =>
    rw [List.cons_append, List.append_assoc, List.cons_append]
    exact .command depth hs ih

/-- Only auxiliary statements. -/
theorem of_auxiliary (h : ∀ l ∈ ls, l.stmt.isAuxiliary = true) : Attributed [] ls := by
  induction ls with
  | nil => exact .nil
  | cons l ls ih =>
    rw [List.forall_mem_cons] at h
    exact .auxiliary h.1 (ih h.2)

/-- No lines, no commands. -/
theorem eq_nil (h : Attributed ms []) : ms = [] := by
  generalize hnil : ([] : List Line) = ls at h
  cases h with
  | nil => rfl
  | auxiliary => cases hnil
  | command => simp at hnil

theorem indent (h : Attributed ms ls) : Attributed ms (ls.map Line.indent) := by
  induction h with
  | nil => exact .nil
  | auxiliary hl _ ih => exact .auxiliary hl ih
  | @command m ms s ls depth hs _ ih =>
    have hmark : (markOf depth m.location).map Line.indent = markOf (depth + 1) m.location := by
      unfold markOf
      cases m.location.line? <;> rfl
    rw [List.map_append, hmark, List.map_cons]
    exact .command (depth + 1) hs ih

/-- **The statement of one of the commands** stands behind its mark and
between the statements of the commands before and after it. -/
theorem exists_of_append {m : Node} (h : Attributed (ms ++ m :: ns) ls) :
    ∃ before after depth s, ls = before ++ markOf depth m.location ++ ⟨depth, s⟩ :: after ∧
      m.Writes s ∧ Attributed ms before ∧ Attributed ns after := by
  generalize hall : ms ++ m :: ns = all at h
  induction h generalizing ms with
  | nil => simp at hall
  | @auxiliary all l ls hl _ ih =>
    obtain ⟨before, after, depth, s, rfl, hs, hbefore, hafter⟩ := ih hall
    exact ⟨l :: before, after, depth, s, by simp, hs, .auxiliary hl hbefore, hafter⟩
  | @command k all s ls depth hs hrest ih =>
    cases ms with
    | nil =>
      obtain ⟨rfl, rfl⟩ := List.cons.inj hall
      exact ⟨[], ls, depth, s, by simp, hs, .nil, hrest⟩
    | cons k' ms =>
      obtain ⟨rfl, hms⟩ := List.cons.inj hall
      obtain ⟨before, after, depth', s', rfl, hs', hbefore, hafter⟩ := ih hms
      exact ⟨markOf depth k'.location ++ ⟨depth, s⟩ :: before, after, depth', s', by simp, hs',
        .command depth hs hbefore, hafter⟩

end Line.Attributed

end ScriptSplice
