import ScriptSplice.Proofs.Compile.Closed
import ScriptSplice.Proofs.Rules.Form
/-!
# The standard handlers in two monads

The standard handlers are built from what every rule does with the parts
of its node, in any monad that programs are compiled in. So they respect
every congruence of actions (`Form.linked`): if the work on the parts of a
node in one monad is related to that in another, so is what the handlers
do with the node.
-/

namespace ScriptSplice

open Compile

variable {m m' : Type → Type} [Monad m] [MonadExceptOf Failure m] [MonadLiftT Drafting m]
  [HasBlocks m] [Monad m'] [MonadExceptOf Failure m'] [MonadLiftT Drafting m'] [HasBlocks m']

theorem Handler.mem_nodes_of_argument {ν : Type} {fields : Fields ν} {i : Nat} {v : ν}
    (h : argument fields i = some v) : v ∈ Fields.nodes fields :=
  Fields.mem_nodes_of_children (List.mem_of_getElem? (Option.join_eq_some_iff.1 h))

/-- **Handlers are linked** by a relation if they do related things with a
node whenever the work on what is below it is related. -/
def Handler.Linked (m m' : Type → Type) (P : ∀ {α : Type}, m α → m' α → Prop) (h : Handler m)
    (h' : Handler m') : Prop :=
  ∀ parsers n (handle : Node → m Result) (handle' : Node → m' Result),
    (∀ k ∈ n.descendants, P (handle k) (handle' k)) →
    P (h parsers n (Fields.map (Job.of handle) n.fields))
      (h' parsers n (Fields.map (Job.of handle') n.fields))

variable {P : ∀ {α : Type}, m α → m' α → Prop} (hP : Congruence m m' P)

include hP

namespace Compile.Congruence

variable {n : Node} {handle : Node → m Result} {handle' : Node → m' Result}
  (h : ∀ k ∈ n.descendants, P (handle k) (handle' k))

include h

theorem child (name : Text) :
    P (Compile.required (Fields.child? (Fields.map (Job.of handle) n.fields) name))
      (Compile.required (Fields.child? (Fields.map (Job.of handle') n.fields) name)) := by
  rw [Fields.child?_map, Fields.child?_map]
  exact hP.required fun k hk =>
    .of (h k (Node.mem_descendants_of_mem_parts (Fields.mem_nodes_of_child? hk)))

theorem operands (name : String) :
    P (Handler.operands (Fields.map (Job.of handle) n.fields) name)
      (Handler.operands (Fields.map (Job.of handle') n.fields) name) := by
  rw [Handler.operands, Handler.operands, Fields.children_map, Fields.children_map]
  refine hP.mapM_map _ fun o ho => hP.required fun k hk => .of (h k ?_)
  exact Node.mem_descendants_of_mem_parts (Fields.mem_nodes_of_children (hk ▸ ho))

theorem argument (i : Nat) :
    P (Compile.required (Handler.argument (Fields.map (Job.of handle) n.fields) i))
      (Compile.required (Handler.argument (Fields.map (Job.of handle') n.fields) i)) := by
  rw [Handler.argument_map, Handler.argument_map]
  exact hP.required fun k hk =>
    .of (h k (Node.mem_descendants_of_mem_parts (Handler.mem_nodes_of_argument hk)))

theorem bodyOf (i : Nat) :
    P (Compile.bodyOf (Handler.argument (Fields.map (Job.of handle) n.fields) i))
      (Compile.bodyOf (Handler.argument (Fields.map (Job.of handle') n.fields) i)) := by
  rw [Handler.argument_map, Handler.argument_map]
  cases hi : Handler.argument n.fields i with
  | none => exact hP.throw _
  | some b =>
    have hb := Node.mem_descendants_of_mem_parts (Handler.mem_nodes_of_argument hi)
    simp only [Option.map_some, Compile.bodyOf, Job.node_of, Job.fields_of]
    refine hP.body .command b fun k hk => .of (h k ?_)
    exact Node.descendants_trans hb (Node.mem_descendants_of_mem_parts hk)

end Compile.Congruence

namespace Handler

variable {handle : Node → m Result} {handle' : Node → m' Result}

theorem linked_rebuild (collection : Collection) :
    Linked m m' P (rebuild collection) (rebuild collection) := fun _ n _ _ h =>
  hP.bind (hP.rebuild collection n fun k hk => .of (h k (Node.mem_descendants_of_mem_parts hk)))
    fun _ => hP.pure _

theorem linked_interpolation : Linked m m' P interpolation interpolation := fun _ _ _ _ h =>
  hP.bind (hP.child h _) fun _ => hP.bind (hP.ref _) fun _ =>
    hP.bind (hP.apply _ _) fun _ => hP.pure _

theorem linked_argumentInterpolation :
    Linked m m' P argumentInterpolation argumentInterpolation := by
  intro parsers n _ _ h
  simp only [argumentInterpolation]
  split
  · exact hP.throw_bind _ _ _
  · exact hP.bind (hP.child h _) fun _ => hP.bind (hP.ref _) fun _ =>
      hP.bind (hP.apply _ _) fun _ => hP.bind (hP.apply _ _) fun _ => hP.pure _

theorem linked_binary : Linked m m' P binary binary := fun _ _ _ _ h =>
  hP.bind (hP.child h _) fun _ => hP.bind (hP.child h _) fun _ => hP.pure _

theorem linked_unary : Linked m m' P unary unary := fun _ _ _ _ h =>
  hP.bind (hP.child h _) fun _ => hP.pure _

theorem linked_formatString : Linked m m' P formatString formatString := fun _ _ _ _ h =>
  hP.bind (hP.operands h _) fun _ => hP.pure _

theorem linked_tuple : Linked m m' P tuple tuple := fun _ _ _ _ h =>
  hP.bind (hP.operands h _) fun _ => hP.pure _

theorem linked_list : Linked m m' P list list := fun _ _ _ _ h =>
  hP.bind (hP.operands h _) fun _ => hP.pure _

theorem linked_dict : Linked m m' P dict dict := by
  intro parsers n _ _ h
  simp only [dict, Fields.filterMap_children]
  refine hP.bind (hP.mapM_map _ fun item hitem => ?_) fun _ => hP.pure _
  -- an entry is not compiled itself, but its operands are reached through it
  have hentry : ∀ k ∈ item.descendants, P _ _ := fun k hk =>
    h k (Node.descendants_trans (Node.mem_descendants_of_mem_filterMap hitem) hk)
  simp only [entry, operand, Job.fields_of]
  exact hP.bind (hP.child hentry _) fun _ => hP.bind (hP.child hentry _) fun _ => hP.pure _

theorem linked_attributeOf : Linked m m' P attributeOf attributeOf := fun _ _ _ _ h =>
  hP.bind (hP.child h _) fun _ => hP.bind (hP.apply _ _) fun _ => hP.pure _

theorem linked_lookup : Linked m m' P lookup lookup := fun _ _ _ _ h =>
  hP.bind (hP.child h _) fun _ => hP.bind (hP.operands h _) fun _ => hP.pure _

theorem linked_call : Linked m m' P call call := fun _ _ _ _ h =>
  hP.bind (hP.child h _) fun _ => hP.bind (hP.operands h _) fun _ => hP.pure _

theorem linked_assignment : Linked m m' P assignment assignment := fun _ _ _ _ h =>
  hP.bind (hP.child h _) fun _ => hP.bind (hP.child h _) fun _ => hP.pure _

theorem linked_expressionStatement :
    Linked m m' P expressionStatement expressionStatement := by
  intro parsers n _ _ h
  simp only [expressionStatement, argument_map]
  refine hP.bind (hP.operand? fun k hk => .of (h k ?_)) fun e => ?_
  · exact Node.mem_descendants_of_mem_parts (mem_nodes_of_argument hk)
  cases e with
  | none => exact hP.pure _
  | some e => exact hP.bind (hP.mark _) fun _ => hP.bind (hP.emit _) fun _ => hP.pure _

theorem linked_control (keyword : String) :
    Linked m m' P (control keyword) (control keyword) := by
  intro parsers n _ _ h
  have hargument := hP.argument h 0
  simp only [control, argument_map] at hargument ⊢
  -- without an argument the keyword stands alone
  cases hoperand : argument n.fields 0 with
  | none =>
    exact hP.bind (hP.pure none) fun _ => hP.bind (hP.mark _) fun _ =>
      hP.bind (hP.emit _) fun _ => hP.pure _
  | some p =>
    rw [hoperand] at hargument
    exact hP.bind (hP.map some hargument) fun _ => hP.bind (hP.mark _) fun _ =>
      hP.bind (hP.emit _) fun _ => hP.pure _

theorem linked_branch (keyword : String) :
    Linked m m' P (branch keyword) (branch keyword) := fun _ _ _ _ h =>
  hP.bind (hP.argument h 0) fun _ => hP.bind (hP.mark _) fun _ =>
    hP.bind (hP.emit _) fun _ => hP.bind (hP.inBlock (hP.bodyOf h 1)) fun _ => hP.pure _

theorem linked_otherwise : Linked m m' P otherwise otherwise := fun _ _ _ _ h =>
  hP.bind (hP.mark _) fun _ => hP.bind (hP.emit _) fun _ =>
    hP.bind (hP.inBlock (hP.bodyOf h 0)) fun _ => hP.pure _

theorem linked_loop : Linked m m' P loop loop := fun _ _ _ _ h =>
  hP.bind (hP.argument h 0) fun _ => hP.bind (hP.argument h 1) fun _ =>
    hP.bind (hP.mark _) fun _ => hP.bind (hP.emit _) fun _ =>
      hP.bind (hP.inBlock (hP.bodyOf h 2)) fun _ => hP.pure _

omit hP [Monad m] [MonadExceptOf Failure m] [MonadLiftT Drafting m] [HasBlocks m] in
/-- How a parameter is declared does not depend on how nodes are handled. -/
private theorem declare_of (handle : Node → m Result) (p : Node) :
    declare (Job.of handle p) = (if (p.child? (ascii "default")).isSome then do
      Drafting.use .missing
      return (p.text (ascii "name"), true)
    else return (p.text (ascii "name"), false)) := by
  rw [declare, parameterDefault, parameterName, Job.fields_of, Job.node_of, Fields.child?_map,
    Option.isSome_map]
  rfl

private theorem linked_declare (parameters : List Node) :
    P (liftM ((parameters.map (Job.of handle)).mapM declare))
      (liftM ((parameters.map (Job.of handle')).mapM declare)) := by
  simp only [List.mapM_map, Function.comp_def, declare_of]
  refine hP.lift_mapM _ fun p _ => ?_
  split
  · exact hP.lift_bind (hP.use _) fun _ => hP.lift_pure _
  · exact hP.lift_pure _

private theorem linked_supplyDefault {p : Node}
    (h : ∀ k ∈ p.descendants, P (handle k) (handle' k)) :
    P (supplyDefault (Job.of handle p)) (supplyDefault (Job.of handle' p)) := by
  have hdefault := hP.child h (ascii "default")
  simp only [supplyDefault, parameterDefault, parameterName, Job.fields_of, Job.node_of,
    Fields.child?_map] at hdefault ⊢
  cases hchild : Fields.child? p.fields (ascii "default") with
  | none => exact hP.pure _
  | some q =>
    rw [hchild] at hdefault
    exact hP.bind (hP.emit _) fun _ => hP.inBlock (hP.bind hdefault fun _ => hP.emit _)

theorem linked_function : Linked m m' P function function := by
  intro parsers n handle handle' h
  have := hP.lawful
  have := hP.lawful'
  have hbody := hP.bodyOf h 1
  unfold function signatureOf
  simp only [argument_map] at hbody ⊢
  cases hsignature : argument n.fields 0 with
  | none => exact hP.throw_bind _ _ _
  | some s =>
    have hs := Node.mem_descendants_of_mem_parts (mem_nodes_of_argument hsignature)
    simp only [Option.map_some, Job.node_of]
    split
    case isFalse => exact hP.throw_bind _ _ _
    have hparameters : ∀ {m : Type → Type} (handle : Node → m Result),
        parametersOf (Job.of handle s) =
          ((Fields.children s.fields (ascii "arguments")).filterMap id).map (Job.of handle) := by
      intro m handle
      rw [parametersOf, Job.fields_of, Fields.filterMap_children]
    simp only [pure_bind, hparameters, Job.node_of]
    refine hP.bind (linked_declare hP _) fun _ => hP.bind (hP.mark _) fun _ =>
      hP.bind (hP.emit _) fun _ => hP.bind (hP.inBlock ?_) fun _ => hP.pure _
    refine hP.bind (hP.forM_map _ fun p hp => linked_supplyDefault hP fun k hk => h k ?_)
      fun _ => hbody
    exact Node.descendants_trans hs
      (Node.descendants_trans (Node.mem_descendants_of_mem_filterMap hp) hk)

theorem linked_importModule : Linked m m' P importModule importModule := by
  intro parsers n _ _ h
  refine hP.bind (hP.read _) fun m => hP.bind (hP.mark _) fun _ => ?_
  split
  · exact hP.bind (hP.use _) fun _ => hP.bind (hP.emit _) fun _ => hP.pure _
  · exact hP.bind (hP.emit _) fun _ => hP.pure _

theorem linked_importAs : Linked m m' P importAs importAs := by
  intro parsers n _ _ h
  refine hP.bind (hP.read _) fun m => ?_
  simp only
  split
  · exact hP.throw_bind _ _ _
  · refine hP.bind (hP.mark _) fun _ => ?_
    split
    · exact hP.bind (hP.use _) fun _ => hP.bind (hP.emit _) fun _ => hP.pure _
    · exact hP.bind (hP.emit _) fun _ => hP.pure _

theorem linked_fromImport : Linked m m' P fromImport fromImport := by
  intro parsers n _ _ h
  refine hP.bind (hP.read _) fun m => hP.bind (hP.read _) fun names =>
    hP.bind (hP.mark _) fun _ => ?_
  split
  · exact hP.bind (hP.use _) fun _ => hP.bind (hP.emit _) fun _ => hP.pure _
  · exact hP.bind (hP.emit _) fun _ => hP.pure _

end Handler

/-- **The standard handlers respect every congruence.** -/
theorem Form.linked (f : Form) : Handler.Linked m m' P f.handler f.handler :=
  match f with
  | generic => Handler.linked_rebuild hP _
  | root => Handler.linked_rebuild hP _
  | interpolation => Handler.linked_interpolation hP
  | argumentInterpolation => Handler.linked_argumentInterpolation hP
  | binary => Handler.linked_binary hP
  | unary => Handler.linked_unary hP
  | value => fun _ _ _ _ _ => hP.pure _
  | identifier => fun _ _ _ _ _ => hP.pure _
  | targetIdentifier => fun _ _ _ _ _ => hP.pure _
  | formatString => Handler.linked_formatString hP
  | tuple => Handler.linked_tuple hP
  | list => Handler.linked_list hP
  | dict => Handler.linked_dict hP
  | attributeOf => Handler.linked_attributeOf hP
  | lookup => Handler.linked_lookup hP
  | call => Handler.linked_call hP
  | assignment => Handler.linked_assignment hP
  | statement => Handler.linked_expressionStatement hP
  | function => Handler.linked_function hP
  | control keyword => Handler.linked_control hP keyword
  | branch keyword => Handler.linked_branch hP keyword
  | otherwise => Handler.linked_otherwise hP
  | loop => Handler.linked_loop hP
  | importModule => Handler.linked_importModule hP
  | importAs => Handler.linked_importAs hP
  | fromImport => Handler.linked_fromImport hP

end ScriptSplice
