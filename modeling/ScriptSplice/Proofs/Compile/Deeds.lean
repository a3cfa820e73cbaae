import ScriptSplice.Compiler
import ScriptSplice.Proofs.Compile.Closed
import ScriptSplice.Proofs.Compile.Loop
/-!
# What actions do

Besides building expressions an action compiles nodes, splices sequences,
writes lines, and asks for what stands for an argument that was not given.
Which of these deeds it does is read off the way it is built
(`Compile.Does`), so the deeds of a rule are plain from its node, and what
is true of deeds carries over to the actions that do them.
-/

namespace ScriptSplice

open Compile

variable {α β : Type}

/-- **A deed**: what an action does besides building expressions. -/
inductive Compile.Deed where
  /-- Compiles a node. -/
  | compile (n : Node)
  /-- Splices a sequence of children. -/
  | splice (collection : Collection) (children : List (Option Node))
  /-- Writes a line, if there is one to write. -/
  | write
  /-- Asks for what stands for an argument that was not given. -/
  | lack

namespace Compile.Deed

/-- The nodes that a deed compiles. -/
def nodes : Deed → List Node
  | compile n => [n]
  | splice _ children => children.filterMap id
  | write | lack => []

/-- Whether a deed writes no line of its own. -/
def isQuiet : Deed → Bool
  | compile _ | lack => true
  | splice collection _ => collection == .generic
  | write => false

theorem mem_nodes_splice {collection : Collection} {children : List (Option Node)} {n : Node} :
    n ∈ (splice collection children).nodes ↔ some n ∈ children := by
  simp [nodes]

theorem nodes_compile (ns : List Node) : (ns.map compile).flatMap nodes = ns := by
  rw [List.flatMap_map]
  exact List.flatMap_singleton' ns

end Compile.Deed

/-- Something is lacking that a node cannot be compiled without. -/
def Compile.Cause.isAbsence : Cause → Bool
  | missingOperand | missingBody => true
  | _ => false

/-- **The deeds of an action**, in order. An action that fails is ready to
do any, and it fails for want of something only if `P`. -/
inductive Compile.Does (c : Compiler) (P : Prop) : List Deed → {α : Type} → Compile α → Prop
  | pure {α : Type} (a : α) : Does c P [] (Pure.pure a)
  | throw {α : Type} (deeds : List Deed) {e : Failure} : (e.cause.isAbsence = true → P) →
      Does c P deeds (MonadExcept.throw e : Compile α)
  | bind_of_ok {α β : Type} {xs ys : List Deed} {act : Compile α} {next : α → Compile β} :
      Does c P xs act → (∀ a d d', exec act d = (.ok a, d') → Does c P ys (next a)) →
      Does c P (xs ++ ys) (act >>= next)
  | inBlock {α : Type} {xs : List Deed} {act : Compile α} : Does c P xs act →
      Does c P xs (inBlock act)
  | emit (s : Stmt) : Does c P [.write] (liftM (Drafting.emit s))
  /-- There is no line to write. -/
  | skip {α : Type} (a : α) : Does c P [.write] (Pure.pure a)
  | ref (n : Option Node) : Does c P [] (liftM (Drafting.ref n))
  | use {h : Helper} : h ≠ .missing → Does c P [] (liftM (Drafting.use h))
  | lack : Does c P [.lack] (liftM (Drafting.use .missing))
  | note (e : Event) : Does c P [] (liftM (Drafting.note e))
  | run (n : Node) : Does c P [.compile n] (c.part n).run
  | splice (collection : Collection) (children : List (Option Node)) :
      Does c P [.splice collection children] (splice collection (children.map (·.map c.part)))

namespace Compile.Does

variable {c : Compiler} {P : Prop} {xs ys : List Deed} {act : Compile α}

/-! ## Actions -/

theorem bind {next : α → Compile β} (h : Does c P xs act) (hnext : ∀ a, Does c P ys (next a)) :
    Does c P (xs ++ ys) (act >>= next) :=
  h.bind_of_ok fun a _ _ _ => hnext a

/-- The first action does nothing. -/
theorem after {next : α → Compile β} (h : Does c P [] act) (hnext : ∀ a, Does c P ys (next a)) :
    Does c P ys (act >>= next) :=
  h.bind hnext

/-- The second action does nothing. -/
theorem next {next : α → Compile β} (h : Does c P xs act) (hnext : ∀ a, Does c P [] (next a)) :
    Does c P xs (act >>= next) := by
  have hbind := h.bind hnext
  rwa [List.append_nil] at hbind

theorem mapM {deeds : α → List Deed} {f : α → Compile β} (l : List α)
    (h : ∀ a ∈ l, Does c P (deeds a) (f a)) : Does c P (l.flatMap deeds) (l.mapM f) := by
  induction l with
  | nil => exact .pure _
  | cons a l ih =>
    rw [List.mapM_cons, List.flatMap_cons]
    refine (h a List.mem_cons_self).bind fun _ => (ih fun b hb => ?_).next fun _ => .pure _
    exact h b (List.mem_cons_of_mem _ hb)

theorem forM {deeds : α → List Deed} {f : α → Compile Unit} (l : List α)
    (h : ∀ a ∈ l, Does c P (deeds a) (f a)) : Does c P (l.flatMap deeds) (l.forM f) := by
  induction l with
  | nil => exact .pure _
  | cons a l ih =>
    rw [List.flatMap_cons]
    exact (h a List.mem_cons_self).bind fun _ => ih fun b hb => h b (List.mem_cons_of_mem _ hb)

/-- Reading a node does nothing. -/
theorem read {x : Except Failure α} (h : ∀ f, x = .error f → f.cause.isAbsence = false) :
    Does c P [] (liftExcept x) := by
  cases x with
  | error f => exact .throw _ fun habsent => absurd (h f rfl) (by simp [habsent])
  | ok a => exact .pure a

/-- An unknown place has no mark. -/
theorem mark (place : Location) : Does c P [.write] (liftM (Drafting.mark place)) := by
  unfold Drafting.mark
  cases place.line? with
  | none => exact .skip ()
  | some line => exact .emit _

theorem apply {h : Helper} (hne : h ≠ .missing) (args : List Expr) :
    Does c P [] (liftM (Drafting.apply h args)) :=
  (Does.use hne).after fun _ => .pure _

/-! ## What rules do with parts -/

theorem single? (n : Node) : Does c P [.compile n] (single? (c.part n)) := by
  refine (Does.run n).next fun r => ?_
  match r with
  | none => exact .pure _
  | some [e] => exact .pure _
  | some [] | some (_ :: _ :: _) => exact .throw _ nofun

theorem operand? (o : Option Node) :
    Does c P (o.toList.map .compile) (operand? (o.map c.part)) := by
  cases o with
  | none => exact .pure _
  | some n => exact .single? n

theorem required {o : Option Node} (h : o = none → P) :
    Does c P (o.toList.map .compile) (required (o.map c.part)) := by
  cases o with
  | none => exact .throw _ fun _ => h rfl
  | some n =>
    refine (Does.single? n).next fun e => ?_
    cases e with
    | none => exact .ref _
    | some e => exact .pure _

end Compile.Does

/-- What is done with the value of a field when a node is rebuilt. -/
def Value.deeds (collection : Collection) : Value Node → List Deed
  | leaf _ => []
  | child m => m.toList.map .compile
  | children cs => [.splice collection cs]

theorem Value.nodes_deeds (collection : Collection) (v : Value Node) :
    (v.deeds collection).flatMap Deed.nodes = v.nodes := by
  cases v with
  | leaf l => rfl
  | child m => exact Deed.nodes_compile _
  | children cs => exact List.append_nil _

/-- What is done for the commands of a body. -/
def Node.bodyDeeds (n : Node) : List Deed :=
  [.splice .command (n.children (ascii "commands")), .write]

namespace Compile.Does

variable {c : Compiler} {P : Prop}

theorem changedField (collection : Collection) (f : Field Node) :
    Does c P (f.value.deeds collection) (changedField collection (f.map c.part)) := by
  obtain ⟨name, value⟩ := f
  cases value with
  | leaf l => exact .pure _
  | child m => exact (Does.operand? m).next fun _ => .pure _
  | children cs => exact (Does.splice collection cs).next fun _ => .pure _

theorem rebuild (collection : Collection) (n : Node) :
    Does c P (n.fields.flatMap fun f => f.value.deeds collection)
      (rebuild collection n (Fields.map c.part n.fields)) := by
  unfold Compile.rebuild
  rw [Fields.map, List.mapM_map]
  refine (Does.mapM _ fun f _ => .changedField collection f).next fun changes => ?_
  split
  · exact .pure _
  · exact (Does.ref _).after fun _ => (Does.apply (by simp) _).after fun _ => .pure _

theorem body (n : Node) :
    Does c P n.bodyDeeds (body .command n (Fields.map c.part n.fields)) := by
  unfold Compile.body
  rw [Fields.children_map]
  refine (Does.splice .command _).bind fun r => ?_
  cases r with
  | none => exact (Does.ref _).after fun _ => .emit _
  | some _ => exact .skip ()

end Compile.Does

namespace Compile

/-- A part of a sequence is that of one of its children. -/
theorem exists_of_mem_parts {c : Compiler} {children : List (Option Node)} {p : Part}
    (h : some p ∈ children.map (·.map c.part)) : ∃ n, some n ∈ children ∧ p = c.part n := by
  obtain ⟨child, hchild, heq⟩ := List.mem_map.1 h
  obtain ⟨n, rfl, rfl⟩ := Option.map_eq_some_iff.1 heq
  exact ⟨n, hchild, rfl⟩

/-- **An action keeps every frame** that compiling its nodes keeps. -/
theorem Does.keeps {c : Compiler} {P : Prop} {xs : List Deed} {act : Compile α}
    {R : Draft → Draft → Prop} (hR : Frame R) (h : Does c P xs act)
    (hnodes : ∀ x ∈ xs, ∀ n ∈ x.nodes, Keeps R (c.part n).run) : Keeps R act := by
  induction h with
  | pure | skip => exact hR.pure _
  | throw => exact hR.throw _
  | bind_of_ok _ _ ih ihnext =>
    rw [List.forall_mem_append] at hnodes
    exact hR.bind_of_ok (ih hnodes.1) fun a d d' hact => ihnext a d d' hact hnodes.2
  | inBlock _ ih => exact hR.inBlock (ih hnodes)
  | emit s => exact Frame.lift (hR.emit · s)
  | ref n => exact Frame.lift (hR.ref · n)
  | use | lack => exact Frame.lift (hR.use · _)
  | note e => exact Frame.lift (hR.note · e)
  | run n => exact hnodes _ List.mem_cons_self n List.mem_cons_self
  | splice collection children =>
    refine hR.splice collection _ fun p hp => ?_
    obtain ⟨n, hn, rfl⟩ := exists_of_mem_parts hp
    exact hnodes _ List.mem_cons_self n (Deed.mem_nodes_splice.2 hn)

end Compile

end ScriptSplice
