import ScriptSplice.Proofs.Compile.Frame
import ScriptSplice.Proofs.Tree.Subtree
/-!
# Congruences of actions

The actions of rules are built from a few operations: writing a statement,
referring to a node, splicing a sequence, and so on, in any monad that has
them. A relation between the actions of two monads is a congruence if
building keeps it (`Compile.Congruence`). What every rule does with the
parts of its node is related then, as soon as the work on those parts is.

A family of actions of one monad is closed under building if relating its
members to anything is a congruence (`Compile.Closed`). The actions that
keep a frame are such a family (`Frame.closed`).
-/

namespace ScriptSplice

open Compile

variable {α β γ δ : Type}

/-- Parts on either side form a pair: they are the same node, and the work
on it is related. -/
structure Compile.Paired (m m' : Type → Type) (P : ∀ {α : Type}, m α → m' α → Prop)
    (p : Part m) (p' : Part m') : Prop where
  node : p'.node = p.node
  run : P p.run p'.run

/-- Jobs of one node are a pair if the work on it is related. -/
theorem Compile.Paired.of {m m' : Type → Type} {P : ∀ {α : Type}, m α → m' α → Prop}
    {handle : Node → m Result} {handle' : Node → m' Result} {n : Node}
    (h : P (handle n) (handle' n)) : Paired m m' P (Job.of handle n) (Job.of handle' n) where
  node := by rw [Job.node_of, Job.node_of]
  run := by rwa [Job.run_of, Job.run_of]

/-- **A relation between actions that building keeps.** What comes after a
failure does not matter. -/
structure Compile.Congruence (m m' : Type → Type) [Monad m] [MonadExceptOf Failure m]
    [MonadLiftT Drafting m] [HasBlocks m] [Monad m'] [MonadExceptOf Failure m']
    [MonadLiftT Drafting m'] [HasBlocks m'] (P : ∀ {α : Type}, m α → m' α → Prop) : Prop where
  lawful : LawfulMonad m
  lawful' : LawfulMonad m'
  lawful_lift : LawfulMonadLiftT Drafting m
  lawful_lift' : LawfulMonadLiftT Drafting m'
  pure {α : Type} (a : α) : P (Pure.pure a) (Pure.pure a)
  throw {α : Type} (e : Failure) : P (MonadExcept.throw e : m α) (MonadExcept.throw e)
  bind {α β : Type} {act : m α} {act' : m' α} {next : α → m β} {next' : α → m' β} :
    P act act' → (∀ a, P (next a) (next' a)) → P (act >>= next) (act' >>= next')
  throw_bind {α α' β : Type} (e : Failure) (next : α → m β) (next' : α' → m' β) :
    P (MonadExcept.throw e >>= next) (MonadExcept.throw e >>= next')
  inBlock {α : Type} {act : m α} {act' : m' α} : P act act' → P (inBlock act) (inBlock act')
  emit (s : Stmt) : P (liftM (Drafting.emit s)) (liftM (Drafting.emit s))
  ref (n : Option Node) : P (liftM (Drafting.ref n)) (liftM (Drafting.ref n))
  use (h : Helper) : P (liftM (Drafting.use h)) (liftM (Drafting.use h))
  note (e : Event) : P (liftM (Drafting.note e)) (liftM (Drafting.note e))
  splice {ι : Type} (collection : Collection) {items : List (Option ι)} {part : ι → Part m}
    {part' : ι → Part m'} : (∀ i, some i ∈ items → Paired m m' P (part i) (part' i)) →
    P (splice collection (items.map (Option.map part)))
      (splice collection (items.map (Option.map part')))

/-- **A family of actions on a draft that is closed under building.** -/
abbrev Compile.Closed (P : ∀ {α : Type}, Compile α → Prop) : Prop :=
  Congruence Compile Compile fun {_} act _ => P act

namespace Compile.Congruence

variable {m m' : Type → Type} [Monad m] [MonadExceptOf Failure m] [MonadLiftT Drafting m]
  [HasBlocks m] [Monad m'] [MonadExceptOf Failure m'] [MonadLiftT Drafting m'] [HasBlocks m']
  {P : ∀ {α : Type}, m α → m' α → Prop} (hP : Congruence m m' P)

include hP

/-! ## Actions -/

theorem map (f : α → β) {act : m α} {act' : m' α} (h : P act act') :
    P (f <$> act) (f <$> act') := by
  have := hP.lawful
  have := hP.lawful'
  rw [map_eq_pure_bind, map_eq_pure_bind]
  exact hP.bind h fun _ => hP.pure _

theorem mapM {f : α → m β} {f' : α → m' β} (l : List α) (h : ∀ a ∈ l, P (f a) (f' a)) :
    P (l.mapM f) (l.mapM f') := by
  have := hP.lawful
  have := hP.lawful'
  induction l with
  | nil => exact hP.pure _
  | cons a l ih =>
    rw [List.mapM_cons, List.mapM_cons]
    refine hP.bind (h a List.mem_cons_self) fun _ => hP.bind (ih ?_) fun _ => hP.pure _
    exact fun b hb => h b (List.mem_cons_of_mem _ hb)

/-- The same of what becomes of a list. -/
theorem mapM_map {g : α → β} {g' : α → δ} {f : β → m γ} {f' : δ → m' γ} (l : List α)
    (h : ∀ a ∈ l, P (f (g a)) (f' (g' a))) : P ((l.map g).mapM f) ((l.map g').mapM f') := by
  have := hP.lawful
  have := hP.lawful'
  rw [List.mapM_map, List.mapM_map]
  exact hP.mapM l h

theorem forM_map {g : α → β} {g' : α → δ} {f : β → m Unit} {f' : δ → m' Unit} (l : List α)
    (h : ∀ a ∈ l, P (f (g a)) (f' (g' a))) : P ((l.map g).forM f) ((l.map g').forM f') := by
  induction l with
  | nil => exact hP.pure _
  | cons a l ih =>
    exact hP.bind (h a List.mem_cons_self) fun _ =>
      ih fun b hb => h b (List.mem_cons_of_mem _ hb)

/-- Reading a node leaves the draft alone. -/
theorem read (x : Except Failure α) : P (liftExcept x) (liftExcept x) := by
  cases x with
  | error e => exact hP.throw e
  | ok a => exact hP.pure a

/-- Actions on a draft, one after another. -/
theorem lift_bind {act : Drafting α} {next : α → Drafting β} (h : P (liftM act) (liftM act))
    (hnext : ∀ a, P (liftM (next a)) (liftM (next a))) :
    P (liftM (act >>= next)) (liftM (act >>= next)) := by
  have := hP.lawful_lift
  have := hP.lawful_lift'
  rw [liftM_bind, liftM_bind]
  exact hP.bind h hnext

theorem lift_pure (a : α) :
    P (liftM (Pure.pure a : Drafting α)) (liftM (Pure.pure a : Drafting α)) := by
  have := hP.lawful_lift
  have := hP.lawful_lift'
  rw [liftM_pure, liftM_pure]
  exact hP.pure a

theorem lift_mapM {f : α → Drafting β} (l : List α)
    (h : ∀ a ∈ l, P (liftM (f a)) (liftM (f a))) : P (liftM (l.mapM f)) (liftM (l.mapM f)) := by
  induction l with
  | nil => exact hP.lift_pure _
  | cons a l ih =>
    rw [List.mapM_cons]
    refine hP.lift_bind (h a List.mem_cons_self) fun _ =>
      hP.lift_bind (ih ?_) fun _ => hP.lift_pure _
    exact fun b hb => h b (List.mem_cons_of_mem _ hb)

theorem mark (place : Location) :
    P (liftM (Drafting.mark place)) (liftM (Drafting.mark place)) := by
  unfold Drafting.mark
  cases place.line? with
  | none => exact hP.lift_pure ()
  | some line => exact hP.emit _

theorem apply (h : Helper) (args : List Expr) :
    P (liftM (Drafting.apply h args)) (liftM (Drafting.apply h args)) :=
  hP.lift_bind (hP.use h) fun _ => hP.lift_pure _

/-! ## What rules do with parts -/

theorem single? {p : Part m} {p' : Part m'} (h : Paired m m' P p p') :
    P (single? p) (single? p') := by
  unfold Compile.single?
  rw [h.node]
  refine hP.bind h.run fun r => ?_
  match r with
  | none => exact hP.pure _
  | some [] => exact hP.throw _
  | some [e] => exact hP.pure _
  | some (_ :: _ :: _) => exact hP.throw _

variable {ι : Type} {part : ι → Part m} {part' : ι → Part m'}

theorem operand? {o : Option ι} (h : ∀ i, o = some i → Paired m m' P (part i) (part' i)) :
    P (operand? (o.map part)) (operand? (o.map part')) := by
  cases o with
  | none => exact hP.pure _
  | some i => exact hP.single? (h i rfl)

theorem required {o : Option ι} (h : ∀ i, o = some i → Paired m m' P (part i) (part' i)) :
    P (required (o.map part)) (required (o.map part')) := by
  cases o with
  | none => exact hP.throw _
  | some i =>
    refine hP.bind (hP.single? (h i rfl)) fun e => ?_
    cases e with
    | none =>
      rw [(h i rfl).node]
      exact hP.ref _
    | some e => exact hP.pure _

variable {fields : Fields ι}

theorem rebuild (collection : Collection) (n : Node)
    (h : ∀ i ∈ Fields.nodes fields, Paired m m' P (part i) (part' i)) :
    P (rebuild collection n (Fields.map part fields))
      (rebuild collection n (Fields.map part' fields)) := by
  refine hP.bind (hP.mapM_map fields fun f hf => ?_) fun changes => ?_
  · obtain ⟨name, value⟩ := f
    cases value with
    | leaf l => exact hP.pure _
    | child c =>
      refine hP.bind (hP.operand? fun i hi => h i (Fields.mem_nodes hf ?_)) fun _ => hP.pure _
      simp [hi, Value.nodes]
    | children cs =>
      refine hP.bind (hP.splice collection fun i hi => h i (Fields.mem_nodes hf ?_))
        fun _ => hP.pure _
      simpa [Value.nodes] using hi
  · split
    · exact hP.pure _
    · exact hP.bind (hP.ref _) fun _ => hP.bind (hP.apply _ _) fun _ => hP.pure _

theorem body (collection : Collection) (n : Node)
    (h : ∀ i ∈ Fields.nodes fields, Paired m m' P (part i) (part' i)) :
    P (body collection n (Fields.map part fields))
      (body collection n (Fields.map part' fields)) := by
  rw [Compile.body, Compile.body, Fields.children_map, Fields.children_map]
  refine hP.bind (hP.splice collection fun i hi => h i (Fields.mem_nodes_of_children hi))
    fun r => ?_
  cases r with
  | some _ => exact hP.pure _
  | none => exact hP.bind (hP.ref _) fun _ => hP.emit _

end Compile.Congruence

/-! ## Relations with all actions on drafts -/

section

variable {m m' : Type → Type} [Monad m] [MonadLiftT Drafting m] [Monad m']
  [MonadLiftT Drafting m'] {P : ∀ {α : Type}, m α → m' α → Prop}
  (hpure : ∀ {α : Type} (a : α), P (Pure.pure a : m α) (Pure.pure a : m' α))
  (hbind : ∀ {α β : Type} {act : m α} {act' : m' α} {next : α → m β} {next' : α → m' β},
    P act act' → (∀ a, P (next a) (next' a)) → P (act >>= next) (act' >>= next'))
  (hlift : ∀ {α : Type} (act : Drafting α), P (liftM act : m α) (liftM act : m' α))
  {ι : Type} {part : ι → Part m} {part' : ι → Part m'}

include hpure hbind hlift

theorem Compile.Splice.loop_of_lift (collection : Collection) (count : Nat) (s : Splice)
    (items : List (Option ι × Nat))
    (h : ∀ c ∈ items, ∀ i, c.1 = some i → Paired m m' P (part i) (part' i)) :
    P (items.foldlM (fun s c => step collection count s (c.1.map part, c.2)) s)
      (items.foldlM (fun s c => step collection count s (c.1.map part', c.2)) s) := by
  induction items generalizing s with
  | nil => exact hpure s
  | cons c items ih =>
    rw [List.foldlM_cons, List.foldlM_cons]
    refine hbind ?_ fun s => ih s fun c hc => h c (List.mem_cons_of_mem _ hc)
    obtain ⟨_ | i, k⟩ := c
    · exact hpure _
    · have hpart := h _ List.mem_cons_self i rfl
      simp only [Option.map_some, step, hpart.node]
      refine hbind hpart.run fun r => ?_
      cases r with
      | none => exact hpure _
      | some fragments => exact hbind (hlift _) fun _ => hlift _

/-- **Splicing is related** if all work on drafts is. -/
theorem Compile.splice_of_lift (collection : Collection) {items : List (Option ι)}
    (h : ∀ i, some i ∈ items → Paired m m' P (part i) (part' i)) :
    P (splice collection (items.map (Option.map part)))
      (splice collection (items.map (Option.map part'))) := by
  simp only [splice, List.zipIdx_map, List.foldlM_map, List.length_map, Prod.map, id]
  refine hbind (hlift _) fun d => hbind ?_ fun s => hlift _
  refine Splice.loop_of_lift hpure hbind hlift collection _ _ _ fun c hc i hi => h i ?_
  exact hi ▸ (List.mem_zipIdx hc).2.2 ▸ List.getElem_mem _

end

/-! ## Families of actions on drafts -/

namespace Compile.Closed

variable {P : ∀ {α : Type}, Compile α → Prop} (hP : Closed P)

include hP

theorem bind {act : Compile α} {next : α → Compile β} (h : P act) (hnext : ∀ a, P (next a)) :
    P (act >>= next) := @Congruence.bind _ _ _ _ _ _ _ _ _ _ _ hP _ _ act act next next h hnext

omit hP in
/-- A part is paired with itself. -/
private theorem paired {p : Part} (h : P p.run) :
    Paired Compile Compile (fun {_} act _ => P act) (id p) (id p) := ⟨rfl, h⟩

theorem operand? {o : Option Part} (h : ∀ p, o = some p → P p.run) : P (operand? o) := by
  simpa using Congruence.operand? hP fun p hp => paired (h p hp)

theorem required {o : Option Part} (h : ∀ p, o = some p → P p.run) : P (required o) := by
  simpa using Congruence.required hP fun p hp => paired (h p hp)

variable {fields : Fields Part} (h : ∀ p ∈ Fields.nodes fields, P p.run)

include h

theorem rebuild (collection : Collection) (n : Node) : P (rebuild collection n fields) := by
  have hmap := Congruence.rebuild hP collection n fun p hp => paired (h p hp)
  rwa [Fields.map_id] at hmap

theorem body (collection : Collection) (n : Node) : P (body collection n fields) := by
  have hmap := Congruence.body hP collection n fun p hp => paired (h p hp)
  rwa [Fields.map_id] at hmap

end Compile.Closed

/-- What holds of some parts holds of their images in a list. -/
theorem Compile.forall_mem_map {ι : Type} {P : Part → Prop} {part : ι → Part}
    {items : List (Option ι)} (h : ∀ i, some i ∈ items → P (part i)) (p : Part)
    (hp : some p ∈ items.map (Option.map part)) : P p := by
  obtain ⟨o, ho, hmap⟩ := List.mem_map.1 hp
  obtain ⟨i, rfl, rfl⟩ := Option.map_eq_some_iff.1 hmap
  exact h i ho

/-- **The actions that keep a frame.** -/
theorem Frame.closed {R : Draft → Draft → Prop} (hR : Frame R) : Closed (Keeps R) where
  lawful := inferInstance
  lawful' := inferInstance
  lawful_lift := inferInstance
  lawful_lift' := inferInstance
  pure := hR.pure
  throw := hR.throw
  bind := hR.bind
  throw_bind _ _ _ := hR.refl
  inBlock := hR.inBlock
  emit s := Frame.lift (hR.emit · s)
  ref n := Frame.lift (hR.ref · n)
  use h := Frame.lift (hR.use · h)
  note e := Frame.lift (hR.note · e)
  splice collection _ _ _ h := hR.splice collection _ (forall_mem_map fun i hi => (h i hi).run)

end ScriptSplice
