import ScriptSplice.Compile.Children
/-!
# Outcomes of actions

`exec` is what an action gives on a draft, together with the draft it
leaves. The equations here say what that is for each way of building an
action, so that no later proof looks inside the monad. An action that
cannot fail is a function of the draft, and its equations are those of
the function.
-/

namespace ScriptSplice

variable {α β γ : Type}

namespace Compile

/-- What an action gives on a draft, and the draft it leaves. -/
def exec (act : Compile α) (d : Draft) : Except Failure α × Draft := act.run.run d

@[simp] theorem exec_pure (a : α) (d : Draft) : exec (pure a) d = (.ok a, d) := rfl

/-- The second action runs on the draft of the first, if the first gave
something. -/
theorem exec_bind (act : Compile α) (next : α → Compile β) (d : Draft) :
    exec (act >>= next) d =
      match exec act d with
      | (.ok a, d') => exec (next a) d'
      | (.error e, d') => (.error e, d') := by
  simp only [exec, ExceptT.run_bind, StateT.run_bind]
  change (match act.run.run d with | (r, d') => _) = _
  rcases act.run.run d with ⟨_ | a, d'⟩ <;> rfl

theorem exec_bind_of_ok {act : Compile α} {next : α → Compile β} {d d' : Draft} {a : α}
    (h : exec act d = (.ok a, d')) : exec (act >>= next) d = exec (next a) d' := by
  rw [exec_bind, h]

theorem exec_bind_of_error {act : Compile α} {next : α → Compile β} {d d' : Draft} {e : Failure}
    (h : exec act d = (.error e, d')) : exec (act >>= next) d = (.error e, d') := by
  rw [exec_bind, h]

/-- Two actions in a row give something only if both do. -/
theorem exec_bind_eq_ok {act : Compile α} {next : α → Compile β} {d d'' : Draft} {b : β}
    (h : exec (act >>= next) d = (.ok b, d'')) :
    ∃ a d', exec act d = (.ok a, d') ∧ exec (next a) d' = (.ok b, d'') := by
  rw [exec_bind] at h
  rcases hact : exec act d with ⟨_ | a, d'⟩
  · simp [hact] at h
  · exact ⟨a, d', rfl, by simpa only [hact] using h⟩

@[simp] theorem exec_throw (e : Failure) (d : Draft) :
    exec (throw e : Compile α) d = (.error e, d) := rfl

/-- What was written before a failure stays when it is handled. -/
theorem exec_tryCatch (act : Compile α) (handle : Failure → Compile α) (d : Draft) :
    exec (tryCatch act handle) d =
      match exec act d with
      | (.ok a, d') => (.ok a, d')
      | (.error e, d') => exec (handle e) d' := by
  simp only [exec, ExceptT.run_tryCatch, StateT.run_bind]
  change (match act.run.run d with | (r, d') => _) = _
  rcases act.run.run d with ⟨_ | a, d'⟩ <;> rfl

@[simp] theorem exec_failAt (n : Node) (cause : Cause) (d : Draft) :
    exec (failAt n cause : Compile α) d = (.error ⟨cause, n.location⟩, d) := rfl

@[simp] theorem exec_fail (cause : Cause) (d : Draft) :
    exec (fail cause : Compile α) d = (.error ⟨cause, .unknown⟩, d) := rfl

@[simp] theorem exec_lift (act : Drafting α) (d : Draft) :
    exec (liftM act) d = (.ok (act d).1, (act d).2) := rfl

/-- An action that cannot fail for every element of a list. -/
theorem liftM_mapM (f : α → Drafting β) (l : List α) :
    (liftM (l.mapM f) : Compile (List β)) = l.mapM fun a => (liftM (f a) : Compile β) := by
  induction l with
  | nil => rfl
  | cons a l ih =>
    rw [List.mapM_cons, List.mapM_cons, ← ih]
    rfl

@[simp] theorem exec_monadLift (act : Drafting α) (d : Draft) :
    exec (MonadLift.monadLift act) d = (.ok (act d).1, (act d).2) := rfl

theorem exec_get (d : Draft) : exec (liftM (get : Drafting Draft)) d = (.ok d, d) := rfl

@[simp] theorem exec_map (f : α → β) (act : Compile α) (d : Draft) :
    exec (f <$> act) d = ((exec act d).1.map f, (exec act d).2) := by
  rw [map_eq_pure_bind, exec_bind]
  rcases exec act d with ⟨_ | a, d'⟩ <;> rfl

@[simp] theorem exec_liftExcept (x : Except Failure α) (d : Draft) :
    exec (liftExcept x) d = (x, d) := by
  cases x <;> rfl

/-- A block starts one level deeper and comes back to its depth on either
outcome. -/
@[simp] theorem exec_inBlock (act : Compile α) (d : Draft) :
    exec (inBlock act) d =
      ((exec act { d with depth := d.depth + 1 }).1,
        { (exec act { d with depth := d.depth + 1 }).2 with depth := d.depth }) := rfl

end Compile

/-! ## Actions that cannot fail -/

namespace Drafting

variable (d : Draft)

@[simp] theorem pure_apply (a : α) : (pure a : Drafting α) d = (a, d) := rfl

@[simp] theorem bind_apply (act : Drafting α) (next : α → Drafting β) :
    (act >>= next) d = next (act d).1 (act d).2 := rfl

@[simp] theorem map_apply (f : α → β) (act : Drafting α) :
    (f <$> act) d = (f (act d).1, (act d).2) := rfl

@[simp] theorem get_apply : (get : Drafting Draft) d = (d, d) := rfl

@[simp] theorem emit_apply (s : Stmt) :
    emit s d = ((), { d with lines := d.lines ++ [⟨d.depth, s⟩] }) := rfl

@[simp] theorem ref_apply (n : Option Node) :
    ref n d = (.ref d.refs.length, { d with refs := d.refs ++ [n] }) := rfl

@[simp] theorem slice_apply (ns : List (Option Node)) :
    slice ns d =
      (.slice d.refs.length (d.refs.length + ns.length), { d with refs := d.refs ++ ns }) := rfl

@[simp] theorem freshVariable_apply :
    freshVariable d = (d.fresh, { d with fresh := d.fresh + 1 }) := rfl

@[simp] theorem use_apply (h : Helper) :
    use h d = ((), if h ∈ d.helpers then d else { d with helpers := d.helpers ++ [h] }) := rfl

@[simp] theorem lines_use (h : Helper) (d : Draft) : (use h d).2.lines = d.lines := by
  rw [use_apply]
  split <;> rfl

@[simp] theorem refs_use (h : Helper) (d : Draft) : (use h d).2.refs = d.refs := by
  rw [use_apply]
  split <;> rfl

@[simp] theorem fresh_use (h : Helper) (d : Draft) : (use h d).2.fresh = d.fresh := by
  rw [use_apply]
  split <;> rfl

/-- The helpers in use are those there were and the one taken into use. -/
theorem mem_helpers_use {g h : Helper} {d : Draft} :
    g ∈ (use h d).2.helpers ↔ g ∈ d.helpers ∨ g = h := by
  rw [use_apply]
  split
  · rename_i hmem
    exact ⟨.inl, fun hg => hg.elim id fun heq => heq ▸ hmem⟩
  · rw [List.mem_append, List.mem_singleton]

@[simp] theorem apply_apply (h : Helper) (args : List Expr) :
    apply h args d = (.apply h args, (use h d).2) := rfl

@[simp] theorem missing_apply : missing d = (.missing, (use .missing d).2) := rfl

@[simp] theorem children_apply (items : List Expr) :
    children items d = (.apply .children [.list items], (use .children d).2) := rfl

@[simp] theorem replace_apply (node : Expr) (fields : List (Text × Expr)) :
    replace node fields d =
      (.apply .replace (node :: fields.map fun f => .keyword f.1 f.2), (use .replace d).2) := rfl

@[simp] theorem takeFrom_apply (i : Nat) :
    takeFrom i d = (d.lines.drop i, { d with lines := d.lines.take i }) := rfl

@[simp] theorem appendLines_apply (lines : List Line) :
    appendLines lines d = ((), { d with lines := d.lines ++ lines }) := rfl

@[simp] theorem indentFrom_apply (i : Nat) :
    indentFrom i d =
      ((), { d with lines := d.lines.take i ++ (d.lines.drop i).map Line.indent }) := rfl

@[simp] theorem insertLine_apply (i : Nat) (line : Line) :
    insertLine i line d = ((), { d with lines := d.lines.take i ++ line :: d.lines.drop i }) := rfl

@[simp] theorem note_apply (e : Event) :
    note e d = ((), { d with events := d.events ++ [e] }) := rfl

/-- The mark of a place is a line of its own; an unknown place has none. -/
theorem mark_apply (place : Location) :
    mark place d =
      ((), { d with
        lines := d.lines ++ (place.line?.map fun l => ⟨d.depth, .mark l⟩).toList }) := by
  unfold mark
  cases place.line? <;> simp

end Drafting

end ScriptSplice
