import ScriptSplice.Proofs.Compile.Outcome
import ScriptSplice.Rules.Handler
/-!
# Runs with more argument parsers

An action looks parsers up and fails where it lacks one. So with more
parsers it does what it did, except that it may get past the place where
it failed. `Widens` says this of two actions, together with what is known
of the failures of the first one. There is one rule for each way of
building an action.
-/

namespace ScriptSplice

namespace Compile

variable {α β γ : Type} {E : Failure → Prop} {T : Parsers}

/-- **Outcomes with few parsers and with more.** Both runs come to the
same, or the first one fails for want of a parser among those that the
second one has; what is known of failures is a parameter. -/
inductive Wider (E : Failure → Prop) (T : Parsers) :
    Except Failure α × Draft → Except Failure α × Draft → Prop
  | given (a : α) (d : Draft) : Wider E T (.ok a, d) (.ok a, d)
  | failed {f : Failure} (d : Draft) : E f → Wider E T (.error f, d) (.error f, d)
  | admitted {f : Failure} {p : Text} (d : Draft) (y : Except Failure α × Draft) :
    E f → f.cause = .unknownParser p → p ∈ T → Wider E T (.error f, d) y

/-- Two actions, the second of which has more parsers, on every draft. -/
def Widens (E : Failure → Prop) (T : Parsers) (act act' : Compile α) : Prop :=
  ∀ d, Wider E T (exec act d) (exec act' d)

namespace Widens

variable {act act' : Compile α}

theorem pure (a : α) : Widens E T (Pure.pure a) (Pure.pure a) := fun d => .given a d

theorem throw {f : Failure} (h : E f) :
    Widens E T (MonadExcept.throw f : Compile α) (MonadExcept.throw f) := fun d => .failed d h

theorem lift (act : Drafting α) : Widens E T (liftM act : Compile α) (liftM act) :=
  fun _ => .given _ _

/-- Reading a node takes no parsers. -/
theorem read {x : Except Failure α} (h : ∀ f, x = .error f → E f) :
    Widens E T (liftExcept x) (liftExcept x) := by
  cases x with
  | error f => exact .throw (h f rfl)
  | ok a => exact .pure a

/-- **Two actions in a row.** Where the first ones come apart, the run with
few parsers has failed. -/
theorem bind {next next' : α → Compile β} (h : Widens E T act act')
    (hnext : ∀ a, Widens E T (next a) (next' a)) :
    Widens E T (act >>= next) (act' >>= next') := by
  intro d
  have hfirst := h d
  rw [exec_bind, exec_bind]
  generalize exec act d = x, exec act' d = y at hfirst
  cases hfirst with
  | given a d => exact hnext a d
  | failed d hf => exact .failed d hf
  | admitted d y hf hcause hp => exact .admitted d _ hf hcause hp

/-- A step that both runs take alike. -/
theorem after {act : Drafting α} {next next' : α → Compile β}
    (hnext : ∀ a, Widens E T (next a) (next' a)) :
    Widens E T (liftM act >>= next) (liftM act >>= next') := (lift act).bind hnext

theorem map (f : α → β) (h : Widens E T act act') : Widens E T (f <$> act) (f <$> act') := by
  rw [map_eq_pure_bind, map_eq_pure_bind]
  exact h.bind fun a => .pure (f a)

theorem inBlock (h : Widens E T act act') : Widens E T (inBlock act) (inBlock act') := by
  intro d
  have hinner := h { d with depth := d.depth + 1 }
  rw [exec_inBlock, exec_inBlock]
  generalize exec act { d with depth := d.depth + 1 } = x,
    exec act' { d with depth := d.depth + 1 } = y at hinner
  cases hinner with
  | given a d => exact .given a _
  | failed d hf => exact .failed _ hf
  | admitted d y hf hcause hp => exact .admitted _ _ hf hcause hp

/-! ## Lists -/

theorem mapM {f f' : γ → Compile α} (l : List γ) (h : ∀ x ∈ l, Widens E T (f x) (f' x)) :
    Widens E T (l.mapM f) (l.mapM f') := by
  induction l with
  | nil => exact .pure _
  | cons x l ih =>
    rw [List.mapM_cons, List.mapM_cons]
    exact (h x List.mem_cons_self).bind fun _ =>
      (ih fun y hy => h y (List.mem_cons_of_mem _ hy)).bind fun _ => .pure _

theorem forM {f f' : γ → Compile Unit} (l : List γ) (h : ∀ x ∈ l, Widens E T (f x) (f' x)) :
    Widens E T (l.forM f) (l.forM f') := by
  induction l with
  | nil => exact .pure _
  | cons x l ih =>
    exact (h x List.mem_cons_self).bind fun _ => ih fun y hy => h y (List.mem_cons_of_mem _ hy)

theorem foldlM {f f' : β → γ → Compile β} (l : List γ)
    (h : ∀ x ∈ l, ∀ s, Widens E T (f s x) (f' s x)) (s : β) :
    Widens E T (l.foldlM f s) (l.foldlM f' s) := by
  induction l generalizing s with
  | nil => exact .pure s
  | cons x l ih =>
    rw [List.foldlM_cons, List.foldlM_cons]
    exact (h x List.mem_cons_self s).bind fun s' =>
      ih (fun y hy => h y (List.mem_cons_of_mem _ hy)) s'

end Widens

end Compile

end ScriptSplice
