import ScriptSplice.Proofs.Compile.Outcome
/-!
# When actions succeed

Whether compiling succeeds does not depend on the draft: `Decides` says
that an action succeeds on every draft or on none, and which. `Yields`
says what the action gives when it does. An action in two steps succeeds
if both steps do, whatever the first gives among what it yields, and so on
for every way of building an action. A `Silent` action leaves nothing in
the draft but events.
-/

namespace ScriptSplice

namespace Compile

variable {α β γ : Type}

/-- What an action gives, on any draft, has a property. -/
def Yields (act : Compile α) (P : α → Prop) : Prop :=
  ∀ d a d', exec act d = (.ok a, d') → P a

/-- An action succeeds on every draft, or on none. -/
def Decides (act : Compile α) (ok : Bool) : Prop := ∀ d, (exec act d).1.isOk = ok

namespace Yields

variable {P Q : α → Prop} {act : Compile α}

theorem mono (h : Yields act P) (hPQ : ∀ a, P a → Q a) : Yields act Q :=
  fun d a d' hact => hPQ a (h d a d' hact)

theorem trivial (act : Compile α) : Yields act fun _ => True := fun _ _ _ _ => .intro

theorem pure {a : α} (h : P a) : Yields (Pure.pure a) P := by
  rintro d _ _ ⟨⟩
  exact h

theorem throw (e : Failure) : Yields (MonadExcept.throw e) P := by
  rintro d _ _ ⟨⟩

theorem bind {R : β → Prop} {next : α → Compile β} (h : Yields act P)
    (hnext : ∀ a, P a → Yields (next a) R) : Yields (act >>= next) R := by
  intro d b d'' hb
  obtain ⟨a, d', ha, hb⟩ := exec_bind_eq_ok hb
  exact hnext a (h d a d' ha) d' b d'' hb

/-- Only the last step matters. -/
theorem last {R : β → Prop} {next : α → Compile β} (hnext : ∀ a, Yields (next a) R) :
    Yields (act >>= next) R :=
  (trivial act).bind fun a _ => hnext a

/-- Of actions in a row that may give nothing, none gives anything if each
gives nothing. -/
theorem mapM_filterMap {static : γ → Prop} {f : γ → Compile (Option α)} (l : List γ)
    (h : ∀ x ∈ l, Yields (f x) fun r => r = none ↔ static x) :
    Yields (l.mapM f) fun rs => rs.filterMap id = [] ↔ ∀ x ∈ l, static x := by
  induction l with
  | nil => exact .pure (by simp)
  | cons x l ih =>
    rw [List.mapM_cons]
    refine (h x List.mem_cons_self).bind fun r hr =>
      (ih fun y hy => h y (List.mem_cons_of_mem _ hy)).bind fun rs hrs => .pure ?_
    rw [List.forall_mem_cons, ← hr, ← hrs]
    cases r <;> simp

end Yields

namespace Decides

variable {P : α → Prop} {act : Compile α} {ok ok' : Bool}

theorem pure (a : α) : Decides (Pure.pure a : Compile α) true := fun _ => rfl

theorem throw (e : Failure) : Decides (MonadExcept.throw e : Compile α) false := fun _ => rfl

theorem lift (act : Drafting α) : Decides (liftM act : Compile α) true := fun _ => rfl

theorem bind {next : α → Compile β} (h : Decides act ok) (hP : Yields act P)
    (hnext : ∀ a, P a → Decides (next a) ok') : Decides (act >>= next) (ok && ok') := by
  intro d
  have hd := h d
  rw [exec_bind]
  rcases hact : exec act d with ⟨e | a, d'⟩ <;> rw [hact] at hd <;> subst hd
  · rfl
  · exact (hnext a (hP d a d' hact) d').trans (Bool.true_and _).symm

/-- Two steps of which the second does not depend on the first. -/
theorem seq {next : α → Compile β} (h : Decides act ok) (hnext : ∀ a, Decides (next a) ok') :
    Decides (act >>= next) (ok && ok') := h.bind (Yields.trivial act) fun a _ => hnext a

/-- A step that cannot fail does not matter. -/
theorem after {next : α → Compile β} (h : Decides act true) (hnext : ∀ a, Decides (next a) ok) :
    Decides (act >>= next) ok := h.seq hnext

/-- A last step that cannot fail does not matter. -/
theorem before {next : α → Compile β} (h : Decides act ok)
    (hnext : ∀ a, Decides (next a) true) : Decides (act >>= next) ok := by
  simpa using h.seq hnext

theorem map (f : α → β) (h : Decides act ok) : Decides (f <$> act) ok := by
  intro d
  rw [exec_map, ← h d]
  cases (exec act d).1 <;> rfl

theorem inBlock (h : Decides act ok) : Decides (inBlock act) ok := fun _ => h _

theorem mapM {f : α → Compile β} {check : α → Bool} (l : List α)
    (h : ∀ a ∈ l, Decides (f a) (check a)) : Decides (l.mapM f) (l.all check) := by
  induction l with
  | nil => exact pure _
  | cons a l ih =>
    rw [List.mapM_cons, List.all_cons]
    exact (h a List.mem_cons_self).seq fun _ =>
      (ih fun b hb => h b (List.mem_cons_of_mem _ hb)).before fun _ => pure _

theorem forM {f : α → Compile Unit} {check : α → Bool} (l : List α)
    (h : ∀ a ∈ l, Decides (f a) (check a)) : Decides (l.forM f) (l.all check) := by
  induction l with
  | nil => exact pure _
  | cons a l ih =>
    rw [List.all_cons]
    exact (h a List.mem_cons_self).seq fun _ => ih fun b hb => h b (List.mem_cons_of_mem _ hb)

theorem foldlM {f : γ → α → Compile γ} {check : α → Bool} (l : List α)
    (h : ∀ a ∈ l, ∀ s, Decides (f s a) (check a)) (s : γ) :
    Decides (l.foldlM f s) (l.all check) := by
  induction l generalizing s with
  | nil => exact pure _
  | cons a l ih =>
    rw [List.foldlM_cons, List.all_cons]
    exact (h a List.mem_cons_self s).seq fun _ =>
      ih (fun b hb => h b (List.mem_cons_of_mem _ hb)) _

end Decides

/-- An action always gives one thing, and the draft is as before but for
what was recorded. -/
def Silent (act : Compile α) (a : α) : Prop :=
  ∀ d, ∃ events, exec act d = (.ok a, { d with events })

namespace Silent

variable {a : α} {act : Compile α}

theorem pure (a : α) : Silent (Pure.pure a) a := fun d => ⟨d.events, rfl⟩

theorem note (e : Event) : Silent (liftM (Drafting.note e)) () := fun _ => ⟨_, rfl⟩

theorem bind {b : β} {next : α → Compile β} (h : Silent act a) (hnext : Silent (next a) b) :
    Silent (act >>= next) b := by
  intro d
  obtain ⟨events, hact⟩ := h d
  rw [exec_bind_of_ok hact]
  exact hnext _

theorem mapM {f : γ → Compile α} (l : List γ) (h : ∀ x ∈ l, Silent (f x) a) :
    Silent (l.mapM f) (l.map fun _ => a) := by
  induction l with
  | nil => exact pure _
  | cons x l ih =>
    rw [List.mapM_cons]
    exact (h x List.mem_cons_self).bind
      ((ih fun y hy => h y (List.mem_cons_of_mem _ hy)).bind (pure _))

end Silent

end Compile

end ScriptSplice
