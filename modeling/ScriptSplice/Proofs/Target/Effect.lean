import ScriptSplice.Proofs.Target.Execution
import ScriptSplice.Proofs.Target.Naming
/-!
# Effects of generated lines

Generated lines are executed in a block at their column
(`Runtime.Leads`), even if that block begins with the first of them. They
bind nothing but variables of their own and add to the commands of that
block (`Effect`), so the effects of lines that stand behind one another add
up, and the names of a program and its helpers stay bound
(`State.Good.effect`). A scope makes a list of its own, which nothing else
is added to once it is left (`Effect.leave`).
-/

namespace ScriptSplice

variable {k k' : Nat} {σ σ₀ τ ρ : State}

/-! ## Going on in a block -/

namespace State

theorem closed_eq (h : σ.column = k) : σ.closed k = σ := by
  obtain ⟨names, lists, blocks, header⟩ := σ
  cases blocks with
  | nil => rfl
  | cons b blocks =>
    have hb : ¬ k < b.1 := by simpa [column] using Nat.le_of_eq h
    simp [closed, hb]

/-- Going on in the block that is open anyway. -/
theorem resume_eq (hheader : σ.header = none) (hcolumn : σ.column = k) :
    σ.resume k = some σ := by
  rw [resume, hheader]
  simp only [closed_eq hcolumn, if_pos hcolumn]

/-- No name is bound or lost between two lines. -/
theorem names_of_resume (h : σ₀.resume k = some σ) : σ.names = σ₀.names := by
  unfold resume at h
  split at h <;> split at h <;> cases h <;> rfl

/-- Blocks that are further in are closed at once. -/
theorem closed_closed (σ : State) (h : k ≤ k') : (σ.closed k').closed k = σ.closed k := by
  obtain ⟨names, lists, blocks, header⟩ := σ
  simp only [closed, mk.injEq, true_and, and_true]
  induction blocks with
  | nil => rfl
  | cons b blocks ih =>
    by_cases hb : k' < b.1
    · rw [List.dropWhile_cons_of_pos (by simpa using hb), ih,
        List.dropWhile_cons_of_pos (by simpa using Nat.lt_of_le_of_lt h hb)]
    · rw [List.dropWhile_cons_of_neg (by simpa using hb)]

/-- Coming back from a block that is open. -/
theorem resume_of_closed (hσ : σ₀.resume k' = some σ) (hheader : σ₀.header = none) (h : k ≤ k')
    (hcolumn : (σ.closed k).column = k) : σ₀.resume k = some (σ.closed k) := by
  have hclosed : σ₀.closed k' = σ := by
    rw [resume, hheader] at hσ
    simp only [Option.ite_none_right_eq_some, Option.some.injEq] at hσ
    exact hσ.2
  rw [← hclosed, closed_closed _ h] at hcolumn ⊢
  rw [resume, hheader]
  simp only [if_pos hcolumn]

end State

namespace Runtime

variable (R : Runtime)

theorem run_append (ts us : List Text) (σ : State) :
    R.run (ts ++ us) σ = (R.run ts σ).bind (R.run us) := by
  rw [run, List.foldlM_append]
  rfl

theorem run_cons (t : Text) (ts : List Text) (σ : State) :
    R.run (t :: ts) σ = (R.line σ t).bind (R.run ts) := by
  rw [run, List.foldlM_cons]
  rfl

/-- What a line does is what its statement does where the line goes on. -/
theorem line_eq {t : Text} {s : Statement} (ht : readLine t = some (k, s))
    (hσ : σ₀.resume k = some σ) (hs : R.perform σ s = some τ) : R.line σ₀ t = some τ := by
  rw [line, ht]
  change (σ₀.resume k).bind _ = _
  rw [hσ]
  exact hs

/-- Of lines that can be executed each can be read. -/
theorem readLine_of_run {ts : List Text} (h : R.run ts σ = some τ) :
    ∀ t ∈ ts, ∃ r, readLine t = some r := by
  induction ts generalizing σ with
  | nil => simp
  | cons t ts ih =>
    rw [run_cons] at h
    obtain ⟨σ₁, hline, hrun⟩ := Option.bind_eq_some_iff.1 h
    obtain ⟨r, hr, -⟩ := Option.bind_eq_some_iff.1 hline
    exact List.forall_mem_cons.2 ⟨⟨r, hr⟩, ih hrun⟩

/-- Lines at a column lead from one state to another, both in the block of
that column, even if the block begins with the first of them. -/
def Leads (k : Nat) (ts : List Text) (σ τ : State) : Prop :=
  ∀ σ₀ : State, σ₀.resume k = some σ →
    ∃ τ₀, R.run ts σ₀ = some τ₀ ∧ τ₀.resume k = some τ ∧ (ts ≠ [] → τ₀.header = none)

namespace Leads

variable {R} {ts us : List Text}

theorem nil : R.Leads k [] σ σ := fun σ₀ h => ⟨σ₀, rfl, h, fun hne => absurd rfl hne⟩

theorem append (h : R.Leads k ts σ ρ) (h' : R.Leads k us ρ τ) : R.Leads k (ts ++ us) σ τ := by
  intro σ₀ hσ
  obtain ⟨ρ₀, hrun, hρ, hheader⟩ := h σ₀ hσ
  obtain ⟨τ₀, hrun', hτ, hheader'⟩ := h' ρ₀ hρ
  refine ⟨τ₀, by rw [run_append, hrun]; exact hrun', hτ, fun hne => ?_⟩
  -- the last line that there is leaves no block to begin
  cases us with
  | nil =>
    obtain rfl : ρ₀ = τ₀ := Option.some.inj hrun'
    exact hheader (by simpa using hne)
  | cons u us => exact hheader' (List.cons_ne_nil _ _)

/-- A statement that neither opens nor ends a block. -/
theorem statement {t : Text} {s : Statement} (ht : readLine t = some (k, s))
    (hs : R.perform σ s = some τ) (hheader : τ.header = none) (hcolumn : τ.column = k) :
    R.Leads k [t] σ τ := by
  intro σ₀ hσ
  refine ⟨τ, ?_, State.resume_eq hheader hcolumn, fun _ => hheader⟩
  rw [run_cons, line_eq R ht hσ hs]
  rfl

/-- The head of a block and the block under it. -/
theorem block {t : Text} {s : Statement} {a : Nat} {σ₁ : State} (ht : readLine t = some (k, s))
    (hs : R.perform σ s = some σ₁) (hheader : σ₁.header = some a) (hcolumn : σ₁.column < k')
    (hk : k ≤ k')
    (h : R.Leads k' us { σ₁ with blocks := (k', a) :: σ₁.blocks, header := none } τ) (hne : us ≠ [])
    (hτ : (τ.closed k).column = k) : R.Leads k (t :: us) σ (τ.closed k) := by
  intro σ₀ hσ
  have hresume : σ₁.resume k' =
      some { σ₁ with blocks := (k', a) :: σ₁.blocks, header := none } := by
    rw [State.resume, hheader]
    simp only [if_pos hcolumn]
  obtain ⟨τ₀, hrun, hresumed, hnone⟩ := h σ₁ hresume
  have hheader₀ := hnone hne
  refine ⟨τ₀, ?_, State.resume_of_closed hresumed hheader₀ hk hτ, fun _ => hheader₀⟩
  rw [run_cons, line_eq R ht hσ hs]
  exact hrun

end Leads

end Runtime

/-! ## Effects -/

/-- What generated lines change: variables with numbers from `f` up to
`f'`, which are bound, and the commands of the innermost block, which
become more. Of the lists of commands others stay as they are, and there
can be new ones. -/
structure Effect (stem : Text) (f f' : Nat) (added : List (Option Node)) (σ τ : State) : Prop where
  le : f ≤ f'
  names : ∀ x, (∀ i, f ≤ i → i < f' → x ≠ variableName stem i) → τ.names x = σ.names x
  blocks : τ.blocks = σ.blocks
  header : τ.header = σ.header
  lists : ∀ a ns, σ.lists[a]? = some ns →
    τ.lists[a]? = some (if a = σ.innermost then ns ++ added else ns)

namespace Effect

variable {stem : Text} {f f' f'' : Nat} {added added' : List (Option Node)}

theorem refl (stem : Text) (f : Nat) (σ : State) : Effect stem f f [] σ σ where
  le := Nat.le_refl f
  names _ _ := rfl
  blocks := rfl
  header := rfl
  lists a ns h := by rw [h, List.append_nil, ite_self]

theorem column (h : Effect stem f f' added σ τ) : τ.column = σ.column := by
  rw [State.column, h.blocks]
  rfl

theorem innermost (h : Effect stem f f' added σ τ) : τ.innermost = σ.innermost := by
  rw [State.innermost, h.blocks]
  rfl

/-- **Effects add up.** -/
theorem trans (h : Effect stem f f' added σ ρ) (h' : Effect stem f' f'' added' ρ τ) :
    Effect stem f f'' (added ++ added') σ τ where
  le := Nat.le_trans h.le h'.le
  names x hx := by
    rw [h'.names x fun i hi hi' => hx i (Nat.le_trans h.le hi) hi',
      h.names x fun i hi hi' => hx i hi (Nat.lt_of_lt_of_le hi' h'.le)]
  blocks := h'.blocks.trans h.blocks
  header := h'.header.trans h.header
  lists a ns hns := by
    rw [h'.lists a _ (h.lists a ns hns), h.innermost]
    split
    · rw [List.append_assoc]
    · rfl

/-- A variable of an earlier line stays as it is. -/
theorem variable_eq (h : Effect stem f f' added σ τ) {i : Nat} (hi : i < f) :
    τ.names (variableName stem i) = σ.names (variableName stem i) :=
  h.names _ fun j hj _ heq => absurd (variableName_injective heq) (by omega)

end Effect

/-- **States in which generated lines are executed**: at a column, with
the names of a program and its helpers bound. -/
structure State.Good (R : Runtime) (helpers : List Helper) (k : Nat) (σ : State) : Prop where
  table : σ.names (refsName R.stem) = some .table
  runtime : σ.names (runtimeName R.stem) = some .runtime
  helper : ∀ h ∈ helpers, σ.names (h.localName R.stem) = some (.helper h.key)
  header : σ.header = none
  column : σ.column = k
  innermost : σ.innermost < σ.lists.length

/-- Generated lines lead from good states to good states. -/
theorem State.Good.effect {R : Runtime} {helpers : List Helper} {f f' : Nat}
    {added : List (Option Node)} (hσ : σ.Good R helpers k)
    (h : Effect R.stem f f' added σ τ) : τ.Good R helpers k where
  table := (h.names _ fun i _ _ => refsName_ne_variableName i).trans hσ.table
  runtime := (h.names _ fun i _ _ => runtimeName_ne_variableName i).trans hσ.runtime
  helper g hg := (h.names _ fun i _ _ => localName_ne_variableName g i).trans (hσ.helper g hg)
  header := h.header.trans hσ.header
  column := h.column.trans hσ.column
  innermost := by
    have hlist := h.lists _ _ (List.getElem?_eq_getElem hσ.innermost)
    rw [h.innermost]
    exact (List.getElem?_eq_some_iff.1 hlist).1

/-! ### Scopes -/

/-- The state in which the block of a scope begins. -/
def State.within (σ : State) (x : Text) (k : Nat) : State :=
  { σ.enter x with blocks := (k, σ.lists.length) :: σ.blocks, header := none }

theorem State.names_within {x y : Text} (h : y ≠ x) : (σ.within x k).names y = σ.names y :=
  if_neg h

theorem State.Good.within {R : Runtime} {helpers : List Helper} (hσ : σ.Good R helpers k)
    (f k' : Nat) : (σ.within (variableName R.stem f) k').Good R helpers k' where
  table := (names_within (refsName_ne_variableName f)).trans hσ.table
  runtime := (names_within (runtimeName_ne_variableName f)).trans hσ.runtime
  helper g hg := (names_within (localName_ne_variableName g f)).trans (hσ.helper g hg)
  header := rfl
  column := rfl
  innermost := by
    change σ.lists.length < (σ.lists ++ [[]]).length
    simp

/-- **Leaving a scope.** What its block added is in its own list, which is
the only new one that a name is bound to. -/
theorem Effect.leave {R : Runtime} {helpers : List Helper} {f f' : Nat} {ns : List (Option Node)}
    (hσ : σ.Good R helpers k) (hk : k < k')
    (h : Effect R.stem f f' ns (σ.within (variableName R.stem f') k') τ) :
    Effect R.stem f (f' + 1) [] σ (τ.closed k) ∧
      τ.names (variableName R.stem f') = some (.commands σ.lists.length) ∧
      τ.lists[σ.lists.length]? = some ns := by
  have hblocks : τ.blocks = (k', σ.lists.length) :: σ.blocks := h.blocks
  have hnew : (σ.lists ++ [[]])[σ.lists.length]? = some [] := by simp
  refine ⟨⟨Nat.le_succ_of_le h.le, fun x hx => ?_, ?_, h.header.trans hσ.header.symm,
    fun a ms hms => ?_⟩, ?_, ?_⟩
  · have hbefore := h.names x fun i hi hi' => hx i hi (Nat.lt_succ_of_lt hi')
    exact hbefore.trans (State.names_within (hx f' h.le (Nat.lt_succ_self _)))
  · have hclosed : (σ.blocks.dropWhile fun b => k < b.1) = σ.blocks :=
      congrArg State.blocks (State.closed_eq hσ.column)
    change (τ.blocks.dropWhile fun b => k < b.1) = σ.blocks
    rw [hblocks, List.dropWhile_cons_of_pos (by simpa using hk), hclosed]
  · -- the lists there were before are not the one of the block
    have hlt := (List.getElem?_eq_some_iff.1 hms).1
    have ha : a ≠ σ.lists.length := Nat.ne_of_lt hlt
    rw [List.append_nil, ite_self]
    exact (h.lists a ms ((List.getElem?_append_left hlt).trans hms)).trans
      (congrArg some (if_neg ha))
  · rw [h.names _ fun i _ hi' heq => absurd (variableName_injective heq) (Nat.ne_of_gt hi')]
    exact if_pos rfl
  · exact (h.lists _ _ hnew).trans (congrArg some (if_pos rfl))

end ScriptSplice
