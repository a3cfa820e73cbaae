import ScriptSplice.Proofs.Compile.Outcome
import ScriptSplice.Proofs.Rules.Emitters
import ScriptSplice.Proofs.Target.Atoms
/-!
# Keeping account of what is written

While a tree is compiled, the references that were made are in the lines
already written or in expressions in hand, which will be written later. An
account (`Account`) says this of the time between two drafts, and says
besides whose statements the lines are and which texts they quote. An
action balances (`Compile.Balances`) if it takes every account with some
expressions in hand to one with the expressions it gives. There is one
rule for each way of building an action.
-/

namespace ScriptSplice

open Compile

variable {α β : Type}

/-- What the program of a tree may refer to and quote. -/
structure Stock where
  entry : Option Node → Prop
  word : Text → Prop
  quoted : Text → Prop

/-- A text of a stock. -/
def Atom.Lent (S : Stock) : Atom → Prop
  | word t => S.word t
  | quoted t => S.quoted t
  | _ => False

/-- Atoms made of others: they are those, all of them, and texts of the stock. -/
def Atom.Remade (S : Stock) (old made : List Atom) : Prop :=
  (∀ a ∈ made, a ∈ old ∨ a.Lent S) ∧ ∀ a ∈ old, a ∈ made

@[simp] theorem Atom.Remade.refl (S : Stock) (as : List Atom) : Remade S as as :=
  ⟨fun _ ha => .inl ha, fun _ ha => ha⟩

/-- An atom that came about between two drafts. -/
def Atom.Between (S : Stock) (d d' : Draft) : Atom → Prop
  | ref i => d.refs.length ≤ i ∧ i < d'.refs.length
  | slice start stop => d.refs.length ≤ start ∧ start < stop ∧ stop ≤ d'.refs.length
  | var n => d.fresh ≤ n ∧ n < d'.fresh
  | word t => S.word t
  | quoted t => S.quoted t

/-- Later there is more between two drafts. -/
theorem Atom.Between.mono {S : Stock} {d d' e e' : Draft} {a : Atom} (h : a.Between S d d')
    (hrefs : e.refs.length ≤ d.refs.length) (hrefs' : d'.refs.length ≤ e'.refs.length)
    (hfresh : e.fresh ≤ d.fresh) (hfresh' : d'.fresh ≤ e'.fresh) : a.Between S e e' := by
  cases a with
  | ref i => exact ⟨hrefs.trans h.1, h.2.trans_le hrefs'⟩
  | slice start stop => exact ⟨hrefs.trans h.1, h.2.1, h.2.2.trans hrefs'⟩
  | var n => exact ⟨hfresh.trans h.1, h.2.trans_le hfresh'⟩
  | word t => exact h
  | quoted t => exact h

/-- **An account** of the time between two drafts: `ms` are the commands
whose statements are among the lines written, and `es` the expressions in
hand. References were made to nodes of the stock, and each is in the lines
or in hand; and there is nothing else that is not of the stock. -/
structure Account (S : Stock) (d : Draft) (ms : List Node) (new : List Line) (es : List Expr)
    (d' : Draft) : Prop where
  attributed : Line.Attributed ms new
  entries : ∃ added, d'.refs = d.refs ++ added ∧ ∀ r ∈ added, S.entry r
  fresh_le : d.fresh ≤ d'.fresh
  between : ∀ a ∈ Line.atoms new ++ Expr.atomsAll es, a.Between S d d'
  denoted : ∀ i, d.refs.length ≤ i → i < d'.refs.length →
    ∃ a ∈ Line.atoms new ++ Expr.atomsAll es, a.Denotes i

namespace Account

variable {S : Stock} {d d' d'' : Draft} {ms ns : List Node} {new more : List Line}
  {es fs : List Expr}

theorem refs_length_le (h : Account S d ms new es d') : d.refs.length ≤ d'.refs.length := by
  obtain ⟨added, hadded, -⟩ := h.entries
  rw [hadded, List.length_append]
  exact Nat.le_add_right _ _

/-- Nothing happens, as far as accounts are concerned. -/
theorem idle (hrefs : d'.refs = d.refs) (hfresh : d'.fresh = d.fresh) :
    Account S d [] [] [] d' where
  attributed := .nil
  entries := ⟨[], by rw [hrefs, List.append_nil], by simp⟩
  fresh_le := hfresh.ge
  between := by simp
  denoted i hi hi' := by
    rw [hrefs] at hi'
    omega

/-- **Two accounts in a row.** -/
theorem append (h : Account S d ms new es d') (h' : Account S d' ns more fs d'') :
    Account S d (ms ++ ns) (new ++ more) (es ++ fs) d'' where
  attributed := h.attributed.append h'.attributed
  entries := by
    obtain ⟨added, hadded, hentry⟩ := h.entries
    obtain ⟨added', hadded', hentry'⟩ := h'.entries
    refine ⟨added ++ added', by rw [hadded', hadded, List.append_assoc], ?_⟩
    exact List.forall_mem_append.2 ⟨hentry, hentry'⟩
  fresh_le := h.fresh_le.trans h'.fresh_le
  between a ha := by
    have hrefs := h.refs_length_le
    have hrefs' := h'.refs_length_le
    simp only [Line.atoms_append, Expr.atomsAll_append, List.mem_append] at ha
    have hfirst (hmem : a ∈ Line.atoms new ++ Expr.atomsAll es) : a.Between S d d'' :=
      (h.between a hmem).mono le_rfl hrefs' le_rfl h'.fresh_le
    have hsecond (hmem : a ∈ Line.atoms more ++ Expr.atomsAll fs) : a.Between S d d'' :=
      (h'.between a hmem).mono hrefs le_rfl h.fresh_le le_rfl
    rw [List.mem_append] at hfirst hsecond
    grind
  denoted i hi hi' := by
    simp only [Line.atoms_append, Expr.atomsAll_append, List.mem_append]
    rcases Nat.lt_or_ge i d'.refs.length with hlt | hge
    · obtain ⟨a, ha, hdenotes⟩ := h.denoted i hi hlt
      rw [List.mem_append] at ha
      exact ⟨a, by grind, hdenotes⟩
    · obtain ⟨a, ha, hdenotes⟩ := h'.denoted i hge hi'
      rw [List.mem_append] at ha
      exact ⟨a, by grind, hdenotes⟩

/-- Only the references and the variables of the later draft matter. -/
theorem congr (h : Account S d ms new es d') (hrefs : d''.refs = d'.refs)
    (hfresh : d''.fresh = d'.fresh) : Account S d ms new es d'' where
  attributed := h.attributed
  entries := hrefs ▸ h.entries
  fresh_le := hfresh ▸ h.fresh_le
  between a ha :=
    (h.between a ha).mono le_rfl (congrArg List.length hrefs).ge le_rfl hfresh.ge
  denoted i hi hi' := h.denoted i hi (by rwa [hrefs] at hi')

/-- **Expressions in hand are used** to make others or to write lines, with
texts of the stock. -/
theorem spend (h : Account S d ms new es d') (hms : Line.Attributed ns more)
    (hatoms : Atom.Remade S (Expr.atomsAll es) (Line.atoms more ++ Expr.atomsAll fs)) :
    Account S d (ms ++ ns) (new ++ more) fs d' where
  attributed := h.attributed.append hms
  entries := h.entries
  fresh_le := h.fresh_le
  between a ha := by
    rw [Line.atoms_append, List.append_assoc, List.mem_append] at ha
    rcases ha with ha | ha
    · exact h.between a (List.mem_append_left _ ha)
    · rcases hatoms.1 a ha with ha | ha
      · exact h.between a (List.mem_append_right _ ha)
      · cases a <;> first | exact ha | exact ha.elim
  denoted i hi hi' := by
    obtain ⟨a, ha, hdenotes⟩ := h.denoted i hi hi'
    refine ⟨a, ?_, hdenotes⟩
    rw [Line.atoms_append, List.append_assoc]
    rcases List.mem_append.1 ha with ha | ha
    · exact List.mem_append_left _ ha
    · exact List.mem_append_right _ (hatoms.2 a ha)

/-- The same expressions in another order or under other names. -/
theorem recast (h : Account S d ms new es d')
    (hatoms : Atom.Remade S (Expr.atomsAll es) (Expr.atomsAll fs)) : Account S d ms new fs d' := by
  have hspent : Account S d (ms ++ []) (new ++ []) fs d' := h.spend .nil hatoms
  rwa [List.append_nil, List.append_nil] at hspent

/-- Lines may be written in another order, as long as the statements of
commands are in theirs. -/
theorem rearrange (h : Account S d ms new es d') (hms : Line.Attributed ms more)
    (hatoms : ∀ a, a ∈ Line.atoms more ++ Expr.atomsAll fs ↔
      a ∈ Line.atoms new ++ Expr.atomsAll es) : Account S d ms more fs d' where
  attributed := hms
  entries := h.entries
  fresh_le := h.fresh_le
  between a ha := h.between a ((hatoms a).1 ha)
  denoted i hi hi' := by
    obtain ⟨a, ha, hdenotes⟩ := h.denoted i hi hi'
    exact ⟨a, (hatoms a).2 ha, hdenotes⟩

end Account

/-! ## Actions -/

/-- **An action balances**: with the expressions `es` in hand it writes the
statements of the commands `ms`, and then the expressions that it gives are
in hand. -/
def Compile.Balances (S : Stock) (es : List Expr) (ms : List Node) (given : α → List Expr)
    (act : Compile α) : Prop :=
  ∀ d₀ ms₀ old d a d', Account S d₀ ms₀ old es d → exec act d = (.ok a, d') →
    ∃ new, d'.lines = d.lines ++ new ∧ Account S d₀ (ms₀ ++ ms) (old ++ new) (given a) d'

namespace Compile.Balances

variable {S : Stock} {es fs : List Expr} {ms ns : List Node} {given : α → List Expr}
  {act : Compile α}

/-- The account of a run with nothing in hand. -/
theorem account (h : Balances S [] ms given act) {d d' : Draft} {a : α}
    (hrun : exec act d = (.ok a, d')) :
    ∃ new, d'.lines = d.lines ++ new ∧ Account S d ms new (given a) d' :=
  h d [] [] d a d' (.idle rfl rfl) hrun

theorem of_account (given : α → List Expr) (h : ∀ d a d', exec act d = (.ok a, d') →
      ∃ new, d'.lines = d.lines ++ new ∧ Account S d ms new (given a) d') :
    Balances S es ms (fun a => es ++ given a) act := by
  intro d₀ ms₀ old d a d' haccount hrun
  obtain ⟨new, hlines, hnew⟩ := h d a d' hrun
  exact ⟨new, hlines, haccount.append hnew⟩

/-- **Expressions in hand are kept.** -/
theorem frame (h : Balances S [] ms given act) (es : List Expr) :
    Balances S es ms (fun a => es ++ given a) act :=
  of_account given fun _ _ _ => h.account

/-- What is given can be looked at in another way. -/
theorem mono (h : Balances S es ms given act) {given' : α → List Expr}
    (hgiven : ∀ a, given' a = given a) : Balances S es ms given' act := by
  rwa [funext hgiven]

/-- **Two actions in a row.** The second one matters only for what the
first can give. -/
theorem bind_of_ok {next : α → Compile β} {given' : β → List Expr}
    (h : Balances S es ms given act)
    (hnext : ∀ a d d', exec act d = (.ok a, d') → Balances S (given a) ns given' (next a)) :
    Balances S es (ms ++ ns) given' (act >>= next) := by
  intro d₀ ms₀ old d b d' haccount hrun
  obtain ⟨a, d₁, hact, hrun⟩ := exec_bind_eq_ok hrun
  obtain ⟨new, hlines, hnew⟩ := h d₀ ms₀ old d a d₁ haccount hact
  obtain ⟨more, hlines', hmore⟩ := hnext a d d₁ hact d₀ _ _ d₁ b d' hnew hrun
  refine ⟨new ++ more, by rw [hlines', hlines, List.append_assoc], ?_⟩
  rwa [List.append_assoc, List.append_assoc] at hmore

theorem bind {next : α → Compile β} {given' : β → List Expr} (h : Balances S es ms given act)
    (hnext : ∀ a, Balances S (given a) ns given' (next a)) :
    Balances S es (ms ++ ns) given' (act >>= next) :=
  h.bind_of_ok fun a _ _ _ => hnext a

/-- The first action writes no statement of a command. -/
theorem andThen {next : α → Compile β} {given' : β → List Expr} (h : Balances S es [] given act)
    (hnext : ∀ a d d', exec act d = (.ok a, d') → Balances S (given a) ns given' (next a)) :
    Balances S es ns given' (act >>= next) :=
  h.bind_of_ok hnext

/-- The second action writes no statement of a command. -/
theorem next {next : α → Compile β} {given' : β → List Expr} (h : Balances S es ms given act)
    (hnext : ∀ a, Balances S (given a) [] given' (next a)) :
    Balances S es ms given' (act >>= next) := by
  have hbind := h.bind hnext
  rwa [List.append_nil] at hbind

/-- Other expressions are made of those in hand. -/
theorem pure {a : α} (hatoms : Atom.Remade S (Expr.atomsAll es) (Expr.atomsAll (given a))) :
    Balances S es [] given (Pure.pure a) := by
  rintro d₀ ms₀ old d _ _ haccount ⟨⟩
  exact ⟨[], by simp, by simpa using haccount.recast hatoms⟩

theorem throw (e : Failure) : Balances S es ms given (MonadExcept.throw e) := by
  rintro _ _ _ _ _ _ _ ⟨⟩

/-- Reading a node. -/
theorem read (x : Except Failure α) : Balances S es [] (fun _ => es) (liftExcept x) := by
  cases x with
  | error e => exact throw e
  | ok a => exact pure (.refl S _)

/-- An action that neither writes nor refers to anything. -/
theorem idle {act : Drafting α} (hlines : ∀ d, (act d).2.lines = d.lines)
    (hrefs : ∀ d, (act d).2.refs = d.refs) (hfresh : ∀ d, (act d).2.fresh = d.fresh) :
    Balances S es [] (fun _ => es) (liftM act) := by
  rintro d₀ ms₀ old d _ _ haccount ⟨⟩
  exact ⟨[], by simp [hlines], by simpa using haccount.congr (hrefs d) (hfresh d)⟩

theorem use (h : Helper) : Balances S es [] (fun _ => es) (liftM (Drafting.use h)) :=
  idle (Drafting.lines_use h) (Drafting.refs_use h) (Drafting.fresh_use h)

/-- A call of a helper. Expressions in its arguments may be kept in hand. -/
theorem apply (h : Helper) (kept : List Expr) {args : List Expr}
    (hatoms : Atom.Remade S (Expr.atomsAll es) (Expr.atomsAll (kept ++ args))) :
    Balances S es [] (fun e => kept ++ [e]) (liftM (Drafting.apply h args)) :=
  (use h).bind fun _ => pure (by simpa [Expr.atoms] using hatoms)

theorem note (event : Event) : Balances S es [] (fun _ => es) (liftM (Drafting.note event)) :=
  idle (fun _ => rfl) (fun _ => rfl) fun _ => rfl

/-- A reference. -/
theorem ref {r : Option Node} (hr : S.entry r) :
    Balances S es [] (fun e => es ++ [e]) (liftM (Drafting.ref r)) := by
  refine of_account (fun e => [e]) ?_
  rintro d _ _ ⟨⟩
  refine ⟨[], by simp, .nil, ⟨[r], rfl, by simpa using hr⟩, le_rfl, ?_, fun i hi hi' => ?_⟩
  · simp [Expr.atoms, Atom.Between]
  · refine ⟨.ref d.refs.length, by simp [Expr.atoms], ?_⟩
    have hlt : i < d.refs.length + 1 := by simpa using hi'
    exact (Nat.le_of_lt_succ hlt).antisymm hi

/-- An auxiliary statement is written with the expressions in hand. -/
theorem emit {s : Stmt} (hs : s.isAuxiliary = true)
    (hatoms : Atom.Remade S (Expr.atomsAll es) s.atoms) :
    Balances S es [] (fun _ => []) (liftM (Drafting.emit s)) := by
  rintro d₀ ms₀ old d _ _ haccount ⟨⟩
  exact ⟨[⟨d.depth, s⟩], rfl, (haccount.spend (.of_auxiliary (by simpa using hs))
    (by simpa using hatoms)).congr rfl rfl⟩

/-- **The statement of a command** behind its mark, and what comes then. -/
theorem statement {n : Node} {s : Stmt} {next : Compile α} (hs : n.Writes s)
    (hatoms : Atom.Remade S (Expr.atomsAll es) s.atoms) (hnext : Balances S [] ms given next) :
    Balances S es (n :: ms) given (do Drafting.mark n.location; Drafting.emit s; next) := by
  have hstatement : Balances S es [n] (fun _ => [])
      (do Drafting.mark n.location; Drafting.emit s : Compile Unit) := by
    intro d₀ ms₀ old d _ d' haccount hrun
    rw [exec_bind_of_ok (exec_lift _ _), exec_lift, Drafting.mark_apply, Drafting.emit_apply,
      Prod.mk.injEq] at hrun
    obtain ⟨-, rfl⟩ := hrun
    have hlines : Line.atoms (Line.markOf d.depth n.location ++ [⟨d.depth, s⟩]) = s.atoms := by
      unfold Line.markOf
      cases n.location.line? <;> simp [Stmt.atoms]
    refine ⟨Line.markOf d.depth n.location ++ [⟨d.depth, s⟩], List.append_assoc .., ?_⟩
    refine (haccount.spend (.command d.depth hs .nil) ?_).congr rfl rfl
    rw [hlines]
    simpa using hatoms
  have hbind := hstatement.bind fun _ => hnext
  rwa [bind_assoc] at hbind

/-- A helper may be put to use behind the mark. -/
theorem statement_use {n : Node} {s : Stmt} {next : Compile α} (h : Helper) (hs : n.Writes s)
    (hatoms : Atom.Remade S (Expr.atomsAll es) s.atoms) (hnext : Balances S [] ms given next) :
    Balances S es (n :: ms) given
      (do Drafting.mark n.location; Drafting.use h; Drafting.emit s; next) := by
  have hswap : ((do Drafting.mark n.location; Drafting.use h; Drafting.emit s; next) : Compile α) =
      (do Drafting.use h; Drafting.mark n.location; Drafting.emit s; next) := by
    funext d
    have hdraft : (Drafting.use h (Drafting.mark n.location d).2).2 =
        (Drafting.mark n.location (Drafting.use h d).2).2 := by
      simp only [Drafting.mark_apply, Drafting.use_apply]
      split <;> rfl
    change exec _ d = exec _ d
    simp only [exec_bind_of_ok (exec_lift _ _), hdraft]
  rw [hswap]
  exact (use h).bind fun _ => statement hs hatoms hnext

/-- A block writes what is written in it. -/
theorem inBlock (h : Balances S es ms given act) : Balances S es ms given (inBlock act) := by
  intro d₀ ms₀ old d a d' haccount hrun
  rw [exec_inBlock, Prod.mk.injEq] at hrun
  obtain ⟨hresult, rfl⟩ := hrun
  obtain ⟨new, hlines, hnew⟩ := h d₀ ms₀ old { d with depth := d.depth + 1 } a _
    (haccount.congr rfl rfl) (Prod.ext hresult rfl)
  exact ⟨new, hlines, hnew.congr rfl rfl⟩

variable {ι : Type} {f : ι → Compile α} {emitters : ι → List Node}

/-- **An action for every element of a list.** -/
theorem mapM (given : α → List Expr) (l : List ι)
    (h : ∀ i ∈ l, Balances S [] (emitters i) given (f i)) :
    Balances S [] (l.flatMap emitters) (·.flatMap given) (l.mapM f) := by
  induction l with
  | nil => exact pure (by simp)
  | cons i l ih =>
    rw [List.mapM_cons, List.flatMap_cons]
    refine (h i List.mem_cons_self).bind fun a => ?_
    refine ((ih fun j hj => h j (List.mem_cons_of_mem _ hj)).frame (given a)).next fun as => ?_
    exact pure (by simp)

theorem forM {f : ι → Compile Unit} (l : List ι)
    (h : ∀ i ∈ l, Balances S [] (emitters i) (fun _ => []) (f i)) :
    Balances S [] (l.flatMap emitters) (fun _ => []) (l.forM f) := by
  induction l with
  | nil => exact pure (by simp)
  | cons i l ih =>
    exact (h i List.mem_cons_self).bind fun _ => ih fun j hj => h j (List.mem_cons_of_mem _ hj)

end Compile.Balances

end ScriptSplice
