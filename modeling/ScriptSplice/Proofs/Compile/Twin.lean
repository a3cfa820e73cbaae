import ScriptSplice.Proofs.Compile.Outcome
import ScriptSplice.Proofs.Target.Vocabulary
import ScriptSplice.Proofs.Tree.Unlocated
/-!
# Twin runs

Two runs are twins if one compiles a tree and the other the same tree
unlocated. At every moment their drafts differ by marks and places alone
(`Draft.Twin`); what they give is the same but for marks, or both fail for
the same cause. `Writes` says this of two actions, and says besides that
the lines they add are well nested and over a vocabulary. There is one
rule for each way of building an action, so facts about the rules of the
compiler are put together from those about the parts of a node.
-/

namespace ScriptSplice

open Compile

variable {V : Vocabulary} {α β γ δ : Type}

/-- The same failure at no known place. -/
def Compile.Failure.unlocated (f : Failure) : Failure := ⟨f.cause, .unknown⟩

/-! ## Relations -/

/-- An expression over a vocabulary, and what is left of it without marks. -/
structure Expr.Twin (V : Vocabulary) (e e' : Expr) : Prop where
  isOver : e.Over V
  eq : e' = e.unmarked

/-- Expressions, and what is left of them without marks. -/
structure Expr.Twins (V : Vocabulary) (es es' : List Expr) : Prop where
  isOver : ∀ e ∈ es, e.Over V
  eq : es' = es.map Expr.unmarked

/-- Fragments and what is left of them without marks, or nothing twice. -/
def Compile.Result.Twin (V : Vocabulary) : Result → Result → Prop := Option.Rel (Expr.Twins V)

/-- **Twin drafts**: the second one has no marks and no places, and all
else is as in the first. -/
structure Draft.Twin (d d' : Draft) : Prop where
  depth : d'.depth = d.depth
  lines : d'.lines = Line.unmarkedAll d.lines
  refs : d'.refs = d.refs.map (·.map Node.unlocated)
  helpers : d'.helpers = d.helpers
  fresh : d'.fresh = d.fresh

/-- **Twin outcomes** of runs, the first of which began with draft `d`:
what both give is so, the lines added are well nested, and the depth is
the one before; or both fail for the same cause. -/
inductive Compile.Outcome (V : Vocabulary) (d : Draft) (Q : List Line → α → β → Prop) :
    Except Failure α × Draft → Except Failure β × Draft → Prop
  | ok {a : α} {b : β} {new : List Line} {e e' : Draft} : e.lines = d.lines ++ new →
      Blocks V d.depth new → e.depth = d.depth → e.Twin e' → Q new a b →
      Outcome V d Q (.ok a, e) (.ok b, e')
  | error {f f' : Failure} {e e' : Draft} : f'.cause = f.cause →
      Outcome V d Q (.error f, e) (.error f', e')

/-- Two actions at a depth are twins, with a relation between the lines
that the first one writes and what both give. -/
def Compile.Writes (V : Vocabulary) (depth : Nat) (Q : List Line → α → β → Prop)
    (act : Compile α) (act' : Compile β) : Prop :=
  ∀ d d', d.depth = depth → d.Twin d' → Outcome V d Q (exec act d) (exec act' d')

/-- Two actions at a depth are twins, with a relation between what they
give. -/
abbrev Compile.Alike (V : Vocabulary) (depth : Nat) (R : α → β → Prop) (act : Compile α)
    (act' : Compile β) : Prop :=
  Writes V depth (fun _ => R) act act'

namespace Expr.Twins

theorem nil : Twins V [] [] := ⟨by simp, rfl⟩

theorem cons {e e' : Expr} {es es' : List Expr} (h : Twin V e e') (hs : Twins V es es') :
    Twins V (e :: es) (e' :: es') :=
  ⟨List.forall_mem_cons.2 ⟨h.isOver, hs.isOver⟩, by rw [h.eq, hs.eq, List.map_cons]⟩

theorem single {e e' : Expr} (h : Twin V e e') : Twins V [e] [e'] := .cons h .nil

end Expr.Twins

namespace Draft.Twin

variable {d d' : Draft}

/-- The same number of nodes is referred to. -/
theorem refs_length (h : d.Twin d') : d'.refs.length = d.refs.length := by
  rw [h.refs, List.length_map]

/-- The same line goes to both buffers, without its marks to the second. -/
theorem emit (h : d.Twin d') {s : Stmt} (hs : s.isMark = false) :
    (Drafting.emit s d).2.Twin (Drafting.emit s.unmarked d').2 := by
  refine ⟨h.depth, ?_, h.refs, h.helpers, h.fresh⟩
  simp only [Drafting.emit_apply, Line.unmarkedAll_append, h.lines, h.depth]
  rw [Line.unmarkedAll_cons [] _ hs, Line.unmarkedAll_nil]

/-- A mark goes to the first buffer alone. -/
theorem mark (h : d.Twin d') (place : Location) : (Drafting.mark place d).2.Twin d' := by
  refine ⟨?_, ?_, ?_, ?_, ?_⟩ <;> rw [Drafting.mark_apply]
  · exact h.depth
  · rw [h.lines]
    cases place.line? <;> simp
  · exact h.refs
  · exact h.helpers
  · exact h.fresh

theorem ref (h : d.Twin d') (n : Option Node) :
    (Drafting.ref n d).2.Twin (Drafting.ref (n.map Node.unlocated) d').2 :=
  ⟨h.depth, h.lines, by simp [h.refs], h.helpers, h.fresh⟩

theorem use (h : d.Twin d') (helper : Helper) :
    (Drafting.use helper d).2.Twin (Drafting.use helper d').2 := by
  simp only [Drafting.use_apply, h.helpers]
  by_cases hmem : helper ∈ d.helpers
  · rw [if_pos hmem, if_pos hmem]
    exact h
  · rw [if_neg hmem, if_neg hmem]
    exact ⟨h.depth, h.lines, h.refs, rfl, h.fresh⟩

end Draft.Twin

namespace Compile

variable {depth : Nat}

/-! ## Building actions -/

namespace Outcome

variable {d : Draft} {Q : List Line → α → β → Prop} {S : List Line → γ → δ → Prop}

/-- What is only known of the lines and of what is given can be weakened. -/
theorem mono {x : Except Failure α × Draft} {y : Except Failure β × Draft} (h : Outcome V d Q x y)
    {Q' : List Line → α → β → Prop} (hQ : ∀ new a b, Q new a b → Q' new a b) :
    Outcome V d Q' x y := by
  cases h with
  | ok hlines hblocks hdepth htwin hq => exact .ok hlines hblocks hdepth htwin (hQ _ _ _ hq)
  | error hcause => exact .error hcause

/-- Two outcomes in a row: the second runs began where the first ended. -/
theorem trans {e : Draft} {new : List Line} (hlines : e.lines = d.lines ++ new)
    (hblocks : Blocks V d.depth new) (hdepth : e.depth = d.depth)
    {x : Except Failure γ × Draft} {y : Except Failure δ × Draft}
    (h : Outcome V e (fun more => S (new ++ more)) x y) : Outcome V d S x y := by
  cases h with
  | ok hlines' hblocks' hdepth' htwin hs =>
    refine .ok ?_ (hblocks.append (hdepth ▸ hblocks')) (hdepth'.trans hdepth) htwin hs
    rw [hlines', hlines, List.append_assoc]
  | error hcause => exact .error hcause

end Outcome

namespace Writes

variable {Q : List Line → α → β → Prop} {S : List Line → γ → δ → Prop} {R : α → β → Prop}
  {act : Compile α} {act' : Compile β} {next : α → Compile γ} {next' : β → Compile δ}

theorem mono (h : Writes V depth Q act act') {Q' : List Line → α → β → Prop}
    (hQ : ∀ new a b, Q new a b → Q' new a b) : Writes V depth Q' act act' :=
  fun d d' hdepth htwin => (h d d' hdepth htwin).mono hQ

/-- **Two actions in a row.** The lines of the second are behind those of
the first. -/
theorem bind (h : Writes V depth Q act act')
    (hnext : ∀ new a b, Q new a b →
      Writes V depth (fun more => S (new ++ more)) (next a) (next' b)) :
    Writes V depth S (act >>= next) (act' >>= next') := by
  intro d d' hdepth htwin
  have hfirst := h d d' hdepth htwin
  rw [exec_bind, exec_bind]
  generalize exec act d = x, exec act' d' = y at hfirst
  cases hfirst with
  | ok hlines hblocks hdepth' htwin' hq =>
    exact .trans hlines hblocks hdepth' (hnext _ _ _ hq _ _ (hdepth'.trans hdepth) htwin')
  | error hcause => exact .error hcause

theorem pure {a : α} {b : β} (h : Q [] a b) :
    Writes V depth Q (Pure.pure a) (Pure.pure b) :=
  fun _ _ _ htwin => .ok (by simp) .nil rfl htwin h

/-- Both actions fail for the same cause. -/
theorem throw {f f' : Failure} (h : f'.cause = f.cause) :
    Writes V depth Q (MonadExcept.throw f) (MonadExcept.throw f') :=
  fun _ _ _ _ => .error h

theorem failAt (n n' : Node) (cause : Cause) :
    Writes V depth Q (Compile.failAt n cause) (Compile.failAt n' cause) := throw rfl

/-- What is read from a node and from its twin. -/
theorem read (x : Except Failure α) :
    Alike V depth (fun a b => x = .ok a ∧ b = a) (liftExcept x)
      (liftExcept (x.mapError Failure.unlocated)) := by
  intro d d' _ htwin
  rw [exec_liftExcept, exec_liftExcept]
  cases x with
  | error f => exact .error rfl
  | ok a => exact .ok (by simp) .nil rfl htwin ⟨rfl, rfl⟩

/-- An action on twin drafts that adds no line and gives related things. -/
theorem lift {act : Drafting α} {act' : Drafting β}
    (hlines : ∀ d, (act d).2.lines = d.lines) (hdepth : ∀ d, (act d).2.depth = d.depth)
    (h : ∀ d d', d.Twin d' → (act d).2.Twin (act' d').2 ∧ R (act d).1 (act' d').1) :
    Alike V depth R (liftM act) (liftM act') := by
  intro d d' _ htwin
  obtain ⟨htwin', hR⟩ := h d d' htwin
  exact .ok (by rw [hlines, List.append_nil]) .nil (hdepth d) htwin' hR

variable {ι : Type} {P : List Line → Prop}

/-- An action for every element of a list, with a relation between lists
that holds element by element. -/
theorem mapM {f : ι → Compile α} {f' : ι → Compile β} {Rs : List α → List β → Prop}
    (hnil : Rs [] []) (hcons : ∀ a b as bs, R a b → Rs as bs → Rs (a :: as) (b :: bs))
    (l : List ι) (h : ∀ i ∈ l, Alike V depth R (f i) (f' i)) :
    Alike V depth Rs (l.mapM f) (l.mapM f') := by
  induction l with
  | nil => exact pure hnil
  | cons i l ih =>
    rw [List.mapM_cons, List.mapM_cons]
    refine (h i List.mem_cons_self).bind fun _ a b hab => ?_
    refine (ih fun j hj => h j (List.mem_cons_of_mem _ hj)).bind fun _ as bs hrest => ?_
    exact pure (hcons a b as bs hab hrest)

theorem forM {f f' : ι → Compile Unit} (l : List ι)
    (h : ∀ i ∈ l, Alike V depth (fun _ _ => True) (f i) (f' i)) :
    Alike V depth (fun _ _ => True) (l.forM f) (l.forM f') := by
  induction l with
  | nil => exact pure trivial
  | cons i l ih =>
    refine (h i List.mem_cons_self).bind fun _ _ _ _ => ?_
    exact ih fun j hj => h j (List.mem_cons_of_mem _ hj)

/-! ## Actions on a draft -/

theorem ref (n : Option Node) :
    Alike V depth (Expr.Twin V) (liftM (Drafting.ref n))
      (liftM (Drafting.ref (n.map Node.unlocated))) :=
  lift (fun _ => rfl) (fun _ => rfl) fun d d' htwin =>
    ⟨htwin.ref n, .ref _, by rw [Drafting.ref_apply, htwin.refs_length]; rfl⟩

/-- What is recorded may differ. -/
theorem note (event event' : Event) :
    Alike V depth (fun _ _ => True) (liftM (Drafting.note event)) (liftM (Drafting.note event')) :=
  lift (fun _ => rfl) (fun _ => rfl) fun _ _ htwin =>
    ⟨⟨htwin.depth, htwin.lines, htwin.refs, htwin.helpers, htwin.fresh⟩, trivial⟩

theorem use (helper : Helper) :
    Alike V depth (fun _ _ => True) (liftM (Drafting.use helper))
      (liftM (Drafting.use helper)) := by
  refine lift (fun d => ?_) (fun d => ?_) fun _ _ htwin => ⟨htwin.use helper, trivial⟩ <;>
    · rw [Drafting.use_apply]
      split <;> rfl

/-- A call of a helper. -/
theorem apply (helper : Helper) {args args' : List Expr} (hargs : Expr.Twins V args args') :
    Alike V depth (Expr.Twin V) (liftM (Drafting.apply helper args))
      (liftM (Drafting.apply helper args')) := by
  refine (use helper).bind fun _ _ _ _ => pure ⟨.apply helper hargs.isOver, ?_⟩
  rw [hargs.eq, Expr.unmarked, Expr.unmarkedAll_eq]

/-- A node with some fields replaced. -/
theorem replace {base base' : Expr} (hbase : Expr.Twin V base base')
    {fields : List (Text × Expr)} (hfields : ∀ f ∈ fields, V.field f.1 ∧ f.2.Over V) :
    Alike V depth (Expr.Twin V) (liftM (Drafting.replace base fields))
      (liftM (Drafting.replace base' (fields.map fun f => (f.1, f.2.unmarked)))) := by
  refine (use .replace).bind fun _ _ _ _ => pure ⟨.replace hbase.isOver
    (fun f hf => (hfields f hf).1) (fun f hf => (hfields f hf).2), ?_⟩
  rw [Expr.unmarked, Expr.unmarkedAll_eq, List.map_cons, List.map_map, List.map_map, hbase.eq]
  rfl

end Writes

/-! ## Lines and blocks -/

/-- Two actions at a depth are twins that write something, with a relation
between what they give. -/
abbrev Fills (V : Vocabulary) (depth : Nat) (R : α → β → Prop) (act : Compile α)
    (act' : Compile β) : Prop :=
  Writes V depth (fun new a b => new ≠ [] ∧ R a b) act act'

namespace Fills

variable {R : α → β → Prop} {S : γ → δ → Prop} {act : Compile α} {act' : Compile β}
  {s s' : Stmt}

theorem alike (h : Fills V depth R act act') : Alike V depth R act act' :=
  h.mono fun _ _ _ hR => hR.2

/-- What is written later is something too. -/
theorem of_next {next : α → Compile γ} {next' : β → Compile δ} (h : Alike V depth R act act')
    (hnext : ∀ a b, R a b → Fills V depth S (next a) (next' b)) :
    Fills V depth S (act >>= next) (act' >>= next') := by
  refine h.bind fun _ a b hR => (hnext a b hR).mono fun more _ _ hS => ⟨?_, hS.2⟩
  exact fun hnil => hS.1 (List.append_eq_nil_iff.1 hnil).2

/-- And so is what was written before. -/
theorem bind {next : α → Compile γ} {next' : β → Compile δ} (h : Fills V depth R act act')
    (hnext : ∀ a b, R a b → Alike V depth S (next a) (next' b)) :
    Fills V depth S (act >>= next) (act' >>= next') := by
  refine Writes.bind h fun new a b hR => (hnext a b hR.2).mono fun more _ _ hS => ⟨?_, hS⟩
  exact fun hnil => hR.1 (List.append_eq_nil_iff.1 hnil).1

/-- A statement that opens no block. -/
theorem emit (hs : s.Over V) (hheader : s.isHeader = false) (hs' : s' = s.unmarked) :
    Fills V depth (fun _ _ => True) (liftM (Drafting.emit s)) (liftM (Drafting.emit s')) := by
  rintro d d' - htwin
  exact .ok rfl (.single hs hheader) rfl (hs' ▸ htwin.emit hs.isMark)
    ⟨List.cons_ne_nil _ _, trivial⟩

/-- **A block** behind its header. -/
theorem block (hs : s.Over V) (hheader : s.isHeader = true) (hs' : s' = s.unmarked)
    (h : Fills V (depth + 1) R act act') :
    Fills V depth R (do Drafting.emit s; inBlock act) (do Drafting.emit s'; inBlock act') := by
  intro d d' hdepth htwin
  have hheaded : (Drafting.emit s d).2.Twin (Drafting.emit s' d').2 :=
    hs' ▸ htwin.emit hs.isMark
  -- the block is written one level deeper, behind the header
  have hinside := h { (Drafting.emit s d).2 with depth := d.depth + 1 }
    { (Drafting.emit s' d').2 with depth := d'.depth + 1 } (by rw [hdepth])
    ⟨by rw [htwin.depth], hheaded.lines, hheaded.refs, hheaded.helpers, hheaded.fresh⟩
  rw [exec_bind_of_ok (exec_lift _ _), exec_bind_of_ok (exec_lift _ _), exec_inBlock, exec_inBlock]
  simp only [Drafting.emit_apply] at hinside ⊢
  generalize exec act _ = x, exec act' _ = y at hinside
  cases hinside with
  | ok hlines hblocks _ htwin' hR =>
    refine .ok ?_ (Blocks.header hs hheader hR.1 hblocks) rfl
      ⟨htwin.depth, htwin'.lines, htwin'.refs, htwin'.helpers, htwin'.fresh⟩
      ⟨List.cons_ne_nil _ _, hR.2⟩
    rw [hlines, List.append_assoc]
    rfl
  | error hcause => exact .error hcause

/-- **The mark of a line** before what is written there. -/
theorem marked (place : Location) (h : Fills V depth R act act') :
    Fills V depth R (do Drafting.mark place; act) (do Drafting.mark .unknown; act') := by
  intro d d' hdepth htwin
  have hrest := h (Drafting.mark place d).2 d' (by rw [Drafting.mark_apply]; exact hdepth)
    (htwin.mark place)
  rw [exec_bind_of_ok (exec_lift _ _), exec_bind_of_ok (exec_lift _ _)]
  change Outcome V d _ _ (exec act' d')
  generalize exec act _ = x, exec act' _ = y at hrest
  cases hrest with
  | ok hlines hblocks hdepth' htwin' hR =>
    rw [Drafting.mark_apply] at hlines hblocks hdepth'
    refine .ok ?_ (Blocks.marked place.line? hR.1 hblocks) hdepth' htwin'
      ⟨by simp [hR.1], hR.2⟩
    rw [hlines, List.append_assoc]
  | error hcause => exact .error hcause

end Fills

end Compile

end ScriptSplice
