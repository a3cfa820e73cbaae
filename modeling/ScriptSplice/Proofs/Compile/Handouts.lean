import Mathlib.Data.List.Nodup
import ScriptSplice.Proofs.Compile.Closed
import ScriptSplice.Proofs.Target.Naming
/-!
# What drafts hand out

A draft hands out references to its table of nodes and names of variables.
The runs of operations (`Compile.Runs`) list what was handed out on the
way, and everything on the list holds of the draft in the end
(`Compile.Runs.handouts`), whatever happened to the lines in between: the
table only grows, and no variable is handed out again. What rules do with
the parts of their nodes is built from operations
(`Compile.Logged.closed`), so all of it is such a run.
-/

namespace ScriptSplice

open Compile

variable {α β : Type}

/-! ## Numbers on the counter -/

namespace Draft

variable {stem : Text} {i j : Nat}

theorem handedName_of_lt (h : i < UInt32.size) : handedName stem i = variableName stem i := by
  rw [handedName, UInt32.toNat_ofNat', Nat.mod_eq_of_lt h]

/-- Variables have the same name if the counter has the same number. -/
theorem handedName_eq_iff :
    handedName stem i = handedName stem j ↔ i % UInt32.size = j % UInt32.size := by
  rw [handedName, handedName, UInt32.toNat_ofNat', UInt32.toNat_ofNat']
  exact ⟨variableName_injective, congrArg _⟩

/-- **Variables handed out one after another** have different names if and
only if there are not more of them than the counter has numbers. -/
theorem nodup_handedName (stem : Text) (start count : Nat) :
    ((List.range' start count).map (handedName stem)).Nodup ↔ count ≤ UInt32.size := by
  constructor
  · refine fun h => Nat.le_of_not_lt fun hlt => ?_
    have hlength : ((List.range' start count).map (handedName stem)).length = count := by simp
    -- the counter is back where it began
    have hsame := @List.Nodup.getElem_inj_iff _ _ h 0 (by omega) (UInt32.size) (by omega)
    simp [handedName_eq_iff] at hsame
  · refine fun h => (List.nodup_range' _).map_on fun x hx y hy hxy => ?_
    rw [handedName_eq_iff, UInt32.size] at hxy
    rw [List.mem_range'_1] at hx hy
    rw [UInt32.size] at h
    omega

end Draft

/-- What a draft hands out: a reference to a node or a run of nodes, with
the expression for it, or a variable. -/
inductive Handout where
  | ref (n : Option Node) (e : Expr)
  | slice (ns : List (Option Node)) (e : Expr)
  | name (n : Nat)

namespace Handout

/-- The variable that was handed out. -/
def name? : Handout → Option Nat
  | name n => some n
  | _ => none

/-- What was handed out is right for a draft. -/
def Holds (d : Draft) : Handout → Prop
  | ref n e => ∃ i, e = .ref i ∧ d.refs[i]? = some n
  | slice ns e => ∃ i j, e = .slice i j ∧ i ≤ j ∧ j ≤ d.refs.length ∧
      (d.refs.drop i).take (j - i) = ns
  | name n => n < d.fresh

/-- It stays right. -/
theorem Holds.mono {d d' : Draft} {g : Handout} (h : g.Holds d) (hrefs : d.refs <+: d'.refs)
    (hfresh : d.fresh ≤ d'.fresh) : g.Holds d' := by
  obtain ⟨more, hmore⟩ := hrefs
  cases g with
  | ref n e =>
    obtain ⟨i, he, hi⟩ := h
    have hlt := (List.getElem?_eq_some_iff.1 hi).1
    exact ⟨i, he, by rw [← hmore, List.getElem?_append_left hlt, hi]⟩
  | slice ns e =>
    obtain ⟨i, j, he, hij, hj, hns⟩ := h
    refine ⟨i, j, he, hij, ?_, ?_⟩
    · rw [← hmore, List.length_append]
      omega
    · rw [← hmore, List.drop_append_of_le_length (Nat.le_trans hij hj),
        List.take_append_of_le_length, hns]
      simp only [List.length_drop]
      omega
  | name n => exact Nat.lt_of_lt_of_le h hfresh

end Handout

/-- **What was handed out between two drafts** is right for the later one,
and the variables are those numbered since the earlier one, in order. -/
structure Handouts (d : Draft) (given : List Handout) (d' : Draft) : Prop where
  refs : d.refs <+: d'.refs
  fresh : d.fresh ≤ d'.fresh
  holds : ∀ g ∈ given, g.Holds d'
  names : given.filterMap Handout.name? = List.range' d.fresh (d'.fresh - d.fresh)

namespace Handouts

variable {d d' d'' : Draft} {given more : List Handout}

theorem nil (hrefs : d'.refs = d.refs) (hfresh : d'.fresh = d.fresh) : Handouts d [] d' where
  refs := hrefs ▸ List.prefix_rfl
  fresh := Nat.le_of_eq hfresh.symm
  holds := by simp
  names := by simp [hfresh]

/-- **One stretch after another.** The variables of the first are older
than those of the second. -/
theorem append (h : Handouts d given d') (h' : Handouts d' more d'') :
    Handouts d (given ++ more) d'' where
  refs := h.refs.trans h'.refs
  fresh := Nat.le_trans h.fresh h'.fresh
  holds := List.forall_mem_append.2 ⟨fun g hg => (h.holds g hg).mono h'.refs h'.fresh, h'.holds⟩
  names := by
    have hfresh := h.fresh
    have hfresh' := h'.fresh
    have hmiddle : d'.fresh = d.fresh + 1 * (d'.fresh - d.fresh) := by omega
    have hlength : d''.fresh - d.fresh = (d'.fresh - d.fresh) + (d''.fresh - d'.fresh) := by omega
    rw [List.filterMap_append, h.names, h'.names, hlength, ← List.range'_append, ← hmiddle]

/-- Only references and variables matter. -/
theorem congr (h : Handouts d given d') {e e' : Draft} (hrefs : e.refs = d.refs)
    (hfresh : e.fresh = d.fresh) (hrefs' : e'.refs = d'.refs) (hfresh' : e'.fresh = d'.fresh) :
    Handouts e given e' where
  refs := by
    rw [hrefs, hrefs']
    exact h.refs
  fresh := by
    rw [hfresh, hfresh']
    exact h.fresh
  holds g hg := (h.holds g hg).mono (hrefs' ▸ List.prefix_rfl) (Nat.le_of_eq hfresh'.symm)
  names := by
    rw [hfresh, hfresh']
    exact h.names

/-- **The names that are handed out** are different as long as the counter
does not start over. -/
theorem nodup_handedName (h : Handouts d given d') (stem : Text) :
    ((given.filterMap Handout.name?).map (Draft.handedName stem)).Nodup ↔
      (given.filterMap Handout.name?).length ≤ UInt32.size := by
  rw [h.names, List.length_range']
  exact Draft.nodup_handedName stem _ _

end Handouts

/-! ## Operations -/

open Drafting in
/-- **The operations on a draft**, each with what it hands out. -/
inductive Drafting.Operation : {α : Type} → Drafting α → (α → List Handout) → Prop
  | get : Operation (get : Drafting Draft) fun _ => []
  | emit (s : Stmt) : Operation (emit s) fun _ => []
  | mark (place : Location) : Operation (mark place) fun _ => []
  | enter : Operation enter fun _ => []
  | leave (depth : Nat) : Operation (leave depth) fun _ => []
  | ref (n : Option Node) : Operation (ref n) fun e => [.ref n e]
  | slice (ns : List (Option Node)) : Operation (slice ns) fun e => [.slice ns e]
  | freshVariable : Operation freshVariable fun n => [.name n]
  | use (h : Helper) : Operation (use h) fun _ => []
  | apply (h : Helper) (args : List Expr) : Operation (apply h args) fun _ => []
  | missing : Operation missing fun _ => []
  | takeFrom (i : Nat) : Operation (takeFrom i) fun _ => []
  | appendLines (lines : List Line) : Operation (appendLines lines) fun _ => []
  | indentFrom (i : Nat) : Operation (indentFrom i) fun _ => []
  | insertLine (i : Nat) (line : Line) : Operation (insertLine i line) fun _ => []
  | note (e : Event) : Operation (note e) fun _ => []

namespace Drafting.Operation

variable {act : Drafting α} {given : α → List Handout}

/-- **What an operation hands out** is right from then on. -/
theorem handouts (h : Operation act given) (d : Draft) :
    Handouts d (given (act d).1) (act d).2 := by
  cases h with
  | ref n =>
    refine ⟨List.prefix_append _ _, Nat.le_refl _, ?_, by simp [Handout.name?]⟩
    exact List.forall_mem_singleton.2 ⟨d.refs.length, rfl, by simp⟩
  | slice ns =>
    refine ⟨List.prefix_append _ _, Nat.le_refl _, ?_, by simp [Handout.name?]⟩
    exact List.forall_mem_singleton.2
      ⟨d.refs.length, d.refs.length + ns.length, rfl, by omega, by simp, by simp⟩
  | freshVariable =>
    refine ⟨List.prefix_rfl, Nat.le_succ _, ?_, by simp [Handout.name?]⟩
    exact List.forall_mem_singleton.2 (Nat.lt_succ_self d.fresh)
  | mark place =>
    rw [mark_apply]
    exact .nil rfl rfl
  | use h | apply h | missing =>
    refine .nil ?_ ?_ <;> (simp only [apply_apply, missing_apply, use_apply]; split <;> rfl)
  | _ => exact .nil rfl rfl

end Drafting.Operation

/-! ## Runs -/

/-- **The runs of operations.** An action leads from a draft to another
one with an outcome; listed is what was handed out on the way. -/
inductive Compile.Runs :
    {α : Type} → Compile α → Draft → List Handout → Except Failure α → Draft → Prop
  | operation {α : Type} {act : Drafting α} {given : α → List Handout}
      (h : Drafting.Operation act given) (d : Draft) :
      Runs (liftM act) d (given (act d).1) (.ok (act d).1) (act d).2
  | pure {α : Type} (a : α) (d : Draft) : Runs (Pure.pure a) d [] (.ok a) d
  | throw {α : Type} (e : Failure) (d : Draft) :
      Runs (MonadExcept.throw e : Compile α) d [] (.error e) d
  | bind {α β : Type} {act : Compile α} {next : α → Compile β} {d d' d'' : Draft}
      {given more : List Handout} {a : α} {r : Except Failure β} :
      Runs act d given (.ok a) d' → Runs (next a) d' more r d'' →
      Runs (act >>= next) d (given ++ more) r d''
  | bind_error {α β : Type} {act : Compile α} {next : α → Compile β} {d d' : Draft}
      {given : List Handout} {e : Failure} : Runs act d given (.error e) d' →
      Runs (act >>= next) d given (.error e) d'
  | tryCatch {α : Type} {act : Compile α} {handle : Failure → Compile α} {d d' : Draft}
      {given : List Handout} {a : α} : Runs act d given (.ok a) d' →
      Runs (MonadExcept.tryCatch act handle) d given (.ok a) d'
  | tryCatch_error {α : Type} {act : Compile α} {handle : Failure → Compile α}
      {d d' d'' : Draft} {given more : List Handout} {e : Failure} {r : Except Failure α} :
      Runs act d given (.error e) d' → Runs (handle e) d' more r d'' →
      Runs (MonadExcept.tryCatch act handle) d (given ++ more) r d''
  | inBlock {α : Type} {act : Compile α} {d d' : Draft} {given : List Handout}
      {r : Except Failure α} : Runs act { d with depth := d.depth + 1 } given r d' →
      Runs (inBlock act) d given r { d' with depth := d.depth }

namespace Compile.Runs

variable {act : Compile α} {d d' : Draft} {given : List Handout} {r : Except Failure α}

/-- A run ends as the action does. -/
theorem exec_eq (h : Runs act d given r d') : exec act d = (r, d') := by
  induction h with
  | operation | pure | throw => rfl
  | bind _ _ ih ihnext => rw [exec_bind_of_ok ih, ihnext]
  | bind_error _ ih => rw [exec_bind, ih]
  | tryCatch _ ih => rw [exec_tryCatch, ih]
  | tryCatch_error _ _ ih ihhandle =>
    rw [exec_tryCatch, ih]
    exact ihhandle
  | inBlock _ ih => rw [exec_inBlock, ih]

/-- **What a run hands out is right in the end.** -/
theorem handouts (h : Runs act d given r d') : Handouts d given d' := by
  induction h with
  | operation h d => exact h.handouts d
  | pure | throw => exact .nil rfl rfl
  | bind _ _ ih ihnext => exact ih.append ihnext
  | bind_error _ ih => exact ih
  | tryCatch _ ih => exact ih
  | tryCatch_error _ _ ih ihhandle => exact ih.append ihhandle
  | inBlock _ ih => exact ih.congr rfl rfl rfl rfl

end Compile.Runs

/-! ## Actions built from operations -/

/-- **An action built from operations.** From every draft there is a run. -/
def Compile.Logged (act : Compile α) : Prop :=
  ∀ d, ∃ given, Runs act d given (exec act d).1 (exec act d).2

namespace Compile.Logged

theorem pure (a : α) : Logged (Pure.pure a) := fun d => ⟨[], .pure a d⟩

theorem throw (e : Failure) : Logged (MonadExcept.throw e : Compile α) := fun d =>
  ⟨[], .throw e d⟩

theorem bind_of_ok {act : Compile α} {next : α → Compile β} (h : Logged act)
    (hnext : ∀ a d d', exec act d = (.ok a, d') → Logged (next a)) : Logged (act >>= next) := by
  intro d
  obtain ⟨given, hgiven⟩ := h d
  rw [exec_bind]
  rcases hact : exec act d with ⟨e | a, d'⟩ <;> rw [hact] at hgiven
  · exact ⟨given, .bind_error hgiven⟩
  · obtain ⟨more, hmore⟩ := hnext a d d' hact d'
    exact ⟨given ++ more, .bind hgiven hmore⟩

theorem bind {act : Compile α} {next : α → Compile β} (h : Logged act)
    (hnext : ∀ a, Logged (next a)) : Logged (act >>= next) :=
  h.bind_of_ok fun a _ _ _ => hnext a

theorem inBlock {act : Compile α} (h : Logged act) : Logged (inBlock act) := by
  intro d
  obtain ⟨given, hgiven⟩ := h { d with depth := d.depth + 1 }
  rw [exec_inBlock]
  exact ⟨given, .inBlock hgiven⟩

/-! ### Actions that cannot fail -/

theorem operation {act : Drafting α} {given : α → List Handout}
    (h : Drafting.Operation act given) : Logged (liftM act) := fun d =>
  ⟨given (act d).1, .operation h d⟩

theorem lift_pure (a : α) : Logged (liftM (Pure.pure a : Drafting α)) := pure a

theorem lift_bind {act : Drafting α} {next : α → Drafting β} (h : Logged (liftM act))
    (hnext : ∀ a, Logged (liftM (next a))) : Logged (liftM (act >>= next)) := by
  have hlift : (liftM (act >>= next) : Compile β) =
      liftM act >>= fun a => (liftM (next a) : Compile β) := rfl
  rw [hlift]
  exact h.bind hnext

theorem lift_mapM {f : α → Drafting β} (l : List α) (h : ∀ a ∈ l, Logged (liftM (f a))) :
    Logged (liftM (l.mapM f)) := by
  induction l with
  | nil => exact lift_pure _
  | cons a l ih =>
    rw [List.mapM_cons]
    refine lift_bind (h a List.mem_cons_self) fun _ => lift_bind (ih ?_) fun _ => lift_pure _
    exact fun b hb => h b (List.mem_cons_of_mem _ hb)

theorem lift_forM {f : α → Drafting Unit} (l : List α) (h : ∀ a ∈ l, Logged (liftM (f a))) :
    Logged (liftM (l.forM f)) := by
  induction l with
  | nil => exact lift_pure _
  | cons a l ih =>
    exact lift_bind (h a List.mem_cons_self) fun _ =>
      ih fun b hb => h b (List.mem_cons_of_mem _ hb)

/-! ### Collectors -/

theorem emitRun (run : List (Option Node)) : Logged (liftM (Collector.emitRun run)) := by
  unfold Collector.emitRun
  split
  · exact lift_pure _
  · exact lift_bind (operation (.ref _)) fun _ => operation (.emit _)
  · exact lift_bind (operation (.slice _)) fun _ => operation (.emit _)

theorem addStatic (c : Collector) (run : List (Option Node)) :
    Logged (liftM (c.addStatic run)) := by
  unfold Collector.addStatic
  split
  · exact lift_bind (lift_mapM run fun _ _ => operation (.ref _)) fun _ => lift_pure _
  · exact lift_bind (emitRun run) fun _ => lift_pure _
  · exact lift_bind (emitRun run) fun _ => lift_pure _

theorem addDynamic (c : Collector) (fragments : List Expr) :
    Logged (liftM (c.addDynamic fragments)) := by
  unfold Collector.addDynamic
  split
  · exact lift_pure _
  · exact lift_bind (lift_forM fragments fun _ _ => operation (.emit _)) fun _ => lift_pure _
  · exact lift_bind (lift_forM fragments fun _ _ => operation (.emit _)) fun _ => lift_pure _

theorem fillEmpty (c : Collector) : Logged (liftM c.fillEmpty) := by
  refine lift_bind (operation .get) fun d => ?_
  split
  · exact operation (.emit _)
  · exact lift_pure _

theorem enclose (c : Collector) : Logged (liftM c.enclose) :=
  lift_bind (operation .freshVariable) fun _ => lift_bind (operation (.indentFrom _)) fun _ =>
    lift_bind (operation .get) fun _ => lift_bind (operation (.insertLine _ _)) fun _ =>
      lift_bind (operation .get) fun _ => lift_bind (operation (.note _)) fun _ => lift_pure _

theorem flush (c : Collector) : Logged (liftM c.flush) := by
  unfold Collector.flush
  split
  · exact operation (.apply _ _)
  · exact lift_bind (fillEmpty c) fun _ => lift_pure _
  · exact lift_bind (fillEmpty c) fun _ => lift_bind (enclose c) fun _ => operation (.apply _ _)

/-! ### Sequences -/

theorem splice_open (s : Splice) (collection : Collection) (i count : Nat) :
    Logged (liftM (s.open collection i count)) := by
  unfold Splice.open
  split
  · exact lift_pure _
  · exact lift_bind (operation (.note _)) fun _ => lift_pure _

theorem splice_add (s : Splice) (c : Collector) (fragments : List Expr) :
    Logged (liftM (s.add c fragments)) :=
  lift_bind (operation (.takeFrom _)) fun _ => lift_bind (addStatic c _) fun c =>
    lift_bind (operation (.appendLines _)) fun _ => lift_bind (addDynamic c fragments) fun _ =>
      lift_bind (operation .get) fun _ => lift_pure _

theorem splice_close (s : Splice) : Logged (liftM s.close) := by
  unfold Splice.close
  split
  · exact lift_pure _
  · exact lift_bind (addStatic _ _) fun c => lift_bind (flush c) fun _ => lift_pure _

theorem splice_step (collection : Collection) (count : Nat) (s : Splice)
    {child : Option Part × Nat} (h : ∀ p, child.1 = some p → Logged p.run) :
    Logged (Splice.step collection count s child) := by
  obtain ⟨_ | p, i⟩ := child
  · exact pure _
  · refine (h p rfl).bind fun r => ?_
    cases r with
    | none => exact pure _
    | some fragments => exact (splice_open s collection i count).bind fun c => splice_add s c _

theorem splice_loop (collection : Collection) (count : Nat) (s : Splice)
    (children : List (Option Part × Nat))
    (h : ∀ child ∈ children, ∀ p, child.1 = some p → Logged p.run) :
    Logged (children.foldlM (Splice.step collection count) s) := by
  induction children generalizing s with
  | nil => exact pure _
  | cons child children ih =>
    rw [List.foldlM_cons]
    exact (splice_step collection count s (h child List.mem_cons_self)).bind fun s =>
      ih s fun c hc => h c (List.mem_cons_of_mem _ hc)

/-- Splicing is built from operations if the work on the children is. -/
theorem splice (collection : Collection) {parts : List (Option Part)}
    (hparts : ∀ p, some p ∈ parts → Logged p.run) : Logged (splice collection parts) := by
  refine (operation .get).bind fun d => (splice_loop _ _ _ _ ?_).bind fun s => splice_close s
  exact fun child hchild p hp =>
    hparts p (hp ▸ (List.mem_zipIdx hchild).2.2 ▸ List.getElem_mem _)

/-- **The actions built from operations** are closed under building. -/
theorem closed : Closed Logged where
  lawful := inferInstance
  lawful' := inferInstance
  lawful_lift := inferInstance
  lawful_lift' := inferInstance
  pure := pure
  throw := throw
  bind := bind
  throw_bind e _ _ := throw e
  inBlock := inBlock
  emit s := operation (.emit s)
  ref n := operation (.ref n)
  use h := operation (.use h)
  note e := operation (.note e)
  splice collection _ _ _ h := splice collection (forall_mem_map fun i hi => (h i hi).run)

end Compile.Logged

end ScriptSplice
