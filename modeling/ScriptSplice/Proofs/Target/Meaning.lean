import Mathlib.Tactic.Choose
import ScriptSplice.Proofs.Target.Effect
import ScriptSplice.Proofs.Target.Lines
import ScriptSplice.Proofs.Target.Spelling
/-!
# What generated lines do

What an expression denotes stays the same whatever further generated lines
do (`Runtime.Denotes`): the list of commands that a variable holds is
closed, and only the list of the block grows. So what the expressions of
lines that stand behind one another denote can be put together
(`Runtime.Does`).
-/

namespace ScriptSplice

variable {k k' : Nat} {σ τ : State}

namespace Runtime

variable (R : Runtime) {f f' f'' : Nat} {added added' : List (Option Node)}

/-! ## What expressions denote -/

/-- What an expression denotes, here and behind further generated lines. -/
def Denotes (f : Nat) (σ : State) (e : Expr) (v : Datum) : Prop :=
  ∃ t, Reads (e.render R.stem) t ∧
    ∀ f' added τ, Effect R.stem f f' added σ τ → R.eval τ t = some v

@[simp] theorem evalAll_eq (σ : State) (ts : List Term) : R.evalAll σ ts = ts.map (R.eval σ) := by
  induction ts with
  | nil => rw [evalAll, List.map_nil]
  | cons t ts ih => rw [evalAll, ih, List.map_cons]

namespace Denotes

variable {R} {helpers : List Helper} {e : Expr} {v : Datum}

/-- What an expression denotes stays the same. -/
theorem effect (h : R.Denotes f σ e v) (hτ : Effect R.stem f f' added σ τ) :
    R.Denotes f' τ e v := by
  obtain ⟨t, hread, heval⟩ := h
  exact ⟨t, hread, fun f'' added' ρ hρ => heval f'' (added ++ added') ρ (hτ.trans hρ)⟩

theorem bracketed (h : R.Denotes f σ e v) : R.Denotes f σ (.bracketed none e) v := by
  obtain ⟨t, hread, heval⟩ := h
  exact ⟨t, hread.bracketed, heval⟩

variable (hstem : R.stem.isName = true) (hσ : σ.Good R helpers k)

include hstem hσ

/-- A reference denotes the node in the table. -/
theorem ref {before : List (Option Node)} {n : Option Node} (h : before ++ [n] <+: R.refs) :
    R.Denotes f σ (.ref before.length) (.node n) := by
  refine ⟨_, Reads.ref hstem _, fun f' added τ hτ => ?_⟩
  obtain ⟨rest, hrest⟩ := h
  have hn : R.refs[before.length]? = some n := by
    rw [← hrest, List.append_assoc]
    simp
  simp only [eval, (hσ.effect hτ).table, Option.bind_eq_bind, Option.bind_some, item, hn,
    Option.map_some]

/-- A slice denotes a run of nodes in the table. -/
theorem slice {before ns : List (Option Node)} (h : before ++ ns <+: R.refs) :
    R.Denotes f σ (.slice before.length (before.length + ns.length)) (.nodes ns) := by
  refine ⟨_, Reads.run hstem _ _, fun f' added τ hτ => ?_⟩
  obtain ⟨rest, hrest⟩ := h
  have hns : (R.refs.drop before.length).take (before.length + ns.length - before.length) = ns := by
    rw [← hrest, List.append_assoc, List.drop_left, Nat.add_sub_cancel_left, List.take_left]
  simp only [eval, (hσ.effect hτ).table, Option.bind_eq_bind, Option.bind_some, Runtime.slice,
    hns]

/-- The sequence of some items. -/
theorem children (hh : .children ∈ helpers) {items : List (Expr × Datum)}
    (h : ∀ p ∈ items, R.Denotes f σ p.1 p.2) {ns : List (Option Node)}
    (hns : items.map (·.2) = ns.map .node) :
    R.Denotes f σ (.apply .children [.list (items.map (·.1))]) (.sequence ns) := by
  -- one term for each item, and the list of them for the list
  choose! term hread heval using h
  have hlist := Reads.exprs (items.map fun p => (p.1, term p)) (List.forall_mem_map.2 hread)
  simp only [List.map_map, Function.comp_def] at hlist
  have happly := Reads.apply hstem .children [(.list (items.map (·.1)), .list (items.map term))]
    (List.forall_mem_singleton.2 (hlist.readsItem _))
  refine ⟨_, happly, fun f' added τ hτ => ?_⟩
  have hitems : (items.map term).map (R.eval τ) = ns.map fun n => some (.node n) := by
    rw [List.map_map]
    have hvalues : items.map (R.eval τ ∘ term) = (items.map (·.2)).map some := by
      rw [List.map_map]
      exact List.map_congr_left fun p hp => heval p hp f' added τ hτ
    rw [hvalues, hns, List.map_map]
    rfl
  have hnodes : (ns.map fun n => some (Datum.node n)).mapM (fun v => v.bind Datum.node?) =
      some ns := by
    rw [List.mapM_map]
    exact (List.mapM_pure (f := id)).trans (congrArg some (List.map_id ns))
  simp only [List.map_cons, List.map_nil, eval, (hσ.effect hτ).helper _ hh, evalAll_eq, hitems]
  simp only [Option.bind_eq_bind, Option.bind_some, hnodes]
  rfl

/-- The sequence of the commands that a variable holds. -/
theorem children_var (hh : .children ∈ helpers) {i a : Nat} {ns : List (Option Node)} (hi : i < f)
    (hvar : σ.names (variableName R.stem i) = some (.commands a)) (ha : a ≠ σ.innermost)
    (hns : σ.lists[a]? = some ns) :
    R.Denotes f σ (.apply .children [.var i]) (.sequence ns) := by
  have happly := Reads.apply hstem .children [(.var i, .name (variableName R.stem i))]
    (List.forall_mem_singleton.2 ((Reads.var hstem i).readsItem _))
  refine ⟨_, happly, fun f' added τ hτ => ?_⟩
  -- only the list of the innermost block grows, and the variable has another
  have hlist : τ.lists[a]? = some ns := by rw [hτ.lists a ns hns, if_neg ha]
  simp only [List.map_cons, List.map_nil, eval, (hσ.effect hτ).helper _ hh, evalAll_eq,
    hτ.variable_eq hi, hvar]
  change (τ.lists[a]?).map Datum.sequence = _
  rw [hlist]
  rfl

/-- A node with some fields replaced. -/
theorem replace (hh : .replace ∈ helpers) {n n' : Node} (he : R.Denotes f σ e (.node (some n)))
    {cs : List (Text × Expr × Datum)}
    (hcs : ∀ c ∈ cs, c.1.isName = true ∧ R.Denotes f σ c.2.1 c.2.2)
    {changes : List (Text × Value Node)}
    (hchanges : cs.mapM (fun c => c.2.2.field?.map fun v => (c.1, v)) = some changes)
    (hn : n.override changes = some n') :
    R.Denotes f σ (.apply .replace (e :: cs.map fun c => .keyword c.1 c.2.1))
      (.node (some n')) := by
  obtain ⟨t, ht, heval⟩ := he
  choose! hname term hread hterm using hcs
  have hkeywords : ∀ c ∈ cs, ReadsItem (.call (.name (Helper.replace.localName R.stem)))
      ((Expr.keyword c.1 c.2.1).render R.stem) (.keyword c.1 (term c)) := by
    intro c hc
    rw [Expr.render]
    exact (hread c hc).keyword (hname c hc) _
  have happly := Reads.apply hstem .replace
    ((e, t) :: cs.map fun c => (.keyword c.1 c.2.1, .keyword c.1 (term c)))
    (List.forall_mem_cons.2 ⟨ht.readsItem _, List.forall_mem_map.2 hkeywords⟩)
  simp only [List.map_cons, List.map_map, Function.comp_def] at happly
  refine ⟨_, happly, fun f' added τ hτ => ?_⟩
  have hvalues : cs.map (fun c => R.eval τ (term c)) = cs.map fun c => some c.2.2 :=
    List.map_congr_left fun c hc => hterm c hc f' added τ hτ
  have hfields : Runtime.changes (cs.map fun c => .keyword c.1 (term c))
      (cs.map fun c => some c.2.2) = some changes := by
    rw [Runtime.changes, List.zip_map', List.mapM_map, ← hchanges]
    rfl
  simp only [eval, (hσ.effect hτ).helper _ hh, evalAll_eq, List.map_cons, List.map_map,
    Function.comp_def, heval f' added τ hτ, hvalues]
  change (do return Datum.node (← n.override (← Runtime.changes _ _))) = _
  rw [hfields]
  simp [hn]

/-- What a converter makes of a name, in place of a node. -/
theorem interpolate {c x : Text} (hh : .interpolate c ∈ helpers) (hx : x.isName = true)
    {r : Expr} {n : Node} (hr : R.Denotes f σ r (.node (some n))) :
    R.Denotes f σ (.apply (.interpolate c) [.bracketed none (.verbatim x), r])
      (.node (some (R.convert c (.name x) n))) := by
  obtain ⟨t, ht, heval⟩ := hr
  have hvalue : Reads ((Expr.bracketed none (.verbatim x)).render R.stem) (.name x) :=
    Reads.bracketed (e := .verbatim x) (Reads.name hx)
  have happly := Reads.apply hstem (.interpolate c)
    [(.bracketed none (.verbatim x), .name x), (r, t)]
    (List.forall_mem_cons.2 ⟨hvalue.readsItem _, List.forall_mem_singleton.2 (ht.readsItem _)⟩)
  refine ⟨_, happly, fun f' added τ hτ => ?_⟩
  simp only [List.map_cons, List.map_nil, eval, (hσ.effect hτ).helper _ hh, evalAll_eq,
    heval f' added τ hτ, Option.bind_eq_bind, Option.bind_some]
  change R.call τ (ascii "interpolate_" ++ c) _ _ = _
  unfold call
  rw [if_neg (by simp [ascii]), if_neg (by simp [ascii])]
  rfl

end Denotes

/-! ## What lines do -/

/-- Lines at a column take the variables from `f` up to `f'` and add to the
commands of their block, and behind them the expressions of some items
denote the values of these. -/
def Does (helpers : List Helper) (k : Nat) (ts : List Text) (f f' : Nat)
    (added : List (Option Node)) (items : List (Expr × Datum)) : Prop :=
  ∀ σ : State, σ.Good R helpers k → ∃ τ, R.Leads k ts σ τ ∧ Effect R.stem f f' added σ τ ∧
    ∀ p ∈ items, R.Denotes f' τ p.1 p.2

namespace Does

variable {R} {helpers : List Helper} {ts us : List Text} {items items' : List (Expr × Datum)}

theorem nil (f : Nat) : R.Does helpers k [] f f [] [] :=
  fun σ _ => ⟨σ, .nil, .refl _ _ _, by simp⟩

/-- **Lines behind one another** do what the first do and what the others
do. -/
theorem append (h : R.Does helpers k ts f f' added items)
    (h' : R.Does helpers k us f' f'' added' items') :
    R.Does helpers k (ts ++ us) f f'' (added ++ added') (items ++ items') := by
  intro σ hσ
  obtain ⟨ρ, hleads, heffect, hitems⟩ := h σ hσ
  obtain ⟨τ, hleads', heffect', hitems'⟩ := h' ρ (hσ.effect heffect)
  refine ⟨τ, hleads.append hleads', heffect.trans heffect', fun p hp => ?_⟩
  rcases List.mem_append.1 hp with hp | hp
  · exact (hitems p hp).effect heffect'
  · exact hitems' p hp

/-- Other expressions can be made of those that there are. -/
theorem map (h : R.Does helpers k ts f f' added items)
    (hitems : ∀ σ : State, σ.Good R helpers k → (∀ p ∈ items, R.Denotes f' σ p.1 p.2) →
      ∀ p ∈ items', R.Denotes f' σ p.1 p.2) : R.Does helpers k ts f f' added items' := by
  intro σ hσ
  obtain ⟨τ, hleads, heffect, hdenotes⟩ := h σ hσ
  exact ⟨τ, hleads, heffect, hitems τ (hσ.effect heffect) hdenotes⟩

/-- One more line, which has an effect of its own. -/
theorem snoc {t : Text} (h : R.Does helpers k ts f f' added items)
    (ht : ∀ σ : State, σ.Good R helpers k → (∀ p ∈ items, R.Denotes f' σ p.1 p.2) →
      ∃ s τ, readLine t = some (k, s) ∧ R.perform σ s = some τ ∧
        Effect R.stem f' f'' added' σ τ) :
    R.Does helpers k (ts ++ [t]) f f'' (added ++ added') [] := by
  intro σ hσ
  obtain ⟨ρ, hleads, heffect, hdenotes⟩ := h σ hσ
  have hρ := hσ.effect heffect
  obtain ⟨s, τ, hread, hperform, heffect'⟩ := ht ρ hρ hdenotes
  have hτ := hρ.effect heffect'
  exact ⟨τ, hleads.append (.statement hread hperform hτ.header hτ.column),
    heffect.trans heffect', by simp⟩

end Does

/-- Adding to the innermost commands is the effect of adding. -/
theorem effect_add (stem : Text) (f : Nat) (σ : State) (ns : List (Option Node)) :
    Effect stem f f ns σ (σ.add σ.innermost ns) where
  le := Nat.le_refl f
  names _ _ := rfl
  blocks := rfl
  header := rfl
  lists a ms hms := by
    rw [State.add, List.getElem?_modify, hms]
    by_cases ha : σ.innermost = a
    · simp [ha]
    · simp [ha, Ne.symm ha]

/-- The commands collected so far are those of the innermost block. -/
theorem eval_commands {R : Runtime} {helpers : List Helper} (hσ : σ.Good R helpers k) :
    R.eval σ (.attribute (.name (runtimeName R.stem)) (ascii "commands")) =
      some (.commands σ.innermost) := by
  simp only [eval, hσ.runtime, Option.bind_eq_bind, Option.bind_some]
  rfl

namespace Does

variable {R} {helpers : List Helper} {ts us : List Text} {w δ : Nat}
  (hstem : R.stem.isName = true)

/-- A statement adds what the expression before it denotes to the commands. -/
private theorem adds {stmt : Stmt} {e : Expr} {v : Datum} {ns : List (Option Node)}
    (h : R.Does helpers (δ * w) ts f f' added [(e, v)])
    (hblank : (stmt.render R.stem).head? ≠ some 0x20)
    (hstmt : ∀ t, Reads (e.render R.stem) t → ∃ s, Statement.read (stmt.render R.stem) = some s ∧
      ∀ σ : State, σ.Good R helpers (δ * w) → R.eval σ t = some v →
        R.perform σ s = some (σ.add σ.innermost ns)) :
    R.Does helpers (δ * w) (ts ++ [Line.render R.stem w ⟨δ, stmt⟩]) f f' (added ++ ns) [] := by
  refine h.snoc fun σ hσ hitems => ?_
  obtain ⟨t, hread, heval⟩ := hitems _ (List.mem_singleton_self _)
  obtain ⟨s, hs, hperform⟩ := hstmt t hread
  exact ⟨s, σ.add σ.innermost ns, readLine_render hs hblank,
    hperform σ hσ (heval f' [] σ (.refl _ _ _)), effect_add _ _ _ _⟩

include hstem

/-- The statement for one command. -/
theorem command {e : Expr} {n : Option Node}
    (h : R.Does helpers (δ * w) ts f f' added [(e, .node n)]) :
    R.Does helpers (δ * w) (ts ++ [Line.render R.stem w ⟨δ, .append e⟩]) f f' (added ++ [n])
      [] := by
  refine adds h ?_ fun t hread => ⟨_, read_append hstem hread, fun σ hσ heval => ?_⟩
  · simpa only [Stmt.render, commandsName, runtimeName, List.append_assoc] using
      head?_name_append hstem _
  · simp only [perform, eval_commands hσ, heval]
    rfl

/-- The statement for a run of commands. -/
theorem run {e : Expr} {ns : List (Option Node)}
    (h : R.Does helpers (δ * w) ts f f' added [(e, .nodes ns)]) :
    R.Does helpers (δ * w) (ts ++ [Line.render R.stem w ⟨δ, .extend e⟩]) f f' (added ++ ns)
      [] := by
  refine adds h ?_ fun t hread => ⟨_, read_extend hstem hread, fun σ hσ heval => ?_⟩
  · simpa only [Stmt.render, commandsName, runtimeName, List.append_assoc] using
      head?_name_append hstem _
  · simp only [perform, eval_commands hσ, heval]
    rfl

omit hstem in
/-- A statement that does nothing. -/
theorem pass (f : Nat) :
    R.Does helpers (δ * w) [Line.render R.stem w ⟨δ, .pass⟩] f f [] [] :=
  (nil f).snoc fun σ _ _ =>
    ⟨.pass, σ, readLine_render rfl (by simp [Stmt.render, ascii]), rfl, .refl _ _ _⟩

/-- **A scope** collects the commands of its block in its variable. -/
theorem scope (hh : .children ∈ helpers) {ns : List (Option Node)} (hk : δ * w < k') (hne : us ≠ [])
    (h : R.Does helpers k' us f f' ns []) :
    R.Does helpers (δ * w) (Line.render R.stem w ⟨δ, .scope f'⟩ :: us) f (f' + 1) []
      [(.apply .children [.var f'], .sequence ns)] := by
  intro σ hσ
  obtain ⟨τ, hleads, heffect, -⟩ := h _ (hσ.within f' k')
  obtain ⟨hτ, hvar, hlist⟩ := heffect.leave hσ hk
  have hread : readLine (Line.render R.stem w ⟨δ, .scope f'⟩) = some (δ * w,
      .scope (.call (.attribute (.name (runtimeName R.stem)) (ascii "scope")) [])
        (variableName R.stem f')) :=
    readLine_render (read_scope hstem f') (by simp [Stmt.render, ascii])
  have hperform : R.perform σ (.scope (.call (.attribute (.name (runtimeName R.stem))
      (ascii "scope")) []) (variableName R.stem f')) =
        some (σ.enter (variableName R.stem f')) := by
    simp only [perform, eval, hσ.runtime]
    rfl
  have hin : σ.column < k' := Nat.lt_of_le_of_lt (Nat.le_of_eq hσ.column) hk
  refine ⟨τ.closed (δ * w), .block hread hperform rfl hin (Nat.le_of_lt hk) hleads hne
    (hσ.effect hτ).column, hτ, List.forall_mem_singleton.2 ?_⟩
  refine .children_var hstem (hσ.effect hτ) hh (Nat.lt_succ_self _) hvar ?_ hlist
  rw [hτ.innermost]
  exact Nat.ne_of_gt hσ.innermost

end Does

end Runtime

end ScriptSplice
