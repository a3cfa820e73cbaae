import ScriptSplice.Proofs.Dispatch.Visits
import ScriptSplice.Proofs.Tree.Preorder
/-!
# The generic walk

A visitor walks if each of its actions notes its node, or is silent, and
then stops or goes on through all parts. It handles the nodes of the tree
in preorder, without those that have a node above them whose rule stops,
each by the rule it is resolved to; and it fails at the first of them that
no rule is for, when exactly those before it have been handled
(`Dispatcher.walk_preorder`).
-/

namespace ScriptSplice

variable {ε σ α β γ δ : Type}

/-- **A journal** of nodes and their rules, kept in a state beside the rules
themselves. -/
structure Journal (ε σ α γ : Type) where
  rules : σ → RuleSet α
  entries : σ → List γ
  /-- What is noted of a node and its rule, nothing if the rule is silent. -/
  entry : Node → RankedRule α → List γ
  stops : RankedRule α → Bool
  /-- The error at a node without a rule. -/
  failure : Node → ε

/-- How the walk goes on below a node. -/
def Journal.below (J : Journal ε σ α γ) (r : RankedRule α)
    (fields : Fields (Job (ExceptT ε (StateM σ)) β)) : ExceptT ε (StateM σ) Unit :=
  if J.stops r then pure () else Job.walk fields

/-- **A visitor that walks** by some rules. Each rule makes its entry, goes
on through all parts unless it stops, and changes neither the rules nor the
journal in any other way. -/
structure Dispatcher.Walks (d : Dispatcher (ExceptT ε (StateM σ)) α β) (J : Journal ε σ α γ)
    (rules : RuleSet α) : Prop where
  rules_eq : d.rules = do return J.rules (← get)
  missing (n : Node) : d.missing n = throw (J.failure n)
  handles : ∀ r ∈ rules.ranked, ∀ n fields, ∃ (enter leave : σ → σ) (result : β),
    (∀ s, J.rules (enter s) = J.rules s ∧ J.entries (enter s) = J.entries s ++ J.entry n r) ∧
    (∀ s, J.rules (leave s) = J.rules s ∧ J.entries (leave s) = J.entries s) ∧
    (do d.chosen n r; d.act r.action n fields) = (do
      modify enter
      J.below r fields
      modify leave
      return result)

/-! ## Surveys that walk -/

namespace Survey

/-- Rules that stop or walk on, and add no rules. -/
def Action.isPlain : Action → Bool
  | .passThrough => true
  | .follow s => s.adds.isEmpty &&
    match s.course with
    | .stop | .walk => true
    | _ => false

/-- Whether a rule stops at its node. -/
def Action.stops : Action → Bool
  | .passThrough => false
  | .follow s =>
    match s.course with
    | .stop => true
    | _ => false

/-- The choices that a survey reports are a journal. -/
def journal : Journal Kind State Action Text where
  rules := State.rules
  entries := State.choices
  entry n r := [choiceNote n.kind r.name]
  stops r := r.action.stops
  failure := Node.kind

/-- **A survey by plain rules is a walk.** -/
theorem walks_dispatcher {rules : RuleSet Action} (h : ∀ r ∈ rules.ranked, r.action.isPlain) :
    dispatcher.Walks journal rules where
  rules_eq := rfl
  missing _ := rfl
  handles r hr n fields := by
    have hplain := h r hr
    obtain ⟨⟨_, _, action, name, _⟩, _⟩ := r
    cases action with
    | passThrough =>
      exact ⟨fun s => { s with choices := s.choices ++ [choiceNote n.kind name] }, id, 0,
        fun _ => ⟨rfl, rfl⟩, fun _ => ⟨rfl, rfl⟩, rfl⟩
    | follow spec =>
      refine ⟨fun s => { s with
          log := s.log ++ [spec.name ++ ascii "@" ++ n.kind.name]
          choices := s.choices ++ [choiceNote n.kind name] },
        fun s => { s with log := s.log ++ [ascii "end " ++ spec.name] }, spec.contribution + 0,
        fun _ => ⟨rfl, rfl⟩, fun _ => ⟨rfl, rfl⟩, ?_⟩
      obtain ⟨_, _, _, _, course, _ | ⟨_, _⟩⟩ := spec
      · cases course with
        | stop => rfl
        | walk =>
          simp only [dispatcher, act, below, bind_assoc, pure_bind]
          rfl
        | child _ => cases hplain
        | sum => cases hplain
      · cases hplain

/-- Commands are gone through, coordinates are not, and numbers have no rule. -/
private def numberless : RuleSet Action :=
  RuleSet.empty.addAll
    [Spec.rule ⟨some .command, ascii "command", [], 0, .walk, []⟩,
      Spec.rule ⟨some .coordinate, ascii "coordinate", [], 1, .stop, []⟩]

end Survey

/-! ## Walking through nodes -/

namespace Journal

variable (J : Journal ε σ α γ) (rules : RuleSet α)

/-- The nodes that a walk does not go below. -/
def stopsAt (n : Node) : Bool := (rules.resolve n).any J.stops

/-- What is noted of a node, by the rule that it is resolved to. -/
def entryFor (n : Node) : List γ := (rules.resolve n).elim [] (J.entry n)

/-- **The outcome of walking** through some nodes from a state on. All of
them have a rule and are noted, or the walk fails at the first that has
none. -/
inductive Outcome (s : σ) : List Node → Except ε δ × σ → Prop
  | done {nodes : List Node} {b : δ} {s' : σ} : (∀ n ∈ nodes, (rules.resolve n).isSome) →
    J.rules s' = rules → J.entries s' = J.entries s ++ nodes.flatMap (J.entryFor rules) →
    Outcome s nodes (.ok b, s')
  | missed {before after : List Node} {n : Node} {s' : σ} :
    (∀ m ∈ before, (rules.resolve m).isSome) → rules.resolve n = none →
    J.rules s' = rules → J.entries s' = J.entries s ++ before.flatMap (J.entryFor rules) →
    Outcome s (before ++ n :: after) (.error (J.failure n), s')

/-- A walk that comes to a node without a rule at once notes nothing. -/
theorem Outcome.first {J : Journal ε σ α γ} {rules : RuleSet α} {s : σ} {n : Node}
    {after : List Node} (hn : rules.resolve n = none) (hs : J.rules s = rules) :
    J.Outcome rules s (n :: after) ((.error (J.failure n), s) : Except ε δ × σ) := by
  rw [← List.nil_append (n :: after)]
  exact .missed nofun hn hs (List.append_nil _).symm

/-- A node is noted before the walk goes on. -/
theorem Outcome.cons {J : Journal ε σ α γ} {rules : RuleSet α} {s s' : σ} {n : Node}
    {r : RankedRule α} {nodes : List Node} {out : Except ε δ × σ} (hr : rules.resolve n = some r)
    (hentries : J.entries s' = J.entries s ++ J.entry n r) (h : J.Outcome rules s' nodes out) :
    J.Outcome rules s (n :: nodes) out := by
  have hentry : J.entryFor rules n = J.entry n r := by rw [entryFor, hr, Option.elim_some]
  have hsome : (rules.resolve n).isSome := by rw [hr]; rfl
  cases h with
  | done hall hrules hout =>
    refine .done (List.forall_mem_cons.2 ⟨hsome, hall⟩) hrules ?_
    rw [hout, hentries, List.flatMap_cons, hentry, List.append_assoc]
  | missed hbefore hn hrules hout =>
    rw [← List.cons_append]
    refine .missed (List.forall_mem_cons.2 ⟨hsome, hbefore⟩) hn hrules ?_
    rw [hout, hentries, List.flatMap_cons, hentry, List.append_assoc]

/-- Work that walks through some nodes, from any state with the rules. -/
def Through (nodes : List Node) (w : ExceptT ε (StateM σ) δ) : Prop :=
  ∀ s, J.rules s = rules → J.Outcome rules s nodes (w.run.run s)

variable {J rules}

namespace Through

theorem pure (a : δ) : J.Through rules [] (Pure.pure a) :=
  fun _ hs => .done nofun hs (List.append_nil _).symm

/-- One walk after another, which is not begun if the first fails. -/
theorem bind {nodes nodes' : List Node} {w : ExceptT ε (StateM σ) δ}
    {next : δ → ExceptT ε (StateM σ) β} (h : J.Through rules nodes w)
    (hnext : ∀ a, J.Through rules nodes' (next a)) :
    J.Through rules (nodes ++ nodes') (w >>= next) := by
  intro s hs
  have hfirst := h s hs
  rw [run_bind]
  generalize w.run.run s = x at hfirst
  cases hfirst with
  | missed hbefore hn hrules hentries =>
    rw [List.append_assoc, List.cons_append]
    exact .missed hbefore hn hrules hentries
  | @done _ b s' hall hrules hentries =>
    have hsecond := hnext b s' hrules
    change J.Outcome rules s _ ((next b).run.run s')
    generalize (next b).run.run s' = y at hsecond
    cases hsecond with
    | done hall' hrules' hentries' =>
      refine .done (List.forall_mem_append.2 ⟨hall, hall'⟩) hrules' ?_
      rw [hentries', hentries, List.append_assoc, List.flatMap_append]
    | missed hbefore hn hrules' hentries' =>
      rw [← List.append_assoc]
      refine .missed (List.forall_mem_append.2 ⟨hall, hbefore⟩) hn hrules' ?_
      rw [hentries', hentries, List.append_assoc, List.flatMap_append]

/-- What neither walks nor notes anything can come last. -/
theorem before {nodes : List Node} {w : ExceptT ε (StateM σ) δ}
    {next : δ → ExceptT ε (StateM σ) β} (h : J.Through rules nodes w)
    (hnext : ∀ a, J.Through rules [] (next a)) : J.Through rules nodes (w >>= next) := by
  simpa using h.bind hnext

theorem modify {f : σ → σ}
    (hf : ∀ s, J.rules (f s) = J.rules s ∧ J.entries (f s) = J.entries s) :
    J.Through rules [] (modify f) := by
  intro s hs
  exact .done nofun ((hf s).1.trans hs) ((hf s).2.trans (List.append_nil _).symm)

theorem forM {ι : Type} {f : ι → ExceptT ε (StateM σ) Unit} {nodes : ι → List Node}
    (l : List ι) (h : ∀ i ∈ l, J.Through rules (nodes i) (f i)) :
    J.Through rules (l.flatMap nodes) (l.forM f) := by
  induction l with
  | nil => exact pure ()
  | cons i l ih =>
    exact (h i List.mem_cons_self).bind fun _ => ih fun j hj => h j (List.mem_cons_of_mem _ hj)

end Through

end Journal

namespace Dispatcher

variable {d : Dispatcher (ExceptT ε (StateM σ)) α β} {J : Journal ε σ α γ} {rules : RuleSet α}

namespace Walks

/-- Going on through all parts. -/
theorem through_walk {fields : Fields Node}
    (h : ∀ m ∈ Fields.nodes fields,
      J.Through rules ((m.pruned (J.stopsAt rules)).map Prod.snd) (d.job m).run) :
    J.Through rules
      ((Fields.nodes fields).flatMap fun m => (m.pruned (J.stopsAt rules)).map Prod.snd)
      (Job.walk (Fields.map d.job fields)) := by
  rw [Job.walk, Fields.nodes_map, List.forM_eq_forM, List.forM_map]
  exact .forM _ fun m hm => (h m hm).before fun _ => .pure _

/-- **Walking through a tree**: the nodes that are not below one to stop at,
in their order. -/
theorem through_job (hd : d.Walks J rules) (n : Node) :
    J.Through rules ((n.pruned (J.stopsAt rules)).map Prod.snd) (d.job n).run := by
  induction n using Node.induction with
  | step n ih =>
    intro s hs
    rw [d.run_job, d.run_dispatch_of_view J.rules hd.rules_eq, hs, Node.map_snd_pruned]
    cases hr : rules.resolve n with
    | none =>
      rw [hd.missing]
      exact .first hr hs
    | some r =>
      obtain ⟨enter, leave, result, henter, hleave, hact⟩ :=
        hd.handles r (List.mem_of_find?_eq_some hr) n (Fields.map d.job n.fields)
      have hstops : J.stopsAt rules n = J.stops r := by
        rw [Journal.stopsAt, hr, Option.any_some]
      have hbelow : J.Through rules
          (if J.stopsAt rules n then []
            else n.parts.flatMap fun m => (m.pruned (J.stopsAt rules)).map Prod.snd)
          (J.below r (Fields.map d.job n.fields)) := by
        rw [hstops, Journal.below]
        cases J.stops r with
        | true => exact .pure _
        | false => exact through_walk ih
      have hrest := hbelow.before fun _ =>
        (Journal.Through.modify hleave).before fun _ => .pure result
      dsimp only
      rw [hact]
      exact .cons hr (henter s).2 (hrest (enter s) ((henter s).1.trans hs))

end Walks

end Dispatcher

/-! ## What is handled -/

/-- A node that is handled, where it is found, and its rule. -/
structure Handling (α : Type) where
  path : Path
  node : Node
  rule : RankedRule α

namespace Handling

/-- A node that was come to is handled by the rule it is resolved to. -/
def of? (rules : RuleSet α) (x : Path × Node) : Option (Handling α) :=
  (rules.resolve x.2).map fun r => ⟨x.1, x.2, r⟩

variable {rules : RuleSet α} {l : List (Path × Node)}

theorem mem_filterMap {h : Handling α} :
    h ∈ l.filterMap (of? rules) ↔ (h.path, h.node) ∈ l ∧ rules.resolve h.node = some h.rule := by
  constructor
  · intro hh
    obtain ⟨x, hx, hof⟩ := List.mem_filterMap.1 hh
    obtain ⟨r, hr, rfl⟩ := Option.map_eq_some_iff.1 hof
    exact ⟨hx, hr⟩
  · rintro ⟨hl, hr⟩
    exact List.mem_filterMap.2 ⟨_, hl, by rw [of?, hr, Option.map_some]⟩

theorem pairwise_filterMap (h : l.Pairwise fun x y => x.1 < y.1) :
    (l.filterMap (of? rules)).Pairwise fun x y => x.path < y.path := by
  refine h.filterMap _ fun x y hxy u hu v hv => ?_
  obtain ⟨r, -, rfl⟩ := Option.map_eq_some_iff.1 hu
  obtain ⟨t, -, rfl⟩ := Option.map_eq_some_iff.1 hv
  exact hxy

theorem flatMap_entry (J : Journal ε σ α γ) (l : List (Path × Node)) :
    (l.filterMap (of? rules)).flatMap (fun h => J.entry h.node h.rule) =
      (l.map Prod.snd).flatMap (J.entryFor rules) := by
  induction l with
  | nil => rfl
  | cons x l ih =>
    rw [List.map_cons, List.flatMap_cons, ← ih, List.filterMap_cons, of?, Journal.entryFor]
    cases rules.resolve x.2 with
    | none => rfl
    | some r => rfl

end Handling

/-- **What a walk comes to.** -/
structure Journal.Walked (J : Journal ε σ α γ) (rules : RuleSet α) (root : Node) (s : σ)
    (handled : List (Handling α)) (out : Except ε β × σ) : Prop where
  /-- Each node is handled once, in preorder. -/
  ordered : handled.Pairwise fun x y => x.path < y.path
  /-- The nodes without a stopping rule above them are handled, by the rules
  they are resolved to, unless one of them that has no rule comes first. -/
  mem_iff (h : Handling α) : h ∈ handled ↔
    root.Reached (J.stopsAt rules) h.path h.node ∧ rules.resolve h.node = some h.rule ∧
      ∀ q m, root.Reached (J.stopsAt rules) q m → rules.resolve m = none → h.path < q
  entries : J.entries out.2 =
    J.entries s ++ handled.flatMap fun h => J.entry h.node h.rule
  rules_eq : J.rules out.2 = rules
  /-- If they all have a rule, the walk succeeds. -/
  done : (∀ p n, root.Reached (J.stopsAt rules) p n → rules.resolve n ≠ none) → ∃ b, out.1 = .ok b
  /-- If one has none, it fails at the first of these. -/
  missed : (∃ p n, root.Reached (J.stopsAt rules) p n ∧ rules.resolve n = none) →
    ∃ p n, root.Reached (J.stopsAt rules) p n ∧ rules.resolve n = none ∧
      (∀ q m, root.Reached (J.stopsAt rules) q m → rules.resolve m = none → q = p ∨ p < q) ∧
      out.1 = .error (J.failure n)

/-- **The generic walk.** A visitor that walks handles the nodes without a
stopping rule above them, once each and in preorder, by the rules they are
resolved to. It fails at the first of them without a rule, after exactly
those before it. -/
theorem Dispatcher.walk_preorder {d : Dispatcher (ExceptT ε (StateM σ)) α β}
    {J : Journal ε σ α γ} {rules : RuleSet α} (hd : d.Walks J rules) (root : Node) {s : σ}
    (hs : J.rules s = rules) :
    ∃ handled, J.Walked rules root s handled ((d.job root).run.run.run s) := by
  have hthrough := hd.through_job root s hs
  have hpairs := Node.pairwise_pruned (J.stopsAt rules) root
  have hmem : ∀ p n, root.Reached (J.stopsAt rules) p n ↔ (p, n) ∈ root.pruned (J.stopsAt rules) :=
    fun p n => Node.mem_pruned.symm
  generalize (d.job root).run.run.run s = out at hthrough
  generalize hnodes : (root.pruned (J.stopsAt rules)).map Prod.snd = nodes at hthrough
  cases hthrough with
  | done hall hrules hentries =>
    have hsome : ∀ p n, root.Reached (J.stopsAt rules) p n → rules.resolve n ≠ none :=
      fun p n hn hnone => by
        have hn' := hall n (hnodes ▸ List.mem_map_of_mem ((hmem p n).1 hn))
        simp [hnone] at hn'
    refine ⟨(root.pruned (J.stopsAt rules)).filterMap (Handling.of? rules),
      Handling.pairwise_filterMap hpairs, fun h => ?_, ?_, hrules, fun _ => ⟨_, rfl⟩, ?_⟩
    · rw [Handling.mem_filterMap, ← hmem]
      exact ⟨fun ⟨hn, hr⟩ => ⟨hn, hr, fun q m hq hm => absurd hm (hsome q m hq)⟩,
        fun ⟨hn, hr, _⟩ => ⟨hn, hr⟩⟩
    · rw [hentries, Handling.flatMap_entry, hnodes]
    · rintro ⟨p, n, hn, hnone⟩
      exact absurd hnone (hsome p n hn)
  | @missed before after n s' hbefore hn hrules hentries =>
    obtain ⟨l, l', hsplit, hl, hl'⟩ := List.map_eq_append_iff.1 hnodes
    obtain ⟨⟨p, m⟩, l', rfl, hm, -⟩ := List.map_eq_cons_iff.1 hl'
    obtain rfl : m = n := hm
    rw [hsplit] at hpairs
    simp only [hsplit] at hmem
    obtain ⟨hfront, hback, hless⟩ := List.pairwise_append.1 hpairs
    have hafter := (List.pairwise_cons.1 hback).1
    -- whatever has no rule is not among those before
    have hrest : ∀ q k, root.Reached (J.stopsAt rules) q k → rules.resolve k = none →
        (q, k) ∈ (p, m) :: l' := by
      intro q k hk hnone
      refine (List.mem_append.1 ((hmem q k).1 hk)).resolve_left fun hlk => ?_
      have hsome := hbefore k (hl ▸ List.mem_map_of_mem hlk)
      simp [hnone] at hsome
    have hreached : root.Reached (J.stopsAt rules) p m := (hmem p m).2 (by simp)
    refine ⟨l.filterMap (Handling.of? rules), Handling.pairwise_filterMap hfront, fun h => ?_, ?_,
      hrules, fun hsome => absurd hn (hsome p m hreached),
      fun _ => ⟨p, m, hreached, hn, fun q k hk hnone => ?_, rfl⟩⟩
    · rw [Handling.mem_filterMap, hmem]
      constructor
      · rintro ⟨hh, hr⟩
        exact ⟨List.mem_append_left _ hh, hr,
          fun q k hk hnone => hless _ hh _ (hrest q k hk hnone)⟩
      · rintro ⟨hh, hr, hpath⟩
        refine ⟨(List.mem_append.1 hh).resolve_right fun hh => ?_, hr⟩
        have hlt := hpath p m hreached hn
        rcases List.mem_cons.1 hh with heq | hh
        · rw [(Prod.mk.inj heq).1] at hlt
          exact List.lt_irrefl _ hlt
        · exact List.lt_asymm hlt (hafter _ hh)
    · rw [hentries, Handling.flatMap_entry, hl]
    · rcases List.mem_cons.1 (hrest q k hk hnone) with heq | hk
      · exact .inl (Prod.mk.inj heq).1
      · exact .inr (hafter _ hk)

/-- A number below a coordinate is not come to; the walk fails at the one
behind it, and the command at the end is not handled. -/
theorem Survey.walk_preorder_numberless :
    let number : Node := ⟨.number, [], .unknown⟩
    let coordinate : Node := ⟨.coordinate, [⟨ascii "value", .child (some number)⟩], .unknown⟩
    let last : Node := ⟨.command, [], .unknown⟩
    let root : Node := ⟨.command, [⟨ascii "first", .child none⟩,
      ⟨ascii "arguments", .children [some coordinate, some number, some last]⟩], .unknown⟩
    let start : State := ⟨numberless, [], []⟩
    let out := (dispatcher.job root).run.run.run start
    dispatcher.Walks journal numberless ∧ journal.rules start = numberless ∧
      ∃ handled, journal.Walked numberless root start handled out ∧ out.1 = .error .number ∧
        handled.map (fun h => choiceNote h.node.kind h.rule.name) =
          [choiceNote .command (ascii "command"), choiceNote .coordinate (ascii "coordinate")] := by
  intro number coordinate last root start out
  have hwalks : dispatcher.Walks journal numberless := walks_dispatcher (by decide)
  have hstart : journal.rules start = numberless := rfl
  have hout : out.1 = .error .number ∧ out.2.choices =
      [choiceNote .command (ascii "command"), choiceNote .coordinate (ascii "coordinate")] := by
    decide
  obtain ⟨handled, hwalked⟩ := Dispatcher.walk_preorder hwalks root hstart
  refine ⟨hwalks, hstart, handled, hwalked, hout.1, ?_⟩
  rw [List.map_eq_flatMap, ← hout.2]
  exact hwalked.entries.symm

end ScriptSplice
