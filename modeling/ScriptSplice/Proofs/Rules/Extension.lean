import ScriptSplice.Proofs.Visitor.Blind
/-!
# Conservative extension

What a tree compiles to depends on the rules of a compiler only through
the choices they make for the nodes of the tree (`Compiler.compile_congr`).
So rules that are chosen for none of them change nothing, and neither does
a compiler that takes over its own rules.

Where handlers have the visitor, rules that are chosen for no node of the
tree change nothing either, whatever their handlers could do
(`Visitor.compile_of_standard`). A handler that is chosen can count the
rules, and tell that they were taken over
(`Visitor.counting_after_extend_self`); those that do not count them cannot
(`Visitor.compileAll_alike`).
-/

namespace ScriptSplice

namespace Compiler

/-- Two compilers have the same options and argument parsers, and their
rules make the same choice for a node. -/
structure Agree (c c' : Compiler) (n : Node) : Prop where
  options : c'.options = c.options
  parsers : c'.parsers = c.parsers
  choice : (c'.rules.resolve n).map RankedRule.toRule = (c.rules.resolve n).map RankedRule.toRule

variable {c c' : Compiler} {n : Node} {h : List (Rule Handler)}

theorem Agree.dispatch_eq (h : c.Agree c' n) (fields : Fields Compile.Part) :
    c'.dispatcher.dispatch n fields = c.dispatcher.dispatch n fields := by
  rw [Dispatcher.dispatch, Dispatcher.dispatch, dispatcher, dispatcher, h.parsers]
  simp only [pure_bind]
  rcases RuleSet.resolve_cases h.choice with ⟨hnone, hnone'⟩ | ⟨q, q', hq, hq', hrule⟩
  · rw [hnone, hnone']
  · rw [hq, hq']
    simp only [hrule]

/-- **Compilers that make the same choices** do the same work. -/
theorem part_congr (h : ∀ m ∈ n.subtree, c.Agree c' m) : c'.part n = c.part n := by
  induction n using Node.induction with
  | step n ih =>
    have hfields : Fields.map c'.part n.fields = Fields.map c.part n.fields := by
      refine Fields.map_congr fun m hm => ih m hm fun k hk => h k ?_
      exact Node.mem_subtree.2 (.inr (Node.mem_descendants.2 ⟨m, hm, hk⟩))
    have hdispatch := (h n (Node.mem_subtree_self n)).dispatch_eq (Fields.map c.part n.fields)
    calc c'.part n
        = ⟨n, c'.dispatcher.dispatch n (Fields.map c'.part n.fields),
            Fields.map c'.part n.fields⟩ := c'.dispatcher.job_eq n
      _ = ⟨n, c.dispatcher.dispatch n (Fields.map c.part n.fields),
            Fields.map c.part n.fields⟩ := by rw [hfields, hdispatch]
      _ = c.part n := (c.dispatcher.job_eq n).symm

/-- And they have the same outcome. -/
theorem compile_congr (h : ∀ m ∈ n.subtree, c.Agree c' m) : c'.compile n = c.compile n := by
  have hoptions := (h n (Node.mem_subtree_self n)).options
  have hrun : c'.run n = c.run n := by
    rw [run, run, compileRoot, compileRoot, part_congr h]
  have hpresent : c'.present = c.present := by
    funext draft outcome
    simp only [present, hoptions]
  have hconclude : c'.conclude = c.conclude := by
    funext outcome draft
    simp only [conclude, hpresent, hoptions]
  rw [compile, compile, hrun, hconclude]

/-- A compiler that took over its own rules any number of times. -/
theorem iterate_extend_self {α : Type} (c : Compiler α) (m : ℕ) :
    (fun c => c.extend c.rules)^[m] c =
      { c with rules := (fun rules => rules.extend rules)^[m] c.rules } := by
  induction m with
  | zero => rfl
  | succ m ih => rw [Function.iterate_succ_apply', ih, Function.iterate_succ_apply']; rfl

/-! ## Rules that are not used -/

/-- No rule that a compiler takes over is chosen for a node of a tree. -/
def Unused {α : Type} (c : Compiler α) (rules : RuleSet α) (t : Node) : Prop :=
  ∀ n ∈ t.subtree, ∀ q, (c.extend rules).rules.resolve n = some q → q ∈ c.rules.ranked

/-- Then the compiler compiles the tree as before. -/
theorem compile_extend {rules : RuleSet Handler} {k : List (Rule Handler)}
    (hc : RuleSet.Reached c.rules h) (hrules : RuleSet.Reached rules k) {t : Node}
    (hunused : c.Unused rules t) : (c.extend rules).compile t = c.compile t := by
  refine compile_congr fun n hn => ⟨rfl, rfl, ?_⟩
  exact congrArg _ (hc.resolve_extend_of_mem hrules (hunused n hn))

/-- Then all choices are left to the standard rules, if there are no others. -/
theorem choosesStandard_extend {α : Type} {o : Options} {parsers : Parsers}
    {rules : RuleSet (Visitor.Action α)} {k : List (Rule (Visitor.Action α))}
    (hrules : RuleSet.Reached rules k) {t : Node}
    (hunused : (Visitor.standard α o parsers).Unused rules t) :
    Visitor.ChoosesStandard ((Visitor.standard α o parsers).extend rules).rules t := by
  have hstandard := @Visitor.reached_standard α o parsers
  intro n hn
  have hsame := hstandard.resolve_extend_of_mem hrules (hunused n hn)
  exact (congrArg (Option.map RankedRule.toRule) hsame).trans (hstandard.holds.resolve_toRule n)

/-! ## Conservative extension -/

/-- **Conservative extension.** Rules that are chosen for no node of a tree
change nothing of what compiling it comes to, and a compiler that takes
over its own rules, however often, compiles every tree as before.

So it is where handlers have the visitor: with rules that are chosen for
no node, whatever their handlers, a tree compiles as with the standard ones
alone, at every depth from its size on; and if no handler counts the
rules, a compiler that takes over its own compiles trees, one after
another, as before, at every depth. -/
theorem conservative_extension {α : Type} (handlers : α → Visitor.Handler α) :
    (∀ (c : Compiler) h, RuleSet.Reached c.rules h →
      (∀ rules k, RuleSet.Reached rules k → ∀ t, c.Unused rules t →
        (c.extend rules).compile t = c.compile t) ∧
      ∀ m t, ((fun c => c.extend c.rules)^[m] c).compile t = c.compile t) ∧
    (∀ o parsers rules k, RuleSet.Reached rules k → ∀ t,
      (Visitor.standard α o parsers).Unused rules t → ∀ depth, t.size ≤ depth →
        (Visitor.compile handlers depth ((Visitor.standard α o parsers).extend rules) t).map
          Prod.fst = some ((builtin o parsers).compile t) ∧
        (Visitor.compile handlers depth (Visitor.standard α o parsers) t).map
          Prod.fst = some ((builtin o parsers).compile t)) ∧
    ((∀ a, (handlers a).Blind) → ∀ (c : Compiler (Visitor.Action α)) h,
      RuleSet.Reached c.rules h → ∀ m depth ts,
        (Visitor.compileAll handlers depth ((fun c => c.extend c.rules)^[m] c) ts).map Prod.fst =
          (Visitor.compileAll handlers depth c ts).map Prod.fst) := by
  refine ⟨fun c h hc => ⟨fun rules k hrules t hunused => compile_extend hc hrules hunused,
      fun m t => ?_⟩,
    fun o parsers rules k hrules t hunused depth hdepth => ⟨?_, ?_⟩,
    fun hblind c h hc m depth ts => ?_⟩
  · rw [iterate_extend_self]
    exact compile_congr fun n _ => ⟨rfl, rfl, hc.resolve_iterate_extend_self m n⟩
  · rw [Visitor.compile_of_standard handlers hdepth (choosesStandard_extend hrules hunused)]
    rfl
  · rw [Visitor.compile_of_standard handlers hdepth
      fun n _ => (Visitor.reached_standard o parsers).holds.resolve_toRule n]
    rfl
  · rw [iterate_extend_self]
    exact Visitor.compileAll_alike hblind (RuleSet.Alike.iterate_extend_self hc m) depth ts

/-- A rule set with a built-in rule, and a rule for messages. -/
private def forMessages {α : Type} (passing action : α) : RuleSet α :=
  (RuleSet.empty.add (.passing passing)).add ⟨some .message, [], action, [], false⟩

/-- The rule for messages is not chosen where there are none. -/
private theorem unused_forMessages {α : Type} (c : Compiler α) (passing action : α) {t : Node}
    (hkinds : ∀ m ∈ t.subtree, m.kind ≠ .message) : c.Unused (forMessages passing action) t := by
  intro m hm q hq
  refine (RuleSet.mem_addAll (RuleSet.mem_of_resolve hq)).resolve_right fun hpassed => ?_
  have hrule : q.toRule = ⟨some .message, [], action, [], false⟩ := List.mem_singleton.1 hpassed
  rcases Rule.kind_of_applies (RuleSet.applies_of_resolve hq) with hkind | hkind
  · rw [hrule] at hkind
    cases hkind
  · rw [hrule] at hkind
    exact hkinds m hm (Option.some.inj hkind).symm

/-- A handler that adds a rule for words, and has a fresh value handled. -/
private def growing : Visitor.Handler Unit := fun handle _ => do
  Visitor.add ⟨some .word, [], .added (), [], false⟩
  handle ⟨.value, [], .unknown⟩

/-- A compiler that took over a rule for messages compiles an interpolation
as the standard one does, and so does one that took over its own rules. It
does not matter that the handler for messages adds rules; and if it does,
it makes no difference to take over the rules there are before. -/
theorem conservative_extension_interpolation :
    let c := builtin .standard []
    let rules := forMessages (Handler.rebuild .generic) fun _ _ _ => return none
    let value : Node :=
      ⟨.identifier, [⟨ascii "value", .leaf (.str (ascii "x"))⟩], .unknown⟩
    let t : Node := ⟨.interpolation, [⟨ascii "value", .child (some value)⟩], .unknown⟩
    let visitor := Visitor.standard Unit .standard []
    let learned := visitor.extend (forMessages (.added ()) (.added ()))
    let trees : List Node := [⟨.message, [], .unknown⟩, ⟨.word, [], .unknown⟩, t]
    (RuleSet.Reached c.rules standardRules ∧ c.Unused rules t ∧
      (c.extend rules).compile t = c.compile t ∧
      ((fun c => c.extend c.rules)^[3] c).compile t = c.compile t) ∧
    (visitor.Unused (forMessages (.added ()) (.added ())) t ∧ t.size ≤ 2 ∧
      (Visitor.compile (fun _ => growing) 2 learned t).map Prod.fst = some (c.compile t)) ∧
    growing.Blind ∧ (Visitor.compileAll (fun _ => growing) 3 learned trees).isSome = true ∧
      (Visitor.compileAll (fun _ => growing) 3 ((fun c => c.extend c.rules)^[2] learned)
        trees).map Prod.fst =
        (Visitor.compileAll (fun _ => growing) 3 learned trees).map Prod.fst := by
  intro c rules value t visitor learned trees
  have hc : RuleSet.Reached c.rules standardRules := reached_builtin _ _
  have hkinds : ∀ m ∈ t.subtree, m.kind ≠ .message := by decide
  have hunused := unused_forMessages c (Handler.rebuild .generic) (fun _ _ _ => return none) hkinds
  have hunused' := unused_forMessages visitor (.added ()) (.added ()) hkinds
  have hreached {α : Type} (passing action : α) : RuleSet.Reached (forMessages passing action) _ :=
    .add (.passing passing) rfl
  have hblind : growing.Blind := fun _ _ => .bind (.add rfl) fun _ => .handle _
  have hlearned : RuleSet.Reached learned.rules _ :=
    (Visitor.reached_standard _ _).extend (hreached _ _)
  obtain ⟨hplain, hvisitor, hcounting⟩ := conservative_extension fun _ => growing
  obtain ⟨hextend, hagain⟩ := hplain c _ hc
  refine ⟨⟨hc, hunused, hextend rules _ (hreached _ _) t hunused, hagain 3 t⟩,
    ⟨hunused', by decide, ?_⟩, hblind, by decide +kernel,
    hcounting (fun _ => hblind) _ _ hlearned 2 3 trees⟩
  exact (hvisitor .standard [] _ _ (hreached _ _) t hunused' 2 (by decide)).1

end Compiler

namespace Visitor

/-- **A handler that counts the rules** can tell that a compiler took over
its own. -/
theorem counting_after_extend_self :
    let handlers : Unit → Handler Unit := fun _ _ _ => do
      return some [.verbatim (Text.ofNat (← count))]
    let rule : Rule (Action Unit) := ⟨some .message, [], .added (), [], false⟩
    let c := (standard Unit .standard []).extend (RuleSet.empty.add rule)
    let t : Node := ⟨.message, [], .unknown⟩
    let program (c : Compiler (Action Unit)) :=
      (compile handlers 1 c t).bind fun p => p.1.1.toOption.bind Compiled.program
    RuleSet.Reached c.rules (standardRules Unit ++ [rule]) ∧
      program c = some (ascii "_bolt_var0 = 36", ascii "_bolt_var0") ∧
      program (c.extend c.rules) = some (ascii "_bolt_var0 = 72", ascii "_bolt_var0") := by
  intro handlers rule c t program
  have hrule : RuleSet.Reached (RuleSet.empty.add rule) [rule] := RuleSet.Reached.empty.add rfl
  exact ⟨(reached_standard _ _).extend hrule, by decide +kernel, by decide +kernel⟩

end Visitor

end ScriptSplice
