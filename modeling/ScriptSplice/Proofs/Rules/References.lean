import ScriptSplice.Proofs.Compile.Handouts
import ScriptSplice.Proofs.Rules.Keeping
import ScriptSplice.Proofs.Rules.SourceLines
import ScriptSplice.Proofs.Target.References
/-!
# References and fresh names

Whatever is done to a draft, a reference stays what it was when it was
handed out. Of a compiled tree more is true: its source refers to nothing
beyond its table, every entry of the table is referred to, and is a node
of the tree (`Compiler.references_intact`). This follows from the account
of the tree, as soon as the texts that its nodes lend cannot be taken for
generated names. They are made of the strings of the tree, so it is enough
that none of these has the stem of the names in it.
-/

namespace ScriptSplice

open Compile

namespace Node

/-- The strings of a node: the names of its fields, and its string leaves. -/
def strings (n : Node) : List Text :=
  n.fields.flatMap fun f => f.name :: match f.value with
    | .leaf l => l.quotes
    | _ => []

/-- The entries that a table may have for a tree: its nodes, and what stands
for a child that is missing from a sequence. -/
def Entry (root : Node) : Option Node → Prop
  | some m => m ∈ root.subtree
  | none => ∃ m ∈ root.subtree, ∃ f ∈ m.fields, ∃ cs, f.value = .children cs ∧ none ∈ cs

/-- Something holds of all strings of a tree. -/
def Strings (P : Text → Prop) (n : Node) : Prop := ∀ m ∈ n.subtree, ∀ t ∈ m.strings, P t

namespace Strings

variable {P : Text → Prop} {n m : Node}

theorem of_mem (h : n.Strings P) (hm : m ∈ n.subtree) : m.Strings P := by
  intro k hk
  rcases mem_subtree.1 hm with rfl | hm
  · exact h k hk
  rcases mem_subtree.1 hk with rfl | hk
  · exact h k (mem_subtree.2 (.inr hm))
  · exact h k (mem_subtree.2 (.inr (descendants_trans hm hk)))

theorem of_argument (h : n.Strings P) {i : Nat} (hm : Handler.argument n.fields i = some m) :
    m.Strings P :=
  h.of_mem <| mem_subtree.2 <| .inr <|
    mem_descendants_of_mem_parts (Handler.mem_nodes_of_argument hm)

theorem field (h : n.Strings P) {f : Field Node} (hf : f ∈ n.fields) : P f.name :=
  h n (mem_subtree_self n) _ (List.mem_flatMap.2 ⟨f, hf, List.mem_cons_self⟩)

theorem leaf (h : n.Strings P) {name : Text} {l : Leaf} (hl : n.leaf? name = some l) :
    ∀ t ∈ l.quotes, P t := by
  intro t ht
  unfold leaf? Fields.leaf? at hl
  split at hl
  · rename_i hv
    cases hl
    obtain ⟨f, hf, hfv⟩ := Fields.exists_of_value? hv
    exact h n (mem_subtree_self n) t (List.mem_flatMap.2 ⟨f, hf, by simp [hfv, ht]⟩)
  · cases hl

variable (hnil : P [])

include hnil

theorem text (h : n.Strings P) (name : Text) : P (n.text name) := by
  unfold Node.text Fields.text
  cases hl : Fields.leaf? n.fields name with
  | none => exact hnil
  | some l =>
    cases l with
    | str t => exact h.leaf hl t (List.mem_singleton_self t)
    | _ => exact hnil

theorem importPath (h : n.Strings P) : P n.importPath := by
  unfold Node.importPath
  cases hm : Handler.argument n.fields 0 with
  | none => exact hnil
  | some m => exact (h.of_argument hm).text hnil _

theorem importedName (h : n.Strings P) (i : Nat) :
    P (Handler.importedName (Handler.argument n.fields i)) := by
  cases hm : Handler.argument n.fields i with
  | none => exact hnil
  | some m =>
    rw [Handler.importedName]
    split
    · exact (h.of_argument hm).text hnil _
    · exact hnil

theorem chainNames (h : n.Strings P) {names : List Text}
    (hnames : Handler.chainNames n = .ok names) : ∀ t ∈ names, P t := by
  induction n using Node.induction generalizing names with
  | step n ih =>
    rw [WellFormed.chainNames_eq] at hnames
    split at hnames
    · cases hnames
    · rcases hrest : WellFormed.namesAfter n with e | rest <;> rw [hrest] at hnames <;> cases hnames
      have hlater : ∀ t ∈ rest, P t := by
        unfold WellFormed.namesAfter at hrest
        split at hrest
        · cases hm : Handler.argument n.fields 1 with
          | none =>
            rw [hm] at hrest
            cases hrest
            simp
          | some m =>
            rw [hm] at hrest
            exact ih m (Handler.mem_nodes_of_argument hm) (h.of_argument hm) hrest
        · cases hrest
          simp
      split
      · exact hlater
      · exact List.forall_mem_cons.2 ⟨h.importedName hnil 0, hlater⟩

theorem importedNames (h : n.Strings P) :
    ∀ t ∈ (Handler.importedNames n).toOption.getD [], P t := by
  cases hnames : Handler.importedNames n with
  | error e => exact fun t ht => absurd ht List.not_mem_nil
  | ok names =>
    change ∀ t ∈ names, P t
    unfold Handler.importedNames at hnames
    cases hm : Handler.argument n.fields 1 with
    | none =>
      rw [hm] at hnames
      cases hnames
    | some m =>
      rw [hm, Option.elim_some] at hnames
      rcases hchain : Handler.chainNames m with e | chain <;> rw [hchain] at hnames
      · cases hnames
      · change (if chain.isEmpty then _ else _) = _ at hnames
        split at hnames
        · cases hnames
        · cases hnames
          exact (h.of_argument hm).chainNames hnil hchain

theorem module (h : n.Strings P) :
    ∀ m ∈ (Handler.moduleOf n).toOption.toList, P m.namespaceName ∧ P m.path := by
  unfold Handler.moduleOf
  cases hl : Handler.argument n.fields 0 with
  | none => exact fun m hm => absurd hm List.not_mem_nil
  | some l =>
    have hlocation := h.of_argument hl
    simp only
    split
    · exact fun m hm => absurd hm List.not_mem_nil
    · split
      · exact fun m hm => absurd hm List.not_mem_nil
      · exact List.forall_mem_singleton.2 ⟨hlocation.text hnil _, hlocation.text hnil _⟩

theorem headNames (h : n.Strings P) : ∀ t ∈ n.headNames, P t := by
  unfold Node.headNames
  cases hm : Handler.argument n.fields 0 with
  | none => exact fun t ht => absurd ht List.not_mem_nil
  | some signature =>
    have hsignature := h.of_argument hm
    rw [Option.toList_some, List.flatMap_singleton, List.forall_mem_cons, List.forall_mem_map]
    refine ⟨hsignature.text hnil _, fun p hp => ?_⟩
    have hbelow : p ∈ signature.descendants := mem_descendants_of_sequenceNodes hp
    exact (hsignature.of_mem (mem_subtree.2 (.inr hbelow))).text hnil _

/-- **What a rule takes over** are strings of the tree. -/
theorem verbatims (h : n.Strings P) : ∀ t ∈ n.verbatims, P t := by
  unfold Node.verbatims
  cases n.form with
  | identifier | targetIdentifier | binary | unary | assignment =>
    exact List.forall_mem_singleton.2 (h.text hnil _)
  | function => exact h.headNames hnil
  | importModule => exact List.forall_mem_singleton.2 (h.importPath hnil)
  | importAs =>
    exact List.forall_mem_cons.2
      ⟨h.importPath hnil, List.forall_mem_singleton.2 (h.importedName hnil 1)⟩
  | fromImport => exact List.forall_mem_cons.2 ⟨h.importPath hnil, h.importedNames hnil⟩
  | _ => exact fun t ht => absurd ht List.not_mem_nil

end Strings

/-- A tree whose strings are on one line and without marks. -/
theorem Strings.within_markless {n : Node}
    (h : n.Strings fun t => Byte.newline ∉ t ∧ Byte.hash ∉ t) : n.Within .markless := by
  have hbytes {t : Text} (ht : Byte.newline ∉ t ∧ Byte.hash ∉ t) :
      ∀ b ∈ t, b ≠ Byte.newline ∧ b ≠ Byte.hash := fun b hb =>
    ⟨fun heq => ht.1 (heq ▸ hb), fun heq => ht.2 (heq ▸ hb)⟩
  intro m hm
  have hstrings := h.of_mem hm
  exact ⟨fun t ht => ⟨hbytes (hstrings.verbatims (by simp) t ht), fun _ => trivial⟩,
    fun f hf => hbytes (hstrings.field hf)⟩

/-! ## What a tree lends -/

/-- What the program of a tree may refer to and quote: entries for the tree,
and texts that are not taken for generated names. -/
def stock (stem : Text) (root : Node) : Stock where
  entry := root.Entry
  word t := ¬ refsName stem <:+: t
  quoted t := ¬ stem <:+: t

section

variable {stem : Text} (hname : stem.isName = true)

/-- Without an underscore there is no name of a table. -/
theorem not_infix_of_underscore_not_mem {t : Text} (h : Byte.underscore ∉ t) :
    ¬ refsName stem <:+: t :=
  fun hinside => h (hinside.subset (by simp [refsName, ascii, Byte.underscore]))

theorem not_infix_operatorOf (n : Node) : ¬ refsName stem <:+: Handler.operatorOf n := by
  refine not_infix_of_underscore_not_mem fun hmem => ?_
  obtain ⟨b, -, hb⟩ := List.mem_map.1 hmem
  split at hb
  · exact absurd hb (by decide)
  · contradiction

theorem not_infix_keyword {keyword : Text} (h : keyword.isKeyword = true) :
    ¬ refsName stem <:+: keyword := by
  refine not_infix_of_underscore_not_mem fun hmem => ?_
  rw [Text.isKeyword, Bool.and_eq_true, List.all_eq_true] at h
  exact absurd (h.2 _ hmem) (by decide)

include hname in
theorem not_infix_nil : ¬ stem <:+: [] := by
  rw [List.infix_nil]
  rintro rfl
  cases hname

include hname in
theorem not_infix_target {m : ModulePath} (hnamespace : ¬ stem <:+: m.namespaceName)
    (hpath : ¬ stem <:+: m.path) : ¬ stem <:+: m.target := by
  have hcolon : (0x3a : UInt8) ∉ stem := fun hmem =>
    absurd (List.all_eq_true.1 (Text.all_isWord_of_isName hname) _ hmem) (by decide)
  have hsplit : m.target = m.namespaceName ++ 0x3a :: m.path := by
    simp [ModulePath.target, ascii]
  intro hinside
  rw [hsplit] at hinside
  exact (Text.infix_append_cons hcolon hinside).elim hnamespace hpath

theorem lastPart_within (m : ModulePath) : m.lastPart <:+: m.path := by
  have hprefix := List.reverse_suffix.2 (List.takeWhile_prefix (· != 0x2f) (l := m.path.reverse))
  rw [List.reverse_reverse] at hprefix
  exact hprefix.isInfix

variable {root n : Node}

include hname in
theorem Strings.words (h : n.Strings fun t => ¬ stem <:+: t) :
    ∀ t ∈ n.words, ¬ refsName stem <:+: t := by
  have hnil := not_infix_nil hname
  have hword {t : Text} (ht : ¬ stem <:+: t) : ¬ refsName stem <:+: t := fun hinside =>
    ht ((List.prefix_append _ _).isInfix.trans hinside)
  have hpath : ∀ m ∈ (Handler.moduleOf n).toOption.toList, ¬ stem <:+: m.path := fun m hm =>
    (h.module hnil m hm).2
  unfold Node.words
  cases hform : n.form with
  | generic | root => exact List.forall_mem_map.2 fun f hf => hword (h.field hf)
  | identifier | targetIdentifier | assignment =>
    exact List.forall_mem_singleton.2 (hword (h.text hnil _))
  | binary | unary => exact List.forall_mem_singleton.2 (not_infix_operatorOf n)
  | control keyword =>
    exact List.forall_mem_singleton.2 (not_infix_keyword (n.isKeyword (.inl hform)))
  | branch keyword =>
    exact List.forall_mem_singleton.2 (not_infix_keyword (n.isKeyword (.inr hform)))
  | function => exact fun t ht => hword (h.headNames hnil t ht)
  | importModule =>
    rintro t ht
    obtain ⟨m, hm, ht⟩ := List.mem_flatMap.1 ht
    rcases List.mem_pair.1 ht with rfl | rfl
    · exact hword (hpath m hm)
    · exact fun hinside => hword (hpath m hm) (hinside.trans (lastPart_within m))
  | importAs =>
    exact List.forall_mem_cons.2 ⟨hword (h.importedName hnil 1),
      List.forall_mem_map.2 fun m hm => hword (hpath m hm)⟩
  | fromImport =>
    exact List.forall_mem_append.2 ⟨fun t ht => hword (h.importedNames hnil t ht),
      List.forall_mem_map.2 fun m hm => hword (hpath m hm)⟩
  | _ => exact fun t ht => absurd ht List.not_mem_nil

include hname in
theorem Strings.quotes (h : n.Strings fun t => ¬ stem <:+: t) :
    ∀ t ∈ n.quotes, ¬ stem <:+: t := by
  have hnil := not_infix_nil hname
  have htarget : ∀ m ∈ (Handler.moduleOf n).toOption.toList, ¬ stem <:+: m.target := fun m hm =>
    not_infix_target hname (h.module hnil m hm).1 (h.module hnil m hm).2
  unfold Node.quotes
  cases n.form with
  | value =>
    cases hl : n.leaf? (ascii "value") with
    | none => exact fun t ht => absurd ht List.not_mem_nil
    | some l => exact h.leaf hl
  | formatString | attributeOf => exact List.forall_mem_singleton.2 (h.text hnil _)
  | importModule | importAs => exact List.forall_mem_map.2 htarget
  | fromImport =>
    exact List.forall_mem_append.2 ⟨h.importedNames hnil, List.forall_mem_map.2 htarget⟩
  | _ => exact fun t ht => absurd ht List.not_mem_nil

include hname in
/-- **The nodes of a tree lend to its stock**, if its strings do not have the
stem. -/
theorem Strings.lends (h : root.Strings fun t => ¬ stem <:+: t) :
    ∀ m ∈ root.subtree, m.Lends (root.stock stem) := fun m hm =>
  { entry := hm
    words := (h.of_mem hm).words hname
    quotes := (h.of_mem hm).quotes hname
    missing := fun f hf cs hcs hnone => ⟨m, hm, f, hf, cs, hcs, hnone⟩ }

end

end Node

/-! ## Runs of operations -/

/-- **What a run hands out, as it is written.** -/
theorem Compile.Runs.intact {α : Type} {act : Compile α} {d d' : Draft} {given : List Handout}
    {r : Except Failure α} (h : Runs act d given r d') (stem : Text) :
    (∀ n e, Handout.ref n e ∈ given → ∃ i,
      e.render stem = refsName stem ++ ascii "[" ++ Text.ofNat i ++ ascii "]" ∧
        d'.refs[i]? = some n) ∧
    (∀ ns e, Handout.slice ns e ∈ given → ∃ i j,
      e.render stem = refsName stem ++ ascii "[" ++ Text.ofNat i ++ ascii ":" ++ Text.ofNat j ++
        ascii "]" ∧ i ≤ j ∧ j ≤ d'.refs.length ∧ (d'.refs.drop i).take (j - i) = ns) ∧
    (((given.filterMap Handout.name?).map (Draft.handedName stem)).Nodup ↔
      (given.filterMap Handout.name?).length ≤ UInt32.size) := by
  have hgiven := h.handouts
  refine ⟨fun n e hmem => ?_, fun ns e hmem => ?_, hgiven.nodup_handedName stem⟩
  · obtain ⟨i, rfl, hi⟩ := hgiven.holds _ hmem
    exact ⟨i, rfl, hi⟩
  · obtain ⟨i, j, rfl, hij⟩ := hgiven.holds _ hmem
    exact ⟨i, j, rfl, hij⟩

/-! ## Compiled trees -/

namespace Compiler

variable (o : Options) (parsers : Parsers)

/-- What came about since the empty draft fits its table. -/
theorem fits_of_between {stem : Text} {root : Node} {d : Draft} {Q : Text → Prop}
    (hQ : ∀ t, ¬ stem <:+: t → Q t) {a : Atom} (h : a.Between (root.stock stem) .empty d) :
    a.Fits stem d.refs.length Q := by
  cases a with
  | ref i => exact h.2
  | slice i j => exact h.2
  | var n => trivial
  | word t => exact h
  | quoted t => exact hQ t h

/-- **Whatever is referred to is of the tree**, whatever its strings are. -/
theorem entry_of_mem_refs {root : Node} {outcome : Option Nat} {draft : Draft}
    (hrun : exec ((builtin o parsers).compileRoot root) .empty = (.ok outcome, draft)) :
    ∀ r ∈ draft.refs, root.Entry r := by
  have hlends : ∀ m ∈ root.subtree, m.Lends ⟨root.Entry, fun _ => True, fun _ => True⟩ :=
    fun m hm => ⟨hm, fun _ _ => trivial, fun _ _ => trivial,
      fun f hf cs hv hnone => ⟨m, hm, f, hf, cs, hv, hnone⟩⟩
  obtain ⟨lines, es, d, haccount, hrefs, -⟩ := account_compileRoot parsers o hlends hrun
  obtain ⟨added, hadded, hentry⟩ := haccount.entries
  intro r hr
  rw [hrefs, hadded] at hr
  exact hentry r hr

/-- **The table of a compiled program.** -/
theorem source_intact (hstem : o.stem.isIdentifier = true) {root : Node}
    (hstrings : root.Strings fun t => ¬ o.stem <:+: t ∧ Byte.newline ∉ t ∧ Byte.hash ∉ t)
    {n : Nat} {draft : Draft}
    (hrun : exec ((builtin o parsers).compileRoot root) .empty = (.ok (some n), draft)) :
    (∀ u v, draft.program.source o = u ++ refsOpen o.stem ++ v → v.Refers draft.refs.length ∨
      Text.InLiteral (fun t => ¬ o.stem <:+: t ∨ ∃ h ∈ draft.helpers, t = h.key)
        u (refsOpen o.stem) v) ∧
    (∀ i < draft.refs.length, ∃ a ∈ Line.atoms draft.lines,
      a.Denotes i ∧ a.render o.stem <:+: draft.program.source o) ∧
    (∀ r ∈ draft.refs, root.Entry r) ∧
    ∀ depth k, (⟨depth, .scope k⟩ : Line) ∈ draft.lines → k < n := by
  have hname := Text.isName_of_isIdentifier hstem
  have hlends := Node.Strings.lends hname fun m hm t ht => (hstrings m hm t ht).1
  have hmarkless : root.Within .markless :=
    Node.Strings.within_markless fun m hm t ht => (hstrings m hm t ht).2
  have hover := over_compileRoot o parsers hmarkless hrun
  obtain ⟨lines, es, d, haccount, hrefs, hlines⟩ := account_compileRoot parsers o hlends hrun
  obtain ⟨⟨⟩, -⟩ | ⟨e, ⟨⟩, rfl, hlines⟩ := hlines
  -- the last line has what was in hand, so the account is that of the lines
  have hatoms : ∀ a, a ∈ Line.atoms draft.lines ↔
      a = .var d.fresh ∨ a ∈ Line.atoms lines ++ Expr.atomsAll [e] := by
    intro a
    simp [hlines, Stmt.atoms, or_left_comm]
  have hfits : ∀ a ∈ Line.atoms draft.lines, a.Fits o.stem draft.refs.length
      fun t => ¬ o.stem <:+: t ∨ ∃ h ∈ draft.helpers, t = h.key := by
    intro a ha
    rw [hrefs]
    rcases (hatoms a).1 ha with rfl | ha
    · trivial
    · exact fits_of_between (fun t => .inl) (haccount.between a ha)
  refine ⟨?_, fun i hi => ?_, entry_of_mem_refs o parsers hrun, fun depth k hk => ?_⟩
  · exact Program.sound_source (p := draft.program) hstem hover hfits fun h hh => .inr ⟨h, hh, rfl⟩
  · obtain ⟨a, ha, hdenotes⟩ := haccount.denoted i (Nat.zero_le i) (hrefs ▸ hi)
    have hmem := (hatoms a).2 (.inr ha)
    exact ⟨a, hmem, hdenotes, Program.infix_source (p := draft.program) hstem hover hmem hdenotes⟩
  · -- the variable of a scope is older than that of the program
    have hmem : Atom.var k ∈ Line.atoms lines := by
      rw [hlines, List.mem_append] at hk
      rcases hk with hk | hk
      · exact List.mem_flatMap.2 ⟨_, hk, by simp [Stmt.atoms]⟩
      · simp at hk
    exact (haccount.between _ (List.mem_append_left _ hmem)).2

/-- Without a program nothing is referred to. -/
theorem refs_of_static {root : Node} {draft : Draft}
    (hrun : exec ((builtin o parsers).compileRoot root) .empty = (.ok none, draft)) :
    draft.refs = [] := by
  have hnone := lines_of_static o parsers hrun
  obtain ⟨lines, es, d, haccount, hrefs, hlines⟩ :=
    account_compileRoot parsers o (fun m _ => m.lends_everything) hrun
  obtain ⟨-, rfl, hlines⟩ | ⟨e, ⟨⟩, -⟩ := hlines
  rw [hnone] at hlines
  subst hlines
  rw [hrefs, ← List.length_eq_zero_iff]
  refine Nat.eq_zero_of_not_pos fun hpos => ?_
  obtain ⟨a, ha, -⟩ := haccount.denoted 0 (Nat.zero_le 0) hpos
  exact absurd ha List.not_mem_nil

/-- **References and fresh names.** In the end of a run of operations, every
reference that was handed out stands for its node or nodes, and the names
that were handed out are different, unless there are more of them than the
counter has numbers. What collectors do is built from
operations, and so is what is built from it, and compiling a node by any
rules that are. Let the strings of a tree be on one line, without marks
and without the stem of the generated names. If it compiles to a program,
then all that its source refers to is within the table of its references,
except in the literal of a string or of the key of a helper; whatever is
in the table is referred to by an atom of the program, which can be read in
the source, and is of the tree; and no scope has the variable of the
program, unless there are too many of them. Without a program there are no
references. -/
theorem references_intact :
    (∀ (α : Type) (act : Compile α) (d : Draft) (given : List Handout) (r : Except Failure α)
        (d' : Draft), Runs act d given r d' → exec act d = (r, d') ∧ ∀ stem : Text,
      (∀ n e, Handout.ref n e ∈ given → ∃ i,
        e.render stem = refsName stem ++ ascii "[" ++ Text.ofNat i ++ ascii "]" ∧
          d'.refs[i]? = some n) ∧
      (∀ ns e, Handout.slice ns e ∈ given → ∃ i j,
        e.render stem = refsName stem ++ ascii "[" ++ Text.ofNat i ++ ascii ":" ++ Text.ofNat j ++
          ascii "]" ∧ i ≤ j ∧ j ≤ d'.refs.length ∧ (d'.refs.drop i).take (j - i) = ns) ∧
      (((given.filterMap Handout.name?).map (Draft.handedName stem)).Nodup ↔
        (given.filterMap Handout.name?).length ≤ UInt32.size)) ∧
    (∀ c : Collector, (∀ run, Logged (liftM (c.addStatic run))) ∧
      (∀ fragments, Logged (liftM (c.addDynamic fragments))) ∧ Logged (liftM c.flush)) ∧
    Closed Logged ∧
    (∀ c : Compiler, c.RulesWithin Logged → ∀ n, Logged (c.part n).run) ∧
    ∀ (o : Options) (parsers : Parsers) (root : Node) (compiled : Compiled),
      o.stem.isIdentifier = true →
      root.Strings (fun t => ¬ o.stem <:+: t ∧ Byte.newline ∉ t ∧ Byte.hash ∉ t) →
      ((builtin o parsers).compile root).1 = .ok compiled →
      match compiled.program with
      | none => compiled.refs = []
      | some (source, output) =>
        ∃ draft n, (builtin o parsers).run root = (.ok (some n), draft) ∧
          source = draft.program.source o ∧ output = variableName o.stem n ∧
          compiled.refs = draft.refs ∧
          (∀ u v, source = u ++ refsOpen o.stem ++ v → v.Refers compiled.refs.length ∨
            Text.InLiteral (fun t => ¬ o.stem <:+: t ∨ ∃ h ∈ draft.helpers, t = h.key)
              u (refsOpen o.stem) v) ∧
          (∀ i < compiled.refs.length, ∃ a ∈ Line.atoms draft.lines,
            a.Denotes i ∧ a.render o.stem <:+: source) ∧
          (∀ r ∈ compiled.refs, root.Entry r) ∧
          (n < UInt32.size → output = Draft.handedName o.stem n ∧
            ∀ depth k, (⟨depth, .scope k⟩ : Line) ∈ draft.lines →
              Draft.handedName o.stem k ≠ output) := by
  refine ⟨fun α act d given r d' h => ⟨h.exec_eq, h.intact⟩, fun c => ?_, Logged.closed,
    fun c hc => within_part Logged.closed hc, fun o parsers root compiled hstem hstrings h => ?_⟩
  · exact ⟨Logged.addStatic c, Logged.addDynamic c, Logged.flush c⟩
  · obtain ⟨outcome, draft, hrun, rfl⟩ := compile_eq_ok.1 h
    cases outcome with
    | none => exact refs_of_static o parsers hrun
    | some n =>
      obtain ⟨hsound, hdenoted, hentries, hscopes⟩ := source_intact o parsers hstem hstrings hrun
      refine ⟨draft, n, hrun, rfl, rfl, rfl, hsound, hdenoted, hentries, fun hn => ⟨?_, ?_⟩⟩
      · exact (Draft.handedName_of_lt hn).symm
      · intro depth k hk heq
        have hlt := hscopes depth k hk
        rw [Draft.handedName_of_lt (hlt.trans hn)] at heq
        exact Nat.ne_of_lt hlt (variableName_injective heq)

/-- A slice, a reference and two variables; and a sequence with a node to
put in, which is compiled to a program. -/
theorem references_intact_sequence :
    let kept : Node := ⟨.value, [⟨ascii "value", .leaf (.int 1)⟩], ⟨1, 3⟩⟩
    let put : Node := ⟨.interpolation, [⟨ascii "converter", .leaf (.str (ascii "int"))⟩,
      ⟨ascii "value", .child kept⟩], ⟨1, 5⟩⟩
    let root : Node := ⟨.message, [⟨ascii "items", .children [some kept, some put]⟩], ⟨1, 1⟩⟩
    let act : Compile Nat := do
      let _ ← Drafting.slice [some kept, none]
      let _ ← Drafting.freshVariable
      let _ ← Drafting.ref (some put)
      Drafting.freshVariable
    let c := builtin .standard []
    (∃ given draft, Runs act .empty given (.ok 1) draft ∧ draft.refs = [some kept, none, some put] ∧
      (∃ e i, Handout.ref (some put) e ∈ given ∧
        e.render (ascii "_bolt") = refsName (ascii "_bolt") ++ ascii "[" ++ Text.ofNat i ++
          ascii "]" ∧ draft.refs[i]? = some (some put)) ∧
      ((given.filterMap Handout.name?).map (Draft.handedName (ascii "_bolt"))).Nodup) ∧
    (∃ given, Runs (c.part root).run .empty given (exec (c.part root).run .empty).1
      (exec (c.part root).run .empty).2) ∧
    ∃ (compiled : Compiled) (source output : Text) (draft : Draft),
      (c.compile root).1 = .ok compiled ∧
      compiled.program = some (source, output) ∧ compiled.refs = draft.refs ∧
      (∀ i < compiled.refs.length, ∃ a ∈ Line.atoms draft.lines,
        a.Denotes i ∧ a.render (ascii "_bolt") <:+: source) ∧
      ∀ r ∈ compiled.refs, root.Entry r := by
  intro kept put root act c
  have hrun : Runs act .empty [.slice [some kept, none] (.slice 0 2), .name 0,
      .ref (some put) (.ref 2), .name 1] (.ok 1) _ :=
    .bind (.operation (.slice _) _) (.bind (.operation .freshVariable _)
      (.bind (.operation (.ref _) _) (.operation .freshVariable _)))
  have hstrings : root.Strings fun t => ¬ Options.standard.stem <:+: t ∧ Byte.newline ∉ t ∧
      Byte.hash ∉ t := by
    unfold Node.Strings
    decide +kernel
  have hok : ((c.compile root).1.toOption.bind (·.program)).isSome = true := by decide +kernel
  obtain ⟨hruns, -, -, hparts, htrees⟩ := references_intact
  have hgiven := (hruns _ _ _ _ _ _ hrun).2 (ascii "_bolt")
  obtain ⟨i, hi⟩ := hgiven.1 (some put) (.ref 2) (by simp)
  refine ⟨⟨_, _, hrun, rfl, ⟨_, i, by simp, hi⟩, hgiven.2.2.2 (by decide)⟩,
    hparts c (rulesWithin_builtin _ _ _) root _, ?_⟩
  cases hcompile : (c.compile root).1 with
  | error e =>
    rw [hcompile] at hok
    cases hok
  | ok compiled =>
    have hcompiled := htrees .standard [] root compiled rfl hstrings hcompile
    rw [hcompile] at hok
    change compiled.program.isSome = true at hok
    obtain ⟨⟨source, output⟩, hprogram⟩ := Option.isSome_iff_exists.1 hok
    rw [hprogram] at hcompiled
    obtain ⟨draft, n, -, -, -, hrefs, -, hread, hentry, -⟩ := hcompiled
    exact ⟨compiled, source, output, draft, rfl, hprogram, hrefs, hread, hentry⟩

/-- Takes variables, one after another. -/
private def takeVariables : Nat → Compile Unit
  | 0 => pure ()
  | count + 1 => do
    let _ ← Drafting.freshVariable
    takeVariables count

private theorem runs_takeVariables (count : Nat) (d : Draft) :
    Runs (takeVariables count) d ((List.range' d.fresh count).map .name) (.ok ())
      { d with fresh := d.fresh + count } := by
  induction count generalizing d with
  | zero => exact .pure () d
  | succ count ih =>
    have hrest := ih { d with fresh := d.fresh + 1 }
    rw [Nat.add_assoc, Nat.add_comm 1] at hrest
    exact .bind (.operation .freshVariable d) hrest

/-- With more of them than the counter has numbers, a name is handed out
twice. -/
private theorem not_nodup_takeVariables {count : Nat} (hcount : UInt32.size < count) (stem : Text) :
    ∃ given draft, Runs (takeVariables count) .empty given (.ok ()) draft ∧
      ¬ ((given.filterMap Handout.name?).map (Draft.handedName stem)).Nodup := by
  have hrun := runs_takeVariables count .empty
  refine ⟨_, _, hrun, fun h => ?_⟩
  have hlength := (hrun.handouts.nodup_handedName stem).1 h
  rw [hrun.handouts.names, List.length_range', Nat.add_sub_cancel_left] at hlength
  exact absurd hcount (Nat.not_lt.2 hlength)

/-- **Names and references out of reach.** One variable more than the
counter has numbers, and a name was handed out twice. And what looks like a
reference can be in the literal of the key of a helper: the table of this
program has one node, and the first of its lines has an index beyond it. -/
theorem references_out_of_reach :
    (∃ (act : Compile Unit) (given : List Handout) (draft : Draft),
      Runs act .empty given (.ok ()) draft ∧
        ¬ ((given.filterMap Handout.name?).map (Draft.handedName (ascii "_bolt"))).Nodup) ∧
    let o : Options := { Options.standard with stem := ascii "interpolate" }
    let value : Node := ⟨.value, [⟨ascii "value", .leaf (.int 1)⟩], .unknown⟩
    let root : Node := ⟨.interpolation, [⟨ascii "converter", .leaf (.str (ascii "refs[5]"))⟩,
      ⟨ascii "value", .child value⟩], .unknown⟩
    o.stem.isIdentifier = true ∧
      root.Strings (fun t => ¬ o.stem <:+: t ∧ Byte.newline ∉ t ∧ Byte.hash ∉ t) ∧
      ∃ (compiled : Compiled) (source output u v : Text),
        ((builtin o []).compile root).1 = .ok compiled ∧
        compiled.program = some (source, output) ∧ compiled.refs.length = 1 ∧
        source = u ++ refsOpen o.stem ++ v ∧ ¬ v.Refers compiled.refs.length := by
  refine ⟨⟨_, not_nodup_takeVariables (Nat.lt_succ_self _) _⟩, ?_⟩
  intro o value root
  have hstrings : root.Strings fun t => ¬ o.stem <:+: t ∧ Byte.newline ∉ t ∧ Byte.hash ∉ t := by
    unfold Node.Strings
    decide +kernel
  refine ⟨by decide, hstrings, _, _, _,
    ascii "interpolate_helper_interpolate_refs_5 = interpolate_runtime.helpers['",
    ascii "5]']" ++ Byte.newline ::
      ascii "interpolate_var0 = (interpolate_helper_interpolate_refs_5(1, interpolate_refs[0]))",
    rfl, rfl, rfl, by decide +kernel, ?_⟩
  -- the index is five, and those within the table begin with a zero
  rintro (⟨i, w, h, hi⟩ | ⟨i, j, w, h, hij, hj⟩)
  · obtain rfl : i = 0 := Nat.lt_one_iff.1 hi
    have hhead : some (0x35 : UInt8) = some 0x30 := congrArg List.head? h
    exact absurd hhead (by decide)
  · obtain rfl : i = 0 := Nat.lt_one_iff.1 (hij.trans_le hj)
    have hhead : some (0x35 : UInt8) = some 0x30 := congrArg List.head? h
    exact absurd hhead (by decide)

end Compiler

end ScriptSplice
