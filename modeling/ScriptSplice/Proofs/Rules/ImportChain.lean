import ScriptSplice.Proofs.Rules.WellFormed
/-!
# From-imports

The names of a from-import come as a chain of links (`Handler.Chain`). A
chain ends where there is no further argument, at what is no command, or
at a command that does not say it goes on, and each link carries one name
or none. Reading a chain gives the names in order, unless there is a link
that is no command. So a from-import is refused before it writes anything,
or writes one statement with the names its chain carries
(`Compiler.fromImport_spec`).
-/

namespace ScriptSplice

open Compile

namespace Handler

/-- **The links of a chain**, from one on if it is there. -/
inductive Chain : Option Node → List Node → Prop
  | nil : Chain none []
  /-- A link that is no command breaks the chain. -/
  | broken {l : Node} : l.kind ≠ .command → Chain (some l) [l]
  /-- A command that does not say that the chain goes on is the last link. -/
  | last {l : Node} : l.kind = .command → continuesChain l = false → Chain (some l) [l]
  /-- Any other has the next link as its second argument. -/
  | link {l : Node} {ls : List Node} : l.kind = .command → continuesChain l = true →
    Chain (argument l.fields 1) ls → Chain (some l) (l :: ls)

/-- The name that a link carries: the value, if it has one, of an imported
identifier that is its first argument. -/
def carriedName (l : Node) : Option Text :=
  (argument l.fields 0).bind fun a =>
    if a.kind = .importedIdentifier ∧ a.text (ascii "value") ≠ [] then
      some (a.text (ascii "value"))
    else none

/-- A command puts the name it carries before those of the links behind. -/
theorem chainNames_of_command {l : Node} {names : List Text} (hk : l.kind = .command)
    (h : WellFormed.namesAfter l = .ok names) :
    chainNames l = .ok ((carriedName l).toList ++ names) := by
  rw [WellFormed.chainNames_eq, if_neg (not_not_intro hk), h]
  refine congrArg Except.ok ?_
  unfold carriedName importedName
  cases argument l.fields 0 with
  | none => rfl
  | some a =>
    rw [Option.bind_some]
    by_cases ha : a.kind = .importedIdentifier
    · cases hname : a.text (ascii "value") <;> simp [ha, hname]
    · simp [ha]

namespace Chain

variable {o : Option Node} {l : Node} {ls : List Node}

/-- Every chain has its links. -/
theorem exists_links (o : Option Node) : ∃ ls, Chain o ls := by
  cases o with
  | none => exact ⟨[], .nil⟩
  | some l =>
    induction l using Node.induction with
    | step l ih =>
      by_cases hk : l.kind = .command
      · cases hc : continuesChain l with
        | false => exact ⟨[l], .last hk hc⟩
        | true =>
          have hrest : ∃ ls, Chain (argument l.fields 1) ls := by
            cases hm : argument l.fields 1 with
            | none => exact ⟨[], .nil⟩
            | some m => exact ih m (mem_nodes_of_argument hm)
          obtain ⟨ls, hls⟩ := hrest
          exact ⟨l :: ls, .link hk hc hls⟩
      · exact ⟨[l], .broken hk⟩

/-- And no others. -/
theorem unique (h : Chain o ls) {ls' : List Node} (h' : Chain o ls') : ls' = ls := by
  induction h generalizing ls' with
  | nil => cases h'; rfl
  | broken hk =>
    cases h' with
    | broken => rfl
    | last hk' => exact absurd hk' hk
    | link hk' => exact absurd hk' hk
  | last hk hc =>
    cases h' with
    | broken hk' => exact absurd hk hk'
    | last => rfl
    | link _ hc' => simp [hc] at hc'
  | link hk hc _ ih =>
    cases h' with
    | broken hk' => exact absurd hk hk'
    | last _ hc' => simp [hc] at hc'
    | link _ _ hls' => rw [ih hls']

/-- The links of a chain are below its first one. -/
theorem mem_subtree (h : Chain o ls) (hl : l ∈ ls) : ∃ m, o = some m ∧ l ∈ m.subtree := by
  induction h with
  | nil => cases hl
  | broken | last =>
    cases List.mem_singleton.1 hl
    exact ⟨_, rfl, Node.mem_subtree_self _⟩
  | link _ _ _ ih =>
    rcases List.mem_cons.1 hl with rfl | hl
    · exact ⟨_, rfl, Node.mem_subtree_self _⟩
    · obtain ⟨m, hm, hlm⟩ := ih hl
      exact ⟨_, rfl,
        Node.subtree_trans (Node.mem_subtree_of_mem_parts (mem_nodes_of_argument hm)) hlm⟩

/-- The names of a chain of commands, in order. -/
theorem chainNames_ok (h : Chain o ls) (hall : ∀ l ∈ ls, l.kind = .command) :
    o.elim (pure []) chainNames = .ok (ls.filterMap carriedName) := by
  have hcons : ∀ (l : Node) (ls : List Node), (l :: ls).filterMap carriedName =
      (carriedName l).toList ++ ls.filterMap carriedName := by
    intro l ls
    rw [List.filterMap_cons]
    cases carriedName l <;> rfl
  induction h with
  | nil => rfl
  | broken hk => exact absurd (hall _ List.mem_cons_self) hk
  | last hk hc =>
    rw [Option.elim_some, hcons]
    exact chainNames_of_command hk (by rw [WellFormed.namesAfter, hc]; rfl)
  | link hk hc _ ih =>
    rw [Option.elim_some, hcons]
    refine chainNames_of_command hk ?_
    rw [WellFormed.namesAfter, hc, if_pos rfl]
    exact ih fun m hm => hall m (List.mem_cons_of_mem _ hm)

/-- A link that is no command is what a chain is refused for. -/
theorem chainNames_error (h : Chain o ls) (hl : l ∈ ls) (hkind : l.kind ≠ .command) :
    o.elim (pure []) chainNames = .error ⟨.brokenChain, l.location⟩ := by
  induction h with
  | nil => cases hl
  | broken hk =>
    obtain rfl := List.mem_singleton.1 hl
    rw [Option.elim_some, WellFormed.chainNames_eq, if_pos hkind]
    rfl
  | last hk =>
    obtain rfl := List.mem_singleton.1 hl
    exact absurd hk hkind
  | link hk hc _ ih =>
    have hbehind : l ∈ _ := (List.mem_cons.1 hl).resolve_left (by rintro rfl; exact hkind hk)
    rw [Option.elim_some, WellFormed.chainNames_eq, if_neg (not_not_intro hk),
      WellFormed.namesAfter, hc, if_pos rfl, ih hbehind]
    rfl

/-- A from-import names what its chain carries. -/
theorem importedNames_ok {n : Node} (h : Chain (argument n.fields 1) ls)
    (hall : ∀ l ∈ ls, l.kind = .command) (hname : ls.filterMap carriedName ≠ []) :
    importedNames n = .ok (ls.filterMap carriedName) := by
  rw [importedNames, h.chainNames_ok hall]
  change (if (ls.filterMap carriedName).isEmpty then _ else _) = _
  rw [if_neg (by simpa using hname)]
  rfl

/-- It is refused if the chain is broken or carries no name. -/
theorem importedNames_error {n : Node} (h : Chain (argument n.fields 1) ls)
    (hbad : (∃ l ∈ ls, l.kind ≠ .command) ∨ ls.filterMap carriedName = []) :
    ∃ f : Failure, importedNames n = .error f ∧
      (f = ⟨.noImportedName, n.location⟩ ∨ ∃ l ∈ ls, f = ⟨.brokenChain, l.location⟩) := by
  by_cases hbroken : ∃ l ∈ ls, l.kind ≠ .command
  · obtain ⟨l, hl, hk⟩ := hbroken
    refine ⟨_, ?_, .inr ⟨l, hl, rfl⟩⟩
    rw [importedNames, h.chainNames_error hl hk]
    rfl
  · have hall : ∀ l ∈ ls, l.kind = .command := fun l hl => by
      by_contra hk
      exact hbroken ⟨l, hl, hk⟩
    refine ⟨_, ?_, .inl rfl⟩
    rw [importedNames, h.chainNames_ok hall, hbad.resolve_left hbroken]
    rfl

end Chain

/-- A chain is refused as an import. -/
theorem code_of_importedNames {n : Node} {f : Failure} (h : importedNames n = .error f) :
    f.cause.code = .malformedImport := by
  obtain ⟨ls, hls⟩ := Chain.exists_links (argument n.fields 1)
  have hbad : (∃ l ∈ ls, l.kind ≠ .command) ∨ ls.filterMap carriedName = [] := by
    by_contra hgood
    push Not at hgood
    simp [hls.importedNames_ok hgood.1 hgood.2] at h
  obtain ⟨g, hg, hplace⟩ := hls.importedNames_error hbad
  obtain rfl := Except.error.inj (h.symm.trans hg)
  obtain rfl | ⟨l, -, rfl⟩ := hplace <;> rfl

/-! ## The module -/

/-- **The module that a command names**: its first argument is a resource
location with a path. -/
def NamesModule (n : Node) (m : ModulePath) : Prop :=
  ∃ l, argument n.fields 0 = some l ∧ l.kind = .resourceLocation ∧ m.path ≠ [] ∧
    m = ⟨l.text (ascii "namespace"), l.text (ascii "path")⟩

theorem moduleOf_ok {n : Node} {m : ModulePath} (h : NamesModule n m) : moduleOf n = .ok m := by
  obtain ⟨l, hl, hk, hpath, rfl⟩ := h
  rw [moduleOf, hl]
  simp only [hk, ne_eq, not_true_eq_false, if_false]
  rw [if_neg (by simpa using hpath)]
  rfl

/-- A command that names no module is refused there or at its argument. -/
theorem moduleOf_error {n : Node} (h : ∀ m, ¬NamesModule n m) :
    ∃ f : Failure, moduleOf n = .error f ∧ (f = ⟨.notAModule, n.location⟩ ∨
      ∃ l, argument n.fields 0 = some l ∧ f = ⟨.emptyModulePath, l.location⟩) := by
  cases hl : argument n.fields 0 with
  | none => exact ⟨_, by rw [moduleOf, hl]; rfl, .inl rfl⟩
  | some l =>
    by_cases hk : l.kind = .resourceLocation
    · have hpath : l.text (ascii "path") = [] := by
        by_contra hpath
        exact h _ ⟨l, hl, hk, hpath, rfl⟩
      refine ⟨⟨.emptyModulePath, l.location⟩, ?_, .inr ⟨l, rfl, rfl⟩⟩
      rw [moduleOf, hl]
      simp only [hk, ne_eq, not_true_eq_false, if_false, hpath]
      rfl
    · refine ⟨_, ?_, .inl rfl⟩
      rw [moduleOf, hl]
      simp only [hk, ne_eq, not_false_eq_true, if_true]
      rfl

theorem code_of_moduleOf {n : Node} {f : Failure} (h : moduleOf n = .error f) :
    f.cause.code = .malformedImport := by
  have hnone : ∀ m, ¬NamesModule n m := fun m hm => by simp [moduleOf_ok hm] at h
  obtain ⟨g, hg, hplace⟩ := moduleOf_error hnone
  obtain rfl := Except.error.inj (h.symm.trans hg)
  obtain rfl | ⟨l, -, rfl⟩ := hplace <;> rfl

end Handler

/-! ## The statement -/

/-- What a from-import is written as: the names it binds, and for a module
of scripts what the helper is asked for. -/
def ModulePath.fromText (m : ModulePath) (names : List Text) (stem : Text) : Text :=
  if m.namespaceName = [] then
    ascii "from " ++ m.path ++ ascii " import " ++ Text.commaSeparated names
  else
    Text.commaSeparated names ++ ascii ", = " ++ Helper.fromModuleImport.localName stem ++
      ascii "(" ++ Text.commaSeparated
        (Text.literal (m.namespaceName ++ ascii ":" ++ m.path) :: names.map Text.literal) ++
      ascii ")"

/-- An action refuses an import and writes nothing. -/
def Compile.RefusesImport {α : Type} (act : Compile α) (d : Draft) : Prop :=
  ∃ f d', exec act d = (.error f, d') ∧ f.cause.code = .malformedImport ∧ d'.lines = d.lines

/-- An action leaves no fragment, and writes one statement behind the mark
of a place. -/
def Compile.WritesStatement (act : Compile Result) (d : Draft) (place : Location)
    (text : Text → Text) : Prop :=
  ∃ d' s, exec act d = (.ok (some []), d') ∧
    d'.lines = d.lines ++ (place.line?.map fun line => ⟨d.depth, .mark line⟩).toList ++
      [⟨d.depth, s⟩] ∧
    ∀ stem, s.render stem = text stem

namespace Handler

variable {n : Node} (parsers : Parsers) (fields : Fields Part) (d : Draft)

/-- A from-import is refused for its module or else for its names. -/
theorem fromImport_refuses {f : Failure} (hf : f.cause.code = .malformedImport)
    (h : moduleOf n = .error f ∨ ∃ m, moduleOf n = .ok m ∧ importedNames n = .error f) :
    RefusesImport (fromImport parsers n fields) d := by
  refine ⟨f, d, ?_, hf, rfl⟩
  rw [fromImport, exec_bind, exec_liftExcept]
  obtain hmodule | ⟨m, hmodule, hnames⟩ := h
  · rw [hmodule]
  · simp only [hmodule]
    rw [exec_bind, exec_liftExcept, hnames]

/-- One with a module and names is written. -/
theorem fromImport_writes {m : ModulePath} {names : List Text} (hmodule : moduleOf n = .ok m)
    (hnames : importedNames n = .ok names) :
    WritesStatement (fromImport parsers n fields) d n.location (m.fromText names) := by
  unfold WritesStatement
  rw [fromImport, exec_bind_of_ok (by rw [exec_liftExcept, hmodule]),
    exec_bind_of_ok (by rw [exec_liftExcept, hnames]),
    exec_bind_of_ok (exec_lift (Drafting.mark n.location) d)]
  by_cases hscript : m.namespaceName = []
  · refine ⟨(Drafting.emit (.fromNative m.path names) (Drafting.mark n.location d).2).2,
      .fromNative m.path names, ?_, ?_, fun stem => ?_⟩
    · rw [if_neg (by simp [ModulePath.isScript, hscript])]
      rfl
    · simp only [Drafting.emit_apply, Drafting.mark_apply]
    · rw [ModulePath.fromText, if_pos hscript]
      rfl
  · refine ⟨(Drafting.emit (.bindNames names m.target)
      (Drafting.use .fromModuleImport (Drafting.mark n.location d).2).2).2,
      .bindNames names m.target, ?_, ?_, fun stem => ?_⟩
    · rw [if_pos (by simpa [ModulePath.isScript] using hscript)]
      rfl
    · have hdepth : ∀ e : Draft, (Drafting.use .fromModuleImport e).2.depth = e.depth := by
        intro e
        rw [Drafting.use_apply]
        split <;> rfl
      simp only [Drafting.emit_apply, Drafting.lines_use, hdepth, Drafting.mark_apply]
    · rw [ModulePath.fromText, if_neg hscript, Stmt.render, Expr.render, Expr.renderAll_eq,
        List.map_cons, List.map_map]
      simp only [Expr.render, Leaf.literal, ModulePath.target, Function.comp_def, List.append_assoc]

end Handler

namespace Compiler

variable (o : Options) (parsers : Parsers) {n : Node}

/-- Recording the choice of a rule writes nothing. -/
theorem exec_run_fromImport (hform : n.form = .fromImport) (d : Draft) : ∃ e : Draft,
    e.lines = d.lines ∧ e.depth = d.depth ∧ exec ((builtin o parsers).part n).run d =
      exec (Handler.fromImport parsers n (Fields.map (builtin o parsers).part n.fields)) e := by
  obtain ⟨name, hrun⟩ := run_builtin o parsers n
  refine ⟨(Drafting.note (.chosen n.kind name) d).2, rfl, rfl, ?_⟩
  rw [hrun, hform, exec_bind_of_ok (exec_lift _ d)]
  rfl

/-- **From-imports.** The second argument of a command that imports from a
module has one chain of links. The command is refused, and nothing is
written, if its first argument names no module, if a link is no command, or
if none carries a name. Otherwise one statement is written, behind a mark if
the command has a place: the import of the names that the links carry, in
their order. -/
theorem fromImport_spec (hkind : n.kind = .command)
    (hcommand : n.leaf? Handler.identifierField =
      some (.str (ascii "from:module:import:subcommand"))) (d : Draft) :
    ∃ ls, (∀ links, Handler.Chain (Handler.argument n.fields 1) links ↔ links = ls) ∧
      ((∀ m, ¬Handler.NamesModule n m) → RefusesImport ((builtin o parsers).part n).run d) ∧
      ∀ m, Handler.NamesModule n m →
        ((∃ l ∈ ls, l.kind ≠ .command) ∨ (∀ l ∈ ls, Handler.carriedName l = none) →
          RefusesImport ((builtin o parsers).part n).run d) ∧
        ((∀ l ∈ ls, l.kind = .command) → (∃ l ∈ ls, Handler.carriedName l ≠ none) →
          ls.filterMap Handler.carriedName ≠ [] ∧
          WritesStatement ((builtin o parsers).part n).run d n.location
            (m.fromText (ls.filterMap Handler.carriedName))) := by
  have hform : n.form = .fromImport := by
    rw [Node.form, hkind, hcommand]
    rfl
  obtain ⟨e, hlines, hdepth, hrun⟩ := exec_run_fromImport o parsers hform d
  have hrefuses : ∀ f : Failure, f.cause.code = .malformedImport →
      (Handler.moduleOf n = .error f ∨
        ∃ m, Handler.moduleOf n = .ok m ∧ Handler.importedNames n = .error f) →
      RefusesImport ((builtin o parsers).part n).run d := by
    intro f hf h
    have hhandler := Handler.fromImport_refuses parsers
      (Fields.map (builtin o parsers).part n.fields) e hf h
    rwa [RefusesImport, ← hrun, hlines] at hhandler
  obtain ⟨ls, hls⟩ := Handler.Chain.exists_links (Handler.argument n.fields 1)
  refine ⟨ls, fun links => ⟨fun h => hls.unique h, fun h => h ▸ hls⟩, fun hnone => ?_,
    fun m hm => ⟨fun hbad => ?_, fun hall hname => ?_⟩⟩
  · obtain ⟨f, hmodule, hf⟩ := Handler.moduleOf_error hnone
    refine hrefuses f ?_ (.inl hmodule)
    obtain rfl | ⟨l, -, rfl⟩ := hf <;> rfl
  · rw [← List.filterMap_eq_nil_iff] at hbad
    obtain ⟨f, hnames, hf⟩ := hls.importedNames_error hbad
    refine hrefuses f ?_ (.inr ⟨m, Handler.moduleOf_ok hm, hnames⟩)
    obtain rfl | ⟨l, -, rfl⟩ := hf <;> rfl
  · have hne : ls.filterMap Handler.carriedName ≠ [] := by
      obtain ⟨l, hl, hcarried⟩ := hname
      exact fun hnil => hcarried (List.filterMap_eq_nil_iff.1 hnil l hl)
    have hwrites := Handler.fromImport_writes parsers
      (Fields.map (builtin o parsers).part n.fields) e (Handler.moduleOf_ok hm)
      (hls.importedNames_ok hall hne)
    rw [WritesStatement, ← hrun, hlines, hdepth] at hwrites
    exact ⟨hne, hwrites⟩

/-- A chain of three links, the second of which carries no name. -/
theorem fromImport_spec_chain :
    let name (t : String) : Node :=
      ⟨.importedIdentifier, [⟨ascii "value", .leaf (.str (ascii t))⟩], .unknown⟩
    let link (identifier : String) (arguments : List (Option Node)) : Node :=
      ⟨.command, [⟨ascii "identifier", .leaf (.str (ascii identifier))⟩,
        ⟨ascii "arguments", .children arguments⟩], .unknown⟩
    let last := link "from:module:import:name" [some (name "b")]
    let chain := link "from:module:import:name:subcommand" [some (name "a"),
      some (link "from:module:import:name:subcommand" [none, some last])]
    let target : Node := ⟨.resourceLocation, [⟨ascii "namespace", .leaf (.str (ascii "demo"))⟩,
      ⟨ascii "path", .leaf (.str (ascii "lib"))⟩], .unknown⟩
    let n : Node := ⟨.command,
      [⟨ascii "identifier", .leaf (.str (ascii "from:module:import:subcommand"))⟩,
        ⟨ascii "arguments", .children [some target, some chain]⟩], ⟨3, 1⟩⟩
    n.kind = .command ∧
      n.leaf? Handler.identifierField = some (.str (ascii "from:module:import:subcommand")) ∧
      ∃ d' s, exec ((builtin .standard []).part n).run .empty = (.ok (some []), d') ∧
        d'.lines = [⟨0, .mark 3⟩, ⟨0, s⟩] ∧ s.render (ascii "_bolt") =
          ascii "a, b, = _bolt_helper_from_module_import('demo:lib', 'a', 'b')" := by
  intro name link last chain target n
  have hkind : n.kind = .command := rfl
  have hcommand : n.leaf? Handler.identifierField =
      some (.str (ascii "from:module:import:subcommand")) := by decide
  refine ⟨hkind, hcommand, ?_⟩
  obtain ⟨ls, hls, -, himport⟩ := fromImport_spec .standard [] hkind hcommand .empty
  have hlinks : ls = [chain, link "from:module:import:name:subcommand" [none, some last], last] :=
    ((hls _).1 (.link rfl (by decide) (.link rfl (by decide) (.last rfl (by decide))))).symm
  subst hlinks
  have hmodule : Handler.NamesModule n ⟨ascii "demo", ascii "lib"⟩ :=
    ⟨target, by rfl, rfl, by decide, by rfl⟩
  obtain ⟨-, d', s, hexec, hlines, hrender⟩ :=
    (himport _ hmodule).2 (by decide) ⟨_, List.mem_cons_self, by decide⟩
  refine ⟨d', s, hexec, hlines, (hrender _).trans ?_⟩
  decide

end Compiler

end ScriptSplice
