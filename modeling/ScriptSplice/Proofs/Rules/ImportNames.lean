import ScriptSplice.Proofs.Rules.Emitters
import ScriptSplice.Proofs.Rules.ImportChain
/-!
# The names that imports bind

An import is refused before it writes anything, or it writes one statement.
The names that this statement binds (`Stmt.boundNames`) are read off the
path of the module, off the alias, or off the chain. An alias and the names
of a chain are known to be there by then. Of a path it is only known that
it is not empty, and a path can still have nothing behind its last slash.
A plain import of such a module binds an empty name, and no other import
does (`Compiler.imports_bind_names`).
-/

namespace ScriptSplice

open Compile

/-- The names that an import binds. A module of the target language is
bound by the first part of its path. -/
def Stmt.boundNames : Stmt → List Text
  | importNative path => [path.takeWhile (· != 0x2e)]
  | importNativeAs _ name | bindModule name _ => [name]
  | fromNative _ names | bindNames names _ => names
  | _ => []

/-- The forms of imports. -/
def Form.isImport : Form → Bool
  | importModule | importAs | fromImport => true
  | _ => false

/-- Whether nothing in a path can name its module: that of a module of
scripts ends in a slash, and that of another begins with a dot. -/
def ModulePath.isNameless (m : ModulePath) : Bool :=
  if m.isScript then m.path.getLast? == some 0x2f else m.path.head? == some 0x2e

/-- A scan stops at once exactly if the first byte is the one it looks
for. -/
private theorem takeWhile_bne_eq_nil {t : Text} (ht : t ≠ []) (b : UInt8) :
    t.takeWhile (· != b) = [] ↔ t.head? = some b := by
  cases t with
  | nil => exact absurd rfl ht
  | cons c t => by_cases hc : c = b <;> simp [hc]

namespace ModulePath

variable {m : ModulePath}

theorem lastPart_eq_nil (hpath : m.path ≠ []) :
    m.lastPart = [] ↔ m.path.getLast? = some 0x2f := by
  rw [lastPart, List.reverse_eq_nil_iff, takeWhile_bne_eq_nil (by simpa using hpath),
    List.head?_reverse]

/-- What a plain import would bind is empty exactly for a path that names
nothing. -/
theorem isNameless_eq (hpath : m.path ≠ []) :
    m.isNameless = true ↔
      (if m.isScript then m.lastPart else m.path.takeWhile (· != 0x2e)) = [] := by
  unfold isNameless
  split
  · rw [lastPart_eq_nil hpath, beq_iff_eq]
  · rw [takeWhile_bne_eq_nil hpath, beq_iff_eq]

theorem isScript_eq : m.isScript = true ↔ m.namespaceName ≠ [] := by
  simp [isScript]

end ModulePath

/-! ## What the runtime is asked for -/

/-- A statement asks the runtime for a module by a text: the text is what
some helper is called with first. -/
def Stmt.AsksFor (s : Stmt) (target : Text) : Prop :=
  ∃ h : Helper, (h = .importModule ∨ h = .fromModuleImport) ∧
    ∀ stem, h.localName stem ++ ascii "(" ++ Text.literal target <:+: s.render stem

/-- The first of some items stands at the front. -/
theorem Text.prefix_commaSeparated (t : Text) (ts : List Text) :
    t <+: commaSeparated (t :: ts) := by
  cases ts with
  | nil => simp [commaSeparated]
  | cons u ts =>
    rw [commaSeparated, List.intercalate_cons_cons, List.append_assoc]
    exact List.prefix_append _ _

namespace Stmt

theorem asksFor_bindModule (name target : Text) : (bindModule name target).AsksFor target := by
  refine ⟨.importModule, .inl rfl, fun stem => ⟨name ++ ascii " = ", ascii ").namespace", ?_⟩⟩
  simp [render, Expr.render, Expr.renderAll, Text.commaSeparated, Leaf.literal, ascii]

theorem asksFor_bindNames (names : List Text) (target : Text) :
    (bindNames names target).AsksFor target := by
  refine ⟨.fromModuleImport, .inr rfl, fun stem => ?_⟩
  obtain ⟨rest, hrest⟩ := Text.prefix_commaSeparated target.literal (names.map Text.literal)
  refine ⟨Text.commaSeparated names ++ ascii ", = ", rest ++ ascii ")", ?_⟩
  simp [render, Expr.render, Expr.renderAll_eq, Leaf.literal, ← hrest, Function.comp_def]

end Stmt

/-! ## Accepted imports -/

/-- **What an accepted import does**: it leaves no fragment, and writes one
statement behind the mark of a place. -/
structure Compile.WritesImport (act : Compile Result) (d : Draft) (place : Location) (s : Stmt)
    (d' : Draft) : Prop where
  run : exec act d = (.ok (some []), d')
  lines : d'.lines = d.lines ++ Line.markOf d.depth place ++ [⟨d.depth, s⟩]

namespace Handler

/-- The end of every import: for a module of scripts a helper is put to
use. -/
theorem exists_writesImport (d : Draft) (place : Location) (script : Bool) (h : Helper)
    (s t : Stmt) : ∃ d', WritesImport
      (do
        Drafting.mark place
        if script then
          Drafting.use h
          Drafting.emit s
        else Drafting.emit t
        return some [] : Compile Result) d place (if script then s else t) d' := by
  have hdepth (e : Draft) : (Drafting.use h e).2.depth = e.depth := by
    rw [Drafting.use_apply]
    split <;> rfl
  cases script with
  | true =>
    refine ⟨(Drafting.emit s (Drafting.use h (Drafting.mark place d).2).2).2, rfl, ?_⟩
    rw [Drafting.emit_apply, Drafting.lines_use, hdepth, Drafting.mark_apply]
    rfl
  | false =>
    refine ⟨(Drafting.emit t (Drafting.mark place d).2).2, rfl, ?_⟩
    rw [Drafting.emit_apply, Drafting.mark_apply]
    rfl

/-- A from-import that is accepted has names, and none of them is empty. -/
theorem names_of_importedNames {n : Node} {names : List Text} (h : importedNames n = .ok names) :
    names ≠ [] ∧ [] ∉ names := by
  obtain ⟨ls, hls⟩ := Chain.exists_links (argument n.fields 1)
  by_cases hbad : (∃ l ∈ ls, l.kind ≠ .command) ∨ ls.filterMap carriedName = []
  · obtain ⟨f, hf, -⟩ := hls.importedNames_error hbad
    rw [h] at hf
    cases hf
  · push Not at hbad
    rw [hls.importedNames_ok hbad.1 hbad.2] at h
    obtain rfl := Except.ok.inj h
    refine ⟨hbad.2, fun hmem => ?_⟩
    obtain ⟨l, -, hl⟩ := List.mem_filterMap.1 hmem
    obtain ⟨a, -, ha⟩ := Option.bind_eq_some_iff.1 hl
    split at ha
    · rename_i hvalue
      exact hvalue.2 (Option.some.inj ha)
    · cases ha

/-- **The statement of an accepted import.** It binds names, and only one
of a plain import can be empty; for a module of scripts the runtime gets
the namespace and the path as they are. -/
structure ImportStatement (n : Node) (m : ModulePath) (s : Stmt) : Prop where
  names_module : NamesModule n m
  binds : s.boundNames ≠ []
  empty_iff : [] ∈ s.boundNames ↔ n.form = .importModule ∧ m.isNameless = true
  asks : m.namespaceName ≠ [] → s.AsksFor (m.namespaceName ++ ascii ":" ++ m.path)

variable {n : Node} {m : ModulePath} {names : List Text}

theorem NamesModule.path_ne_nil (h : NamesModule n m) : m.path ≠ [] := by
  obtain ⟨_, _, _, hpath, _⟩ := h
  exact hpath

theorem importStatement_importModule (hform : n.form = .importModule) (hm : NamesModule n m) :
    ImportStatement n m
      (if m.isScript then .bindModule m.lastPart m.target else .importNative m.path) where
  names_module := hm
  binds := by split <;> simp [Stmt.boundNames]
  empty_iff := by
    have hbound (name : Text) : [] ∈ [name] ↔ name = [] := by rw [List.mem_singleton, eq_comm]
    rw [ModulePath.isNameless_eq hm.path_ne_nil]
    split <;> simp [Stmt.boundNames, hform, hbound]
  asks hnamespace := by
    rw [if_pos (ModulePath.isScript_eq.2 hnamespace)]
    exact Stmt.asksFor_bindModule _ _

theorem importStatement_importAs (hform : n.form = .importAs) (hm : NamesModule n m) {name : Text}
    (hname : name ≠ []) :
    ImportStatement n m
      (if m.isScript then .bindModule name m.target else .importNativeAs m.path name) where
  names_module := hm
  binds := by split <;> simp [Stmt.boundNames]
  empty_iff := by
    split <;> simp [Stmt.boundNames, hform, hname]
  asks hnamespace := by
    rw [if_pos (ModulePath.isScript_eq.2 hnamespace)]
    exact Stmt.asksFor_bindModule _ _

theorem importStatement_fromImport (hform : n.form = .fromImport) (hm : NamesModule n m)
    (hnames : names ≠ []) (hempty : [] ∉ names) :
    ImportStatement n m
      (if m.isScript then .bindNames names m.target else .fromNative m.path names) where
  names_module := hm
  binds := by split <;> exact hnames
  empty_iff := by split <;> simp [Stmt.boundNames, hform, hempty]
  asks hnamespace := by
    rw [if_pos (ModulePath.isScript_eq.2 hnamespace)]
    exact Stmt.asksFor_bindNames _ _

/-! ## The three imports -/

/-- The module of a command is read, or the command is refused for it. -/
theorem moduleOf_cases (n : Node) :
    (∃ m, NamesModule n m ∧ moduleOf n = .ok m) ∨
      ∃ f : Failure, moduleOf n = .error f ∧ f.cause.code = .malformedImport := by
  by_cases h : ∃ m, NamesModule n m
  · obtain ⟨m, hm⟩ := h
    exact .inl ⟨m, hm, moduleOf_ok hm⟩
  · obtain ⟨f, hf, -⟩ := moduleOf_error (not_exists.1 h)
    exact .inr ⟨f, hf, code_of_moduleOf hf⟩

theorem importedNames_cases (n : Node) :
    (∃ names, importedNames n = .ok names ∧ names ≠ [] ∧ [] ∉ names) ∨
      ∃ f : Failure, importedNames n = .error f ∧ f.cause.code = .malformedImport := by
  cases h : importedNames n with
  | ok names => exact .inl ⟨names, rfl, names_of_importedNames h⟩
  | error f => exact .inr ⟨f, rfl, code_of_importedNames h⟩

variable (parsers : Parsers) (fields : Fields Part) (d : Draft)

/-- An import that is refused when its module is read. -/
private theorem refuses_read {α β : Type} {x : Except Failure α} {f : Failure} (hx : x = .error f)
    (hf : f.cause.code = .malformedImport) (next : α → Compile β) :
    RefusesImport (liftExcept x >>= next) d :=
  ⟨f, d, exec_bind_of_error (by rw [exec_liftExcept, hx]), hf, rfl⟩

/-- What is read is what the rest acts on. -/
private theorem exec_read {α β : Type} {x : Except Failure α} {a : α} (hx : x = .ok a)
    (next : α → Compile β) : exec (liftExcept x >>= next) d = exec (next a) d :=
  exec_bind_of_ok (by rw [exec_liftExcept, hx])

theorem importModule_cases (hform : n.form = .importModule) :
    RefusesImport (importModule parsers n fields) d ∨
      ∃ m s d', ImportStatement n m s ∧
        WritesImport (importModule parsers n fields) d n.location s d' := by
  obtain ⟨m, hm, hmodule⟩ | ⟨f, hmodule, hf⟩ := moduleOf_cases n
  · obtain ⟨d', hrun, hlines⟩ := exists_writesImport d n.location m.isScript .importModule
      (.bindModule m.lastPart m.target) (.importNative m.path)
    exact .inr ⟨m, _, d', importStatement_importModule hform hm,
      (exec_read d hmodule _).trans hrun, hlines⟩
  · exact .inl (refuses_read d hmodule hf _)

theorem importAs_cases (hform : n.form = .importAs) :
    RefusesImport (importAs parsers n fields) d ∨
      ∃ m s d', ImportStatement n m s ∧
        WritesImport (importAs parsers n fields) d n.location s d' := by
  obtain ⟨m, hm, hmodule⟩ | ⟨f, hmodule, hf⟩ := moduleOf_cases n
  · cases hname : importedName (argument n.fields 1) with
    | nil =>
      refine .inl ⟨⟨.missingAlias, n.location⟩, d, (exec_read d hmodule _).trans ?_, rfl, rfl⟩
      rw [hname]
      rfl
    | cons b name =>
      obtain ⟨d', hrun, hlines⟩ := exists_writesImport d n.location m.isScript .importModule
        (.bindModule (b :: name) m.target) (.importNativeAs m.path (b :: name))
      refine .inr ⟨m, _, d', importStatement_importAs hform hm (List.cons_ne_nil b name),
        (exec_read d hmodule _).trans ?_, hlines⟩
      rw [hname]
      exact hrun
  · exact .inl (refuses_read d hmodule hf _)

theorem fromImport_cases (hform : n.form = .fromImport) :
    RefusesImport (fromImport parsers n fields) d ∨
      ∃ m s d', ImportStatement n m s ∧
        WritesImport (fromImport parsers n fields) d n.location s d' := by
  obtain ⟨m, hm, hmodule⟩ | ⟨f, hmodule, hf⟩ := moduleOf_cases n
  · obtain ⟨names, hread, hnames, hempty⟩ | ⟨f, hread, hf⟩ := importedNames_cases n
    · obtain ⟨d', hrun, hlines⟩ := exists_writesImport d n.location m.isScript .fromModuleImport
        (.bindNames names m.target) (.fromNative m.path names)
      exact .inr ⟨m, _, d', importStatement_fromImport hform hm hnames hempty,
        (exec_read d hmodule _).trans ((exec_read d hread _).trans hrun), hlines⟩
    · obtain ⟨g, d', hrun, hg, hlines⟩ := refuses_read d hread hf fun names => do
        Drafting.mark n.location
        if m.isScript then
          Drafting.use .fromModuleImport
          Drafting.emit (.bindNames names m.target)
        else Drafting.emit (.fromNative m.path names)
        return (some [] : Result)
      exact .inl ⟨g, d', (exec_read d hmodule _).trans hrun, hg, hlines⟩
  · exact .inl (refuses_read d hmodule hf _)

theorem import_cases (hform : n.form.isImport = true) :
    RefusesImport (n.form.handler parsers n fields) d ∨
      ∃ m s d', ImportStatement n m s ∧
        WritesImport (n.form.handler parsers n fields) d n.location s d' := by
  cases h : n.form with
  | importModule => exact importModule_cases parsers fields d h
  | importAs => exact importAs_cases parsers fields d h
  | fromImport => exact fromImport_cases parsers fields d h
  | _ =>
    rw [h] at hform
    cases hform

end Handler

namespace Compiler

variable (o : Options) (parsers : Parsers) {n : Node}

/-- **Imports bind names.** An import is refused and writes nothing, or one
statement is written behind a mark if the command has a place. That
statement binds at least one name, and a module of scripts is asked for by
its namespace and path as they are. The names are not empty, unless it is a
plain import and nothing in the path can name its module. -/
theorem imports_bind_names (hform : n.form.isImport = true) (d : Draft) :
    RefusesImport ((builtin o parsers).part n).run d ∨
      ∃ m s d', Handler.ImportStatement n m s ∧
        WritesImport ((builtin o parsers).part n).run d n.location s d' := by
  obtain ⟨events, hrun⟩ := exec_run_builtin o parsers n d
  -- the record of the choice is all that the drafts differ in
  obtain ⟨f, d', hexec, hf, hlines⟩ | ⟨m, s, d', hs, hexec, hlines⟩ := Handler.import_cases parsers
    (Fields.map (builtin o parsers).part n.fields) { d with events } hform
  · exact .inl ⟨f, d', hrun.trans hexec, hf, hlines⟩
  · exact .inr ⟨m, s, d', hs, hrun.trans hexec, hlines⟩

/-- A resource location in an import, with what else the command has. -/
private def importing (identifier path : String) (others : List (Option Node)) : Node :=
  ⟨.command, [⟨ascii "identifier", .leaf (.str (ascii identifier))⟩,
    ⟨ascii "arguments", .children (some ⟨.resourceLocation,
      [⟨ascii "namespace", .leaf (.str (ascii "demo"))⟩,
        ⟨ascii "path", .leaf (.str (ascii path))⟩], .unknown⟩ :: others)⟩], .unknown⟩

/-- Under another name, a module whose path ends in a slash is bound. -/
theorem imports_bind_names_alias :
    let n := importing "import:module:as:alias" "lib/"
      [some ⟨.importedIdentifier, [⟨ascii "value", .leaf (.str (ascii "x"))⟩], .unknown⟩]
    n.form.isImport = true ∧ ∃ m s d', Handler.ImportStatement n m s ∧
      WritesImport ((builtin .standard []).part n).run .empty n.location s d' ∧
      d'.lines = [⟨0, .bindModule (ascii "x") (ascii "demo:lib/")⟩] := by
  intro n
  have hform : n.form.isImport = true := by decide
  refine ⟨hform, ?_⟩
  obtain ⟨f, d', hrun, -⟩ | ⟨m, s, d', hs, hwrites⟩ :=
    imports_bind_names .standard [] hform .empty
  · cases hrun
  · have hd' : (exec ((builtin .standard []).part n).run .empty).2 = d' :=
      congrArg Prod.snd hwrites.run
    refine ⟨m, s, d', hs, hwrites, ?_⟩
    rw [← hd']
    rfl

/-- Under its own name, it is bound to an empty name. -/
theorem import_binds_empty_name :
    let n := importing "import:module" "lib/" []
    ¬(RefusesImport ((builtin .standard []).part n).run .empty ∨ ∃ s d',
      WritesImport ((builtin .standard []).part n).run .empty n.location s d' ∧
        [] ∉ s.boundNames) ∧
    (exec ((builtin .standard []).part n).run .empty).2.lines.map (Line.render (ascii "_bolt") 4) =
      [ascii " = _bolt_helper_import_module('demo:lib/').namespace"] := by
  intro n
  refine ⟨?_, by decide +kernel⟩
  rintro (⟨f, d', hrun, -⟩ | ⟨s, d', hwrites, hnames⟩)
  · cases hrun
  · have hd' : (exec ((builtin .standard []).part n).run .empty).2 = d' :=
      congrArg Prod.snd hwrites.run
    have hlines : [⟨0, .bindModule [] (ascii "demo:lib/")⟩] = d'.lines := by
      rw [← hd']
      rfl
    obtain rfl : Stmt.bindModule [] (ascii "demo:lib/") = s :=
      congrArg Line.stmt (List.cons.inj (hlines.trans hwrites.lines)).1
    exact hnames List.mem_cons_self

end Compiler

end ScriptSplice
