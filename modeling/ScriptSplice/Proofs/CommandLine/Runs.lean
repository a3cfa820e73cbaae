import ScriptSplice.CommandLine
import ScriptSplice.Proofs.Rules.References
import ScriptSplice.Proofs.Target.Identifiers
import ScriptSplice.Proofs.Target.SourceMap
import ScriptSplice.Proofs.Tree.Printing
/-!
# What a run of the program ends with

A run is refused for its arguments, or it reads a text, which is rejected,
or fails to compile, or is compiled. `Ends` says so without the order in
which the program looks at things. A run ends in one way (`ends_run`,
`Ends.eq_run`), and the exit code tells which.

What is shown of a compiled tree is read back line by line
(`lines_showCompiled`): a text has legible trees only, and what a program
refers to is of its tree, so that every reference is on a line of its own.
-/

namespace ScriptSplice

/-! ## Environments -/

namespace Environment

variable {env env' : Environment} {name value : Text}

/-- **An environment with one variable changed**: it has this value, and
every other variable is as it was. -/
def Changed (env : Environment) (name value : Text) (env' : Environment) : Prop :=
  ∀ other, env'.value? other = if other = name then some value else env.value? other

theorem changed_cons (env : Environment) (name value : Text) :
    env.Changed name value ((name, value) :: env) := by
  intro other
  by_cases h : other = name
  · simp [value?, h]
  · simp [value?, h, Ne.symm h]

theorem Changed.value? (h : env.Changed name value env') : env'.value? name = some value := by
  rw [h name, if_pos rfl]

theorem Changed.value?_of_ne (h : env.Changed name value env') {other : Text}
    (hne : other ≠ name) : env'.value? other = env.value? other := by
  rw [h other, if_neg hne]

theorem Changed.isOn_of_ne (h : env.Changed name value env') {other : Text} (hne : other ≠ name) :
    env'.isOn other = env.isOn other := by
  rw [isOn, firstByte?, h.value?_of_ne hne, isOn, firstByte?]

/-- **With the variable of the line table off**, the options are those with
the line table off. -/
theorem Changed.options (h : env.Changed (ascii "BOLT_LINE_TABLE") (ascii "0") env') :
    env'.options = { env.options with lineTable := false } := by
  have hoff : env'.isOff (ascii "BOLT_LINE_TABLE") = true := by
    rw [isOff, firstByte?, h.value?]
    rfl
  simp only [Environment.options, hoff, Bool.not_true]
  rw [h.value?_of_ne (by decide), h.value?_of_ne (by decide), h.isOn_of_ne (by decide),
    h.isOn_of_ne (by decide)]

end Environment

namespace CommandLine

variable {args : List Text} {env env' : Environment} {entryAt : Text → Option Entry}
  {text : Text}

/-! ## Arguments -/

/-- **Arguments that are refused** before anything is read: there are none,
one behind the first is not the option there is, or what the first leads
to cannot be opened. -/
inductive Refused (entryAt : Text → Option Entry) : List Text → Prop
  | noFile : Refused entryAt []
  | noOption {file arg : Text} {rest : List Text} (harg : arg ∈ rest)
      (hne : arg ≠ ascii "--no-lines") : Refused entryAt (file :: rest)
  | notOpened {file : Text} {rest : List Text} (hfile : entryAt file = none) :
      Refused entryAt (file :: rest)

/-- **Arguments that lead to a text**, which is what can be read from what
the first one leads to. -/
inductive Reads (entryAt : Text → Option Entry) : List Text → Text → Prop
  | intro {file : Text} {rest : List Text} {entry : Entry}
      (hrest : ∀ arg ∈ rest, arg = ascii "--no-lines") (hfile : entryAt file = some entry) :
      Reads entryAt (file :: rest) entry.text

theorem refused_or_reads (args : List Text) (entryAt : Text → Option Entry) :
    Refused entryAt args ∨ ∃ text, Reads entryAt args text := by
  cases args with
  | nil => exact .inl .noFile
  | cons file rest =>
    by_cases hrest : ∀ arg ∈ rest, arg = ascii "--no-lines"
    · cases hfile : entryAt file with
      | none => exact .inl (.notOpened hfile)
      | some entry => exact .inr ⟨_, .intro hrest hfile⟩
    · push Not at hrest
      obtain ⟨arg, harg, hne⟩ := hrest
      exact .inl (.noOption harg hne)

/-- The options of an environment, as the arguments behind the file change
them. -/
def optionsWith (env : Environment) (rest : List Text) : Options :=
  { env.options with lineTable := env.options.lineTable && !rest.contains (ascii "--no-lines") }

/-- **Reading the arguments** stops at the first one that is no option. -/
theorem readArguments_eq (options : Options) (args : List Text) :
    readArguments options args = match args.find? (· != ascii "--no-lines") with
      | some arg => .error arg
      | none => .ok { options with
          lineTable := options.lineTable && !args.contains (ascii "--no-lines") } := by
  induction args generalizing options with
  | nil => simp [readArguments]
  | cons arg args ih =>
    by_cases harg : arg = ascii "--no-lines"
    · rw [readArguments, if_pos harg, ih, List.find?_cons_of_neg (by simp [harg])]
      cases args.find? (· != ascii "--no-lines") <;> simp [harg]
    · rw [readArguments, if_neg harg, List.find?_cons_of_pos (by simp [harg])]

theorem run_of_refused (h : Refused entryAt args) (env : Environment) :
    ∃ complaint, run args env entryAt = complain 1 complaint := by
  cases h with
  | noFile => exact ⟨_, rfl⟩
  | @noOption file arg rest harg hne =>
    obtain ⟨first, hfirst⟩ : ∃ first, rest.find? (· != ascii "--no-lines") = some first :=
      Option.isSome_iff_exists.1 (List.find?_isSome.2 ⟨arg, harg, by simpa using hne⟩)
    refine ⟨ascii "unknown option: " ++ first ++ ascii "\n", ?_⟩
    rw [run, readArguments_eq, hfirst]
  | @notOpened file rest hfile =>
    rw [run, readArguments_eq, hfile]
    cases rest.find? (· != ascii "--no-lines") <;> exact ⟨_, rfl⟩

theorem run_of_reads (h : Reads entryAt args text) (env : Environment) :
    run args env entryAt = compileText env (optionsWith env args.tail) text := by
  cases h with
  | @intro file rest entry hrest hfile =>
    have hnone : rest.find? (· != ascii "--no-lines") = none :=
      List.find?_eq_none.2 fun arg harg => by simp [hrest arg harg]
    rw [run, readArguments_eq, hnone, hfile]
    rfl

/-- **The option and the variable** turn the line table off alike. -/
theorem run_noLines (h : env.Changed (ascii "BOLT_LINE_TABLE") (ascii "0") env') (file : Text)
    (before after : List Text) (entryAt : Text → Option Entry) :
    run (file :: (before ++ ascii "--no-lines" :: after)) env entryAt =
      run (file :: (before ++ after)) env' entryAt := by
  have hjson : env'.reportsJson = env.reportsJson := h.isOn_of_ne (by decide)
  have hcompile (options : Options) (text : Text) :
      compileText env' options text = compileText env options text := by
    rw [compileText, hjson, compileText]
  have harguments : readArguments env.options (before ++ ascii "--no-lines" :: after) =
      readArguments env'.options (before ++ after) := by
    rw [readArguments_eq, readArguments_eq, h.options]
    have hfind : (before ++ ascii "--no-lines" :: after).find? (· != ascii "--no-lines") =
        (before ++ after).find? (· != ascii "--no-lines") := by
      rw [List.find?_append, List.find?_append, List.find?_cons_of_neg (by simp)]
    rw [hfind]
    simp
  simp only [run, harguments, hcompile]

/-! ## Ends -/

/-- **How a run can end**: with an exit code and what it writes. -/
inductive Ends (args : List Text) (env : Environment) (entryAt : Text → Option Entry) :
    Nat → Text → Prop
  | refused (h : Refused entryAt args) : Ends args env entryAt 1 []
  | rejected {text : Text} {e : Reader.Error} (hreads : Reads entryAt args text)
      (hparse : Node.parse text (optionsWith env args.tail).lineTable = .error e) :
      Ends args env entryAt 2 []
  | failed {text : Text} {root : Node} {d : Diagnostic} (hreads : Reads entryAt args text)
      (hparse : Node.parse text (optionsWith env args.tail).lineTable = .ok root)
      (hcompile : ((Compiler.standard (optionsWith env args.tail)).compile root).1 = .error d) :
      Ends args env entryAt 3 []
  | compiled {text : Text} {root : Node} {c : Compiled} (hreads : Reads entryAt args text)
      (hparse : Node.parse text (optionsWith env args.tail).lineTable = .ok root)
      (hcompile : ((Compiler.standard (optionsWith env args.tail)).compile root).1 = .ok c) :
      Ends args env entryAt 0 (showCompiled c)

section

variable {o : Options} {root : Node}

theorem compileText_rejected {e : Reader.Error} (hparse : Node.parse text o.lineTable = .error e) :
    compileText env o text = complain 2 (ascii "parse error: " ++ e.message ++ ascii "\n") := by
  rw [compileText, hparse]

/-- There is nothing to read in a text without bytes. -/
theorem compileText_nil (env : Environment) (o : Options) :
    compileText env o [] = complain 2 (ascii "parse error: line 1:1: expected (\n") := by
  obtain ⟨e, hparse, hmessage⟩ : ∃ e, Node.parse [] o.lineTable = .error e ∧
      e.message = ascii "line 1:1: expected (" := by
    cases o.lineTable <;> exact ⟨_, rfl, by decide⟩
  rw [compileText_rejected hparse, hmessage]
  rfl

theorem compileText_failed (env : Environment) (hparse : Node.parse text o.lineTable = .ok root)
    {d : Diagnostic} (hcompile : ((Compiler.standard o).compile root).1 = .error d) :
    ∃ complaint, compileText env o text = complain 3 complaint := by
  rcases h : (Compiler.standard o).compile root with ⟨r, report⟩
  obtain rfl : r = .error d := by rw [← hcompile, h]
  refine ⟨report ++ showDiagnostic env.reportsJson d, ?_⟩
  rw [compileText, hparse]
  simp only [h]

theorem compileText_compiled (env : Environment) (hparse : Node.parse text o.lineTable = .ok root)
    {c : Compiled} (hcompile : ((Compiler.standard o).compile root).1 = .ok c) :
    ∃ report, compileText env o text = ⟨0, showCompiled c, report⟩ := by
  rcases h : (Compiler.standard o).compile root with ⟨r, report⟩
  obtain rfl : r = .ok c := by rw [← hcompile, h]
  refine ⟨report, ?_⟩
  rw [compileText, hparse]
  simp only [h]

end

/-- **A run ends in one of these ways.** -/
theorem ends_run (args : List Text) (env : Environment) (entryAt : Text → Option Entry) :
    Ends args env entryAt (run args env entryAt).exitCode (run args env entryAt).stdout := by
  rcases refused_or_reads args entryAt with h | ⟨text, h⟩
  · obtain ⟨complaint, hrun⟩ := run_of_refused h env
    rw [hrun]
    exact .refused h
  rw [run_of_reads h]
  cases hparse : Node.parse text (optionsWith env args.tail).lineTable with
  | error e =>
    rw [compileText_rejected hparse]
    exact .rejected h hparse
  | ok root =>
    cases hcompile : ((Compiler.standard (optionsWith env args.tail)).compile root).1 with
    | error d =>
      obtain ⟨complaint, hrun⟩ := compileText_failed env hparse hcompile
      rw [hrun]
      exact .failed h hparse hcompile
    | ok c =>
      obtain ⟨report, hrun⟩ := compileText_compiled env hparse hcompile
      rw [hrun]
      exact .compiled h hparse hcompile

/-- **A run ends in no other way.** -/
theorem Ends.eq_run {exitCode : Nat} {stdout : Text} (h : Ends args env entryAt exitCode stdout) :
    (run args env entryAt).exitCode = exitCode ∧ (run args env entryAt).stdout = stdout := by
  cases h with
  | refused h =>
    obtain ⟨complaint, hrun⟩ := run_of_refused h env
    rw [hrun]
    exact ⟨rfl, rfl⟩
  | rejected hreads hparse =>
    rw [run_of_reads hreads, compileText_rejected hparse]
    exact ⟨rfl, rfl⟩
  | failed hreads hparse hcompile =>
    obtain ⟨complaint, hrun⟩ := compileText_failed env hparse hcompile
    rw [run_of_reads hreads, hrun]
    exact ⟨rfl, rfl⟩
  | compiled hreads hparse hcompile =>
    obtain ⟨report, hrun⟩ := compileText_compiled env hparse hcompile
    rw [run_of_reads hreads, hrun]
    exact ⟨rfl, rfl⟩

/-- The exit code tells how a run ended. -/
theorem exitCode_eq_iff {code : Nat} :
    (run args env entryAt).exitCode = code ↔ ∃ stdout, Ends args env entryAt code stdout :=
  ⟨fun h => ⟨_, h ▸ ends_run args env entryAt⟩, fun ⟨_, h⟩ => h.eq_run.1⟩

/-! ## What is shown -/

/-- The line that shows a reference. -/
def refLine (i : Nat) (n : Option Node) : Text :=
  ascii "# ref[" ++ Text.ofNat i ++ ascii "] = " ++ Node.printOption n

theorem showCompiled_eq {c : Compiled} {source output : Text}
    (hprogram : c.program = some (source, output)) :
    showCompiled c = source ++ ascii "\n# output: " ++ output ++ ascii "\n" ++
      (c.refs.mapIdx refLine).flatMap fun line => line ++ ascii "\n" := by
  rw [showCompiled, hprogram, showRefs, List.mapIdx_eq_zipIdx_map, List.flatMap_map]
  rfl

/-- A reference is shown on one line if it is of a legible tree. -/
theorem newline_not_mem_refLine {root : Node} {p : Leaf → Bool} (h : root.Legible p)
    {r : Option Node} (hr : root.Entry r) (i : Nat) : Byte.newline ∉ refLine i r := by
  have hindex : Byte.newline ∉ Text.ofNat i :=
    Byte.ne_newline_of_isAtom (Text.isAtom_ofNat i).all
  have hprinted : Byte.newline ∉ Node.printOption r := by
    cases r with
    | none => decide
    | some m => exact Node.newline_not_mem_print (h.of_mem_subtree hr)
  simp only [refLine, List.mem_append, not_or]
  exact ⟨⟨⟨by decide, hindex⟩, by decide⟩, hprinted⟩

/-- What is shown of a program, line by line, if its variable and its
references are on one line each. -/
theorem lines_showCompiled {c : Compiled} {source output : Text}
    (hprogram : c.program = some (source, output)) (houtput : Byte.newline ∉ output)
    (hrefs : ∀ line ∈ c.refs.mapIdx refLine, Byte.newline ∉ line) :
    Text.lines (showCompiled c) = Text.lines source ++ (ascii "# output: " ++ output) ::
      c.refs.mapIdx refLine ++ [[]] := by
  have hvariable : Byte.newline ∉ ascii "# output: " ++ output := by
    rw [List.mem_append, not_or]
    exact ⟨by decide, houtput⟩
  have hshown : showCompiled c = source ++ Byte.newline :: (ascii "# output: " ++ output ++
      Byte.newline :: (c.refs.mapIdx refLine).flatMap fun line => line ++ ascii "\n") := by
    rw [showCompiled_eq hprogram]
    simp only [List.append_assoc]
    rfl
  have hflat : (c.refs.mapIdx refLine).flatMap Text.lines = c.refs.mapIdx refLine := by
    rw [List.flatMap_congr fun line hline => Text.lines_of_not_mem (hrefs line hline)]
    exact List.flatMap_singleton' _
  rw [hshown, Text.lines_append_break, Text.lines_append_break, Text.lines_flatMap_break, hflat,
    Text.lines_of_not_mem hvariable, List.append_assoc]
  rfl

/-- **What is compiled of a text** has a variable and references that are on
one line each. -/
theorem newline_not_mem_of_compile {o : Options} (hstem : o.stem.Identifier) {located : Bool}
    {root : Node} (hparse : Node.parse text located = .ok root) {c : Compiled}
    (hcompile : ((Compiler.standard o).compile root).1 = .ok c) :
    (∀ source output, c.program = some (source, output) → Byte.newline ∉ output) ∧
      ∀ line ∈ c.refs.mapIdx refLine, Byte.newline ∉ line := by
  obtain ⟨outcome, draft, hrun, rfl⟩ := Compiler.compile_eq_ok.1 hcompile
  constructor
  · intro source output hprogram
    obtain ⟨n, rfl, hsource⟩ := Option.map_eq_some_iff.1 hprogram
    obtain ⟨-, rfl⟩ := Prod.mk.inj hsource
    exact (Text.Harmless.of_isIdentifier (Text.isIdentifier_iff.2 (hstem.variableName n))).newline
  · intro line hline
    obtain ⟨i, hi, rfl⟩ := List.mem_mapIdx.1 hline
    exact newline_not_mem_refLine (Node.legible_of_parse hparse)
      (Compiler.entry_of_mem_refs o standardParsers hrun _ (List.getElem_mem hi)) i

/-! ## The contract -/

/-- **The contract of the command line.** The exit code is 1 if the
arguments are refused, 2 if they lead to a text that is rejected, 3 if it
is a tree that does not compile and 0 if it is one that does, each time
only then, and nothing else. Nothing is written unless the code is 0, and
then it is a remark, if the tree needs no program, or the source, the
variable it binds, and one line for each reference, in order. A directory
can be opened, so its text is rejected. The option for no line table, and
the variable that turns it off, lead to the same outcome. -/
theorem run_law (args : List Text) (env : Environment) (entryAt : Text → Option Entry) :
    let options := optionsWith env args.tail
    let outcome := run args env entryAt
    (outcome.exitCode = 1 ↔ Refused entryAt args) ∧
    (outcome.exitCode = 2 ↔ ∃ text e, Reads entryAt args text ∧
      Node.parse text options.lineTable = .error e) ∧
    (outcome.exitCode = 3 ↔ ∃ text root d, Reads entryAt args text ∧
      Node.parse text options.lineTable = .ok root ∧
      ((Compiler.standard options).compile root).1 = .error d) ∧
    (outcome.exitCode = 0 ↔ ∃ text root c, Reads entryAt args text ∧
      Node.parse text options.lineTable = .ok root ∧
      ((Compiler.standard options).compile root).1 = .ok c) ∧
    outcome.exitCode ∈ [0, 1, 2, 3] ∧
    (outcome.exitCode ≠ 0 → outcome.stdout = []) ∧
    (∀ text root c, Reads entryAt args text → Node.parse text options.lineTable = .ok root →
      ((Compiler.standard options).compile root).1 = .ok c →
      match c.program with
      | none => outcome.stdout = ascii "# static\n"
      | some (source, output) =>
        outcome.stdout = source ++ ascii "\n# output: " ++ output ++ ascii "\n" ++
          (c.refs.mapIdx refLine).flatMap (fun line => line ++ ascii "\n") ∧
        Text.lines outcome.stdout = Text.lines source ++ (ascii "# output: " ++ output) ::
          c.refs.mapIdx refLine ++ [[]]) ∧
    (∀ file rest, args = file :: rest → (∀ arg ∈ rest, arg = ascii "--no-lines") →
      entryAt file = some .directory →
      outcome = ⟨2, [], ascii "parse error: line 1:1: expected (\n"⟩) ∧
    ∀ file before after env', env.Changed (ascii "BOLT_LINE_TABLE") (ascii "0") env' →
      run (file :: (before ++ ascii "--no-lines" :: after)) env entryAt =
        run (file :: (before ++ after)) env' entryAt := by
  intro options outcome
  have hends : Ends args env entryAt outcome.exitCode outcome.stdout := ends_run args env entryAt
  refine ⟨exitCode_eq_iff.trans ⟨?_, fun h => ⟨_, .refused h⟩⟩,
    exitCode_eq_iff.trans ⟨?_, fun ⟨_, _, h, hparse⟩ => ⟨_, .rejected h hparse⟩⟩,
    exitCode_eq_iff.trans ⟨?_, fun ⟨_, _, _, h, hparse, hcompile⟩ =>
      ⟨_, .failed h hparse hcompile⟩⟩,
    exitCode_eq_iff.trans ⟨?_, fun ⟨_, _, _, h, hparse, hcompile⟩ =>
      ⟨_, .compiled h hparse hcompile⟩⟩,
    ?_, fun hne => ?_, fun text root c h hparse hcompile => ?_,
    fun file rest hargs hrest hfile => ?_,
    fun file before after env' h => run_noLines h file before after entryAt⟩
  · rintro ⟨_, hone⟩
    cases hone with
    | refused h => exact h
  · rintro ⟨_, htwo⟩
    cases htwo with
    | rejected h hparse => exact ⟨_, _, h, hparse⟩
  · rintro ⟨_, hthree⟩
    cases hthree with
    | failed h hparse hcompile => exact ⟨_, _, _, h, hparse, hcompile⟩
  · rintro ⟨_, hzero⟩
    cases hzero with
    | compiled h hparse hcompile => exact ⟨_, _, _, h, hparse, hcompile⟩
  · generalize outcome.exitCode = exitCode, outcome.stdout = stdout at hends
    cases hends <;> decide
  · generalize outcome.exitCode = exitCode, outcome.stdout = stdout at hends hne
    cases hends with
    | compiled => exact absurd rfl hne
    | _ => rfl
  · have hstdout : outcome.stdout = showCompiled c := (Ends.compiled h hparse hcompile).eq_run.2
    have hstem : options.stem.Identifier := env.identifier_stem
    obtain ⟨houtput, hrefs⟩ := newline_not_mem_of_compile hstem hparse hcompile
    rw [hstdout]
    cases hprogram : c.program with
    | none => rw [showCompiled, hprogram]
    | some program =>
      exact ⟨showCompiled_eq hprogram, lines_showCompiled hprogram (houtput _ _ hprogram) hrefs⟩
  · subst hargs
    exact (run_of_reads (.intro hrest hfile) env).trans (compileText_nil _ _)

/-- A message with a number to put in, behind a string with a line break;
the directory next to it; and no arguments at all. -/
theorem run_law_message :
    let text := ascii "(message :items [(value :value \"a\n\")
      (interpolation :converter \"int\" :value (value :value 1))])"
    let entryAt : Text → Option Entry := fun file =>
      if file = ascii "." then some .directory else some (.file text)
    let args := [ascii "message", ascii "--no-lines"]
    let outcome := run args [] entryAt
    outcome.exitCode = 0 ∧
    (∃ (c : Compiled) (source output : Text), c.program = some (source, output) ∧
      Text.lines outcome.stdout = Text.lines source ++ (ascii "# output: " ++ output) ::
        c.refs.mapIdx refLine ++ [[]]) ∧
    run [ascii "message"] [(ascii "BOLT_LINE_TABLE", ascii "0")] entryAt = outcome ∧
    (run [ascii "."] [] entryAt).exitCode = 2 ∧ (run [] [] entryAt).stdout = [] := by
  intro text entryAt args outcome
  obtain ⟨hcode, hstdout⟩ : outcome.exitCode = 0 ∧ outcome.stdout ≠ ascii "# static\n" := by
    decide +kernel
  obtain ⟨-, -, -, hzero, -, -, hshown, -, halike⟩ := run_law args [] entryAt
  obtain ⟨t, root, c, h, hparse, hcompile⟩ := hzero.1 hcode
  refine ⟨hcode, ?_, (halike (ascii "message") [] [] _ (Environment.changed_cons _ _ _)).symm,
    ?_, ?_⟩
  · have hc := hshown t root c h hparse hcompile
    cases hprogram : c.program with
    | none =>
      rw [hprogram] at hc
      exact absurd hc hstdout
    | some program =>
      rw [hprogram] at hc
      exact ⟨c, program.1, program.2, hprogram, hc.2⟩
  · obtain ⟨-, -, -, -, -, -, -, hdirectory, -⟩ := run_law [ascii "."] [] entryAt
    rw [hdirectory _ _ rfl (by simp) rfl]
  · obtain ⟨hone, -, -, -, -, hnothing, -⟩ := run_law [] [] entryAt
    exact hnothing fun hzero => absurd (hzero.symm.trans (hone.2 .noFile)) (by decide)

/-- Not every path to something that cannot be read is refused: a directory
is read like a file without bytes. -/
theorem directory_not_refused :
    ¬∀ (args : List Text) (env : Environment) (entryAt : Text → Option Entry),
      (run args env entryAt).exitCode = 1 ↔
        args = [] ∨ (∃ arg ∈ args.tail, arg ≠ ascii "--no-lines") ∨
          ∃ file ∈ args.head?, ∀ text, entryAt file ≠ some (.file text) := by
  intro h
  have hdirectory : (run [ascii "/"] [] fun _ => some .directory).exitCode = 2 := by decide +kernel
  have hclaimed := (h [ascii "/"] [] fun _ => some .directory).2
    (.inr (.inr ⟨ascii "/", rfl, fun text => by simp⟩))
  exact absurd (hdirectory.symm.trans hclaimed) (by decide)

end CommandLine

end ScriptSplice
