import ScriptSplice.Compiler
import ScriptSplice.Tree.Printer
import ScriptSplice.Tree.Reader
/-!
# The command line

The program compiles the tree in one file. What it does is a function of
its arguments, the environment and what the paths lead to; `Main` only
supplies these and writes what comes out.
-/

namespace ScriptSplice

namespace CommandLine

/-- What a path leads to, if it can be opened. -/
inductive Entry where
  | file (text : Text)
  /-- A directory can be opened too, but there is nothing in it to read. -/
  | directory
deriving DecidableEq

/-- What can be read from an entry. -/
def Entry.text : Entry → Text
  | file text => text
  | directory => []

/-- What a run of the program leaves. -/
structure Outcome where
  exitCode : Nat
  stdout : Text
  stderr : Text

/-- A run that gives nothing but an exit code and a complaint. -/
def complain (exitCode : Nat) (stderr : Text) : Outcome := ⟨exitCode, [], stderr⟩

/-- The options after the arguments that follow the file, or the first
argument that is none of them. -/
def readArguments (options : Options) : List Text → Except Text Options
  | [] => .ok options
  | arg :: args =>
    if arg = ascii "--no-lines" then readArguments { options with lineTable := false } args
    else .error arg

/-- The lines that show what a program refers to. -/
def showRefs (refs : List (Option Node)) : Text :=
  refs.zipIdx.flatMap fun (n, i) =>
    ascii "# ref[" ++ Text.ofNat i ++ ascii "] = " ++ Node.printOption n ++ ascii "\n"

/-- A compiled tree as it is shown. -/
def showCompiled (c : Compiled) : Text :=
  match c.program with
  | none => ascii "# static\n"
  | some (source, output) =>
    source ++ ascii "\n# output: " ++ output ++ ascii "\n" ++ showRefs c.refs

/-- A diagnostic as it is shown: as JSON if that is asked for, and for
people. -/
def showDiagnostic (asJson : Bool) (d : Diagnostic) : Text :=
  (if asJson then d.json ++ ascii "\n" else []) ++ d.message ++ ascii "\n" ++
    (if d.hint.isEmpty then [] else ascii "hint: " ++ d.hint ++ ascii "\n")

/-- Compiles a text and shows the outcome. -/
def compileText (env : Environment) (options : Options) (text : Text) : Outcome :=
  match Node.parse text options.lineTable with
  | .error e => complain 2 (ascii "parse error: " ++ e.message ++ ascii "\n")
  | .ok root =>
    match (Compiler.standard options).compile root with
    | (.error d, report) => complain 3 (report ++ showDiagnostic env.reportsJson d)
    | (.ok c, report) => ⟨0, showCompiled c, report⟩

/-- **A run of the program** with some arguments, where `entryAt` gives
what each path leads to. A directory is read like an empty file, so it is
its text that is refused and not its path. -/
def run (args : List Text) (env : Environment) (entryAt : Text → Option Entry) : Outcome :=
  match args with
  | [] => complain 1 (ascii "usage: boltc <tree-file> [--no-lines]\n")
  | file :: rest =>
    match readArguments env.options rest with
    | .error arg => complain 1 (ascii "unknown option: " ++ arg ++ ascii "\n")
    | .ok options =>
      match entryAt file with
      | none => complain 1 (ascii "failed to read file: " ++ file ++ ascii "\n")
      | some entry => compileText env options entry.text

end CommandLine

end ScriptSplice
