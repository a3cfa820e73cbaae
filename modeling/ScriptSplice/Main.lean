import ScriptSplice.CommandLine
/-!
# The program

Gathers the arguments, the variables and what the path leads to, and
writes what the command line leaves.
-/

namespace ScriptSplice

namespace CommandLine

/-- The bytes of a string. -/
def bytesOf (s : String) : Text := s.toUTF8.toList

/-- The variables the program looks at, as far as they are set. -/
def readEnvironment : IO Environment := do
  let names := ["BOLT_PREFIX", "BOLT_INDENT_WIDTH", "BOLT_LINE_TABLE", "BOLT_DEBUG_DISPATCH",
    "BOLT_DEBUG_CODEGEN", "BOLT_DIAG_JSON"]
  let values ← names.mapM fun name => return (name, ← IO.getEnv name)
  return values.filterMap fun (name, value) => value.map fun v => (bytesOf name, bytesOf v)

/-- What a path leads to, if it can be opened. What opens and cannot be
read is a directory. -/
def readEntry (path : String) : IO (Option Entry) := do
  match ← (IO.FS.Handle.mk path .read).toBaseIO with
  | .error _ => return none
  | .ok handle =>
    match ← handle.readBinToEnd.toBaseIO with
    | .error _ => return some .directory
    | .ok bytes => return some (.file bytes.toList)

/-- Runs the program on what its surroundings give, and writes what it
leaves. -/
def perform (args : List String) : IO UInt32 := do
  let env ← readEnvironment
  let entry ← match args with
    | [] => pure none
    | path :: _ => readEntry path
  let outcome := run (args.map bytesOf) env fun _ => entry
  (← IO.getStderr).write ⟨outcome.stderr.toArray⟩
  (← IO.getStdout).write ⟨outcome.stdout.toArray⟩
  return outcome.exitCode.toUInt32

end CommandLine

end ScriptSplice

def main (args : List String) : IO UInt32 := ScriptSplice.CommandLine.perform args
