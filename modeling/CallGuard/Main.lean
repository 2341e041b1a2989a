import CallGuard.CommandLine.Program

/-!
# The executable

Reads the files that the arguments name, the environment and standard input, and prints what
the program makes of them.
-/

open CallGuard.CommandLine

/-- The content of a file, or why it cannot be read. -/
def readFile (path : String) : IO (Except FileFault String) := do
  try
    return .ok (← IO.FS.readFile path)
  catch
    | .noFileOrDirectory .. => return .error .missing
    | .inappropriateType .. => return .error .isDirectory
    | .invalidArgument .. => return .error .nameTooLong
    | _ => return .error .notDirectory

/-- The values of the environment variables that the program looks at. -/
def readEnvironment : IO (List (String × String)) := do
  let names := ["HOME", "ROLESCOPE_CONFIG", "ROLESCOPE_PUSH_DOWN", "ROLESCOPE_DEPLOYER",
    "ROLESCOPE_SALT"]
  let values ← names.mapM fun name => return (← IO.getEnv name).map (name, ·)
  return values.filterMap fun value => value

/-- What surrounds the program when it is given some words. -/
def readSurroundings (words : List String) : IO Surroundings := do
  let environment ← readEnvironment
  let lookup (name : String) : Option String := environment.lookup name
  let empty : Surroundings := ⟨fun _ => .error .missing, lookup, ""⟩
  match parse (lookup "ROLESCOPE_CONFIG") words with
  | .run ⟨command, settingsFile⟩ =>
    let paths := settingsPath empty settingsFile :: command.files
    let contents ← paths.mapM fun path => return (path, ← readFile path)
    let input ← if command.files.any isInput then (← IO.getStdin).readToEnd else pure ""
    return ⟨fun path => (contents.lookup path).getD (.error .missing), lookup, input⟩
  | _ => return empty

/-- Runs the program on the words of a command line. -/
def main (words : List String) : IO UInt32 := do
  let outcome := run (← readSurroundings words) words
  IO.print outcome.output
  IO.eprint outcome.report
  return UInt32.ofNat outcome.code
