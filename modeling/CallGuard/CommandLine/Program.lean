import CallGuard.Canonical.NormalForm
import CallGuard.CommandLine.Arguments
import CallGuard.Condition.Integrity
import CallGuard.Draft.Printer
import CallGuard.Draft.Reader
import CallGuard.Settings
import CallGuard.Subtraction

/-!
# The program

What the program prints and how it ends, as a function of its arguments and its
surroundings: files, the environment, and the text on standard input, which the file name
`-` stands for and which can be read once.

The settings are read before anything else. An error is reported on the error output and
ends the program with code 1; only the command `check` reports what is wrong with a file as
its result. A command line that is not understood ends it with code 2.
-/

namespace CallGuard

namespace CommandLine

/-- Why a file cannot be read. -/
inductive FileFault where
  /-- There is no such file. -/
  | missing
  /-- A part of the path that should be a directory is a file. -/
  | notDirectory
  /-- The path is that of a directory. -/
  | isDirectory
  /-- A part of the path, or all of it, is longer than the system allows. -/
  | nameTooLong
  deriving DecidableEq

/-- A fault in the words of the system. -/
def FileFault.message : FileFault → String
  | .missing => "No such file or directory (os error 2)"
  | .notDirectory => "Not a directory (os error 20)"
  | .isDirectory => "Is a directory (os error 21)"
  | .nameTooLong => "File name too long (os error 36)"

/-- What surrounds a run of the program. -/
structure Surroundings where
  /-- The content of a file. -/
  read : String → Except FileFault String
  /-- The value of an environment variable. -/
  lookup : String → Option String
  /-- The text on standard input. -/
  input : String

/-- How a run ends. -/
structure Outcome where
  /-- The exit code. -/
  code : Nat
  /-- What is printed. -/
  output : String
  /-- What is reported as an error. -/
  report : String
  deriving DecidableEq

/-- Why a command fails. -/
inductive Failure where
  /-- A file cannot be used. -/
  | file (message : String)
  /-- A tree has no encoding. -/
  | tree (error : Error)
  /-- The settings cannot be used. -/
  | settings (fault : SettingsFault)
  /-- The work on a tree is cut short. -/
  | cut

/-- An error as it is reported: its cause by name, and the particulars in quotes. -/
def errorReport : Error → String
  | .encoding fault => "Encoding(" ++ Text.quoted fault.message ++ ")"
  | error => Text.quoted error.message

/-- A fault of settings as it is reported. -/
def settingsReport : SettingsFault → String
  | .unreadable path reason =>
    "ReadError \x7b path: " ++ Text.quotedPath path ++ ", reason: " ++ Text.quoted reason ++ " \x7d"
  | .unparsable => "ParseError"
  | fault => "ValidationError(" ++ Text.quoted fault.detail ++ ")"

/-- A failure as it is reported. -/
def Failure.report : Failure → String
  | .file message => Text.quoted message
  | .tree error => errorReport error
  | .settings fault => settingsReport fault
  | .cut => "cut short"

/-! ### Reading -/

/-- Whether the path of a file is there. -/
def Surroundings.has (s : Surroundings) (path : String) : Bool :=
  match s.read path with
  | .ok _ => true
  | .error fault => fault = .isDirectory

/-- The path of the settings: the one that is named, or the standard one. -/
def settingsPath (s : Surroundings) (named : Option String) : String :=
  named.getD (Settings.standardPath (s.lookup "HOME"))

/-- The settings that hold for a run. -/
def loadSettings (s : Surroundings) (named : Option String) : Except SettingsFault Settings :=
  let path := settingsPath s named
  match s.has path, s.read path with
  | false, _ => Settings.load none s.lookup
  | true, .ok content => Settings.load (some content) s.lookup
  | true, .error fault => .error (.unreadable path fault.message)

/-- The tree that the text of a file holds, or what is wrong with it in words. -/
def parseTree (text : String) : Except String Condition :=
  match Draft.parse text with
  | .error error => .error ("Serialization error: " ++ error.message)
  | .ok draft => (Condition.ofDraft draft).mapError Error.message

/-- Whether a path stands for standard input: the name `-`, after which there may be slashes
and the names of the directory itself. -/
def isInput (path : String) : Bool :=
  match path.splitOn "/" with
  | "-" :: parts => parts.all fun part => part = "" || part = "."
  | _ => false

/-- The text of a file. -/
def readText (s : Surroundings) (path : String) : Except String String :=
  if isInput path then .ok s.input
  else (s.read path).mapError fun fault => s!"Failed to read {path}: {fault.message}"

/-- The tree in a file, or what is wrong in words. -/
def loadTree (s : Surroundings) (path : String) : Except String Condition :=
  match readText s path with
  | .error message => .error message
  | .ok text => (parseTree text).mapError fun message => s!"{path}: {message}"

/-- The surroundings after a file has been read. -/
def Surroundings.after (s : Surroundings) (path : String) : Surroundings :=
  if isInput path then { s with input := "" } else s

/-- The trees in files, which are read in order. -/
def loadTrees (s : Surroundings) : List String → Except Failure (List Condition)
  | [] => .ok []
  | path :: paths => do
    let c ← (loadTree s path).mapError .file
    let cs ← loadTrees (s.after path) paths
    .ok (c :: cs)

/-! ### Commands -/

/-- Lines, each with its end. -/
def lines (ls : List String) : String :=
  String.join (ls.map (· ++ "\n"))

/-- The placement of contracts by some settings. -/
def placementOf (settings : Settings) : Except Failure Placement :=
  settings.placement.mapError .settings

/-- The result of a run. -/
def completed {α : Type} (r : Run α) : Except Failure α :=
  match r.run with
  | some result => result.mapError .tree
  | none => .error .cut

/-- The address of a tree and what it depends on. -/
def addressLines (settings : Settings) (c : Condition) : Except Failure String := do
  let canonical ← completed (c.normalize settings.pushDown)
  let placement ← placementOf settings
  let packed ← canonical.pack.mapError .tree
  let code ← (initCode packed).mapError .tree
  .ok (lines [
    s!"Condition:  {canonical.summary}",
    s!"  Nodes:    {canonical.nodeCount}",
    s!"  Packed:   {packed.length} bytes",
    s!"  Id:       {canonical.id.text}",
    s!"  Deployer: {placement.deployer.text}",
    s!"  Salt:     {Hex.encode placement.salt.bytes}",
    s!"  Address:  {(contractAddress placement code).text}"])

/-- What a fragment leaves of a tree, both brought into normal form first. -/
def subtractLines (settings : Settings) (c fragment : Condition) : Except Failure String := do
  let c ← completed (c.normalize settings.pushDown)
  let fragment ← completed (fragment.normalize settings.pushDown)
  match ← completed (c.subtract fragment) with
  | .remainder rest =>
    let canonical ← completed (rest.normalize settings.pushDown)
    .ok (lines [canonical.prettyJson])
  | outcome => .ok (lines [outcome.name])

/-- Whether two trees have the same normal form, and the address of the second if not. -/
def diffLines (settings : Settings) (previous next : Condition) : Except Failure String := do
  let placement ← placementOf settings
  let previous ← completed (previous.normalize settings.pushDown)
  let next ← completed (next.normalize settings.pushDown)
  if previous.id = next.id then
    .ok (lines ["✅ Equivalent, no write needed", s!"   Id: {next.id.text}"])
  else do
    let address ← (next.address placement).mapError .tree
    .ok (lines [
      "⚠️  Condition changed, write needed",
      s!"   Prev:    {previous.id.text}",
      s!"   Next:    {next.id.text}",
      s!"   Address: {address.text}"])

/-- The settings and the path that they come from. -/
def configLines (s : Surroundings) (settings : Settings) (named : Option String) : String :=
  let path := settingsPath s named
  let note := if s.has path then "" else " (not found, defaults)"
  lines [s!"# {path}{note}"] ++ settings.toml

/-- What a command prints, apart from `check`. -/
def perform (s : Surroundings) (settings : Settings) (named : Option String) (command : Command) :
    Except Failure String := do
  let one (file : String) : Except Failure Condition := (loadTree s file).mapError .file
  match command with
  | .normalize file withoutPushDown =>
    let c ← one file
    let canonical ← completed (c.normalize (settings.pushDown && !withoutPushDown))
    .ok (lines [canonical.prettyJson])
  | .id file =>
    let c ← one file
    let canonical ← completed (c.normalize settings.pushDown)
    .ok (lines [canonical.id.text])
  | .address file =>
    let c ← one file
    addressLines settings c
  | .subtract condition fragment =>
    match ← loadTrees s [condition, fragment] with
    | [c, f] => subtractLines settings c f
    | _ => .ok ""
  | .merge files =>
    let variants ← loadTrees s files
    let merged ← completed (Condition.merge settings.pushDown variants)
    .ok (lines [merged.prettyJson])
  | .diff previous next =>
    match ← loadTrees s [previous, next] with
    | [p, n] => diffLines settings p n
    | _ => .ok ""
  | .config => .ok (configLines s settings named)
  | .check _ => .ok ""

/-- The check of a file, line by line. -/
def performCheck (s : Surroundings) (file : String) : Outcome :=
  let start := s!"🔍 Checking {file}..."
  match loadTree s file with
  | .error message => ⟨1, lines [start, s!"   ❌ {message}"], ""⟩
  | .ok c =>
    let formed := s!"   ✅ Well-formed ({c.nodeCount} nodes)"
    match c.checkIntegrity with
    | .error error => ⟨1, lines [start, formed, s!"   ❌ {error.message}"], ""⟩
    | .ok () => ⟨0, lines [start, formed, "   ✅ Integrity checks passed"], ""⟩

/-- A failure as the end of a run. -/
def Failure.outcome (failure : Failure) : Outcome :=
  ⟨1, "", lines ["Error: " ++ failure.report]⟩

/-- The run of a command. -/
def runCommand (s : Surroundings) (invocation : Invocation) : Outcome :=
  match loadSettings s invocation.settingsFile with
  | .error fault => (Failure.settings fault).outcome
  | .ok settings =>
    match invocation.command with
    | .check file => performCheck s file
    | command =>
      match perform s settings invocation.settingsFile command with
      | .error failure => failure.outcome
      | .ok output => ⟨0, output, ""⟩

/-- The description of the program. -/
def usage : String :=
  lines ["Usage: rolescope [OPTIONS] <COMMAND>"]

/-- The run of the program on the words of a command line. -/
def run (s : Surroundings) (words : List String) : Outcome :=
  match parse (s.lookup "ROLESCOPE_CONFIG") words with
  | .run invocation => runCommand s invocation
  | .version => ⟨0, lines ["rolescope 0.1.0"], ""⟩
  | .help => ⟨0, usage, ""⟩
  | .misuse => ⟨2, "", usage⟩

/-- The files that a command reads. -/
def Command.files : Command → List String
  | .normalize file _ | .id file | .address file | .check file => [file]
  | .subtract condition fragment => [condition, fragment]
  | .merge files => files
  | .diff previous next => [previous, next]
  | .config => []

end CommandLine

end CallGuard
