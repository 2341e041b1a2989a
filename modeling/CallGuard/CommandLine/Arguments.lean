/-!
# Arguments

The words of a command line are read from left to right, and the first that does not fit
decides the result. A command and its files are given by position; options may stand before
the command, those for all commands also after it. An option for all commands may be given
once on each side, and then the one after the command counts. A word `--` after the command
makes all words that follow it files.
-/

namespace CallGuard

namespace CommandLine

/-- What is to be done. -/
inductive Command where
  /-- Print a tree in normal form. -/
  | normalize (file : String) (withoutPushDown : Bool)
  /-- Print the id of a tree in normal form. -/
  | id (file : String)
  /-- Print the address of a tree in normal form and what it depends on. -/
  | address (file : String)
  /-- Check that a tree can be deployed. -/
  | check (file : String)
  /-- Print what a fragment leaves of a tree. -/
  | subtract (condition fragment : String)
  /-- Print alternatives as one tree in normal form. -/
  | merge (files : List String)
  /-- Say whether two trees have the same normal form. -/
  | diff (previous next : String)
  /-- Print the settings. -/
  | config
  deriving DecidableEq

/-- A command with the file of settings to use. -/
structure Invocation where
  /-- What is to be done. -/
  command : Command
  /-- The file of settings, if one is named. -/
  settingsFile : Option String
  deriving DecidableEq

/-- What a command line asks for. -/
inductive Request where
  /-- A command. -/
  | run (invocation : Invocation)
  /-- The version of the program. -/
  | version
  /-- A description of the program. -/
  | help
  /-- The command line is not understood. -/
  | misuse
  deriving DecidableEq

/-- The names of commands. -/
inductive Verb where
  /-- See `Command.normalize`. -/
  | normalize
  /-- See `Command.id`. -/
  | id
  /-- See `Command.address`. -/
  | address
  /-- See `Command.check`. -/
  | check
  /-- See `Command.subtract`. -/
  | subtract
  /-- See `Command.merge`. -/
  | merge
  /-- See `Command.diff`. -/
  | diff
  /-- See `Command.config`. -/
  | config
  deriving DecidableEq

namespace Verb

/-- The command that a word names. -/
def ofWord? : String → Option Verb
  | "normalize" => some .normalize
  | "id" => some .id
  | "address" => some .address
  | "check" => some .check
  | "subtract" => some .subtract
  | "merge" => some .merge
  | "diff" => some .diff
  | "config" => some .config
  | _ => none

/-- Whether a command takes more than a number of files. -/
def takesMore (verb : Verb) (files : Nat) : Bool :=
  match verb with
  | .normalize | .id | .address | .check => files < 1
  | .subtract | .diff => files < 2
  | .merge => true
  | .config => false

/-- The command with its files, if their number is right. -/
def command? (withoutPushDown : Bool) : Verb → List String → Option Command
  | .normalize, [file] => some (.normalize file withoutPushDown)
  | .id, [file] => some (.id file)
  | .address, [file] => some (.address file)
  | .check, [file] => some (.check file)
  | .subtract, [condition, fragment] => some (.subtract condition fragment)
  | .merge, file :: files => some (.merge (file :: files))
  | .diff, [previous, next] => some (.diff previous next)
  | .config, [] => some .config
  | _, _ => none

end Verb

/-- The options given on one side of the command. -/
structure Options where
  /-- Whether messages are to be detailed. -/
  verbose : Bool := false
  /-- The file of settings. -/
  settingsFile : Option String := none
  /-- Whether alternations are not to be factored. -/
  withoutPushDown : Bool := false

/-- An option by itself. -/
inductive Switch where
  /-- Asks for detailed messages. -/
  | verbose
  /-- Names the file of settings. -/
  | config
  /-- Asks not to factor alternations. -/
  | noPushDown
  /-- Asks for the version. -/
  | version
  /-- Asks for a description. -/
  | help

/-- The options that a side of the command admits: `none` stands for before it. -/
def switchOfLong? (verb : Option Verb) (name : String) : Option Switch :=
  match name, verb with
  | "verbose", _ => some .verbose
  | "config", _ => some .config
  | "help", _ => some .help
  | "version", none => some .version
  | "no-push-down", some .normalize => some .noPushDown
  | _, _ => none

/-- The options of one letter that a side of the command admits. -/
def switchOfShort? (verb : Option Verb) (letter : Char) : Option Switch :=
  match letter, verb with
  | 'v', _ => some .verbose
  | 'c', _ => some .config
  | 'h', _ => some .help
  | 'V', none => some .version
  | _, _ => none

/-- The effect of a word that is an option. -/
inductive Effect where
  /-- The options with it. -/
  | options (options : Options)
  /-- The options with it once the next word names the file of settings. -/
  | needsValue (options : Options)
  /-- It decides the request. -/
  | decided (request : Request)

/-- The options with the file of settings, which is named at most once and not empty. -/
def setFile (options : Options) (file : String) : Effect :=
  if options.settingsFile.isSome || file.isEmpty then .decided .misuse
  else .options { options with settingsFile := some file }

/-- The options with an option that takes no value, which is given at most once. -/
def setSwitch (options : Options) : Switch → Effect
  | .verbose =>
    if options.verbose then .decided .misuse else .options { options with verbose := true }
  | .noPushDown =>
    if options.withoutPushDown then .decided .misuse
    else .options { options with withoutPushDown := true }
  | .version => .decided .version
  | .help => .decided .help
  | .config => .needsValue options

/-- The options with an option in full, from after its two hyphens. -/
def readLong (verb : Option Verb) (options : Options) (word : List Char) : Effect :=
  let name := String.ofList (word.takeWhile (· != '='))
  match switchOfLong? verb name, word.dropWhile (· != '=') with
  | none, _ => .decided .misuse
  | some switch, [] => setSwitch options switch
  | some .config, _ :: value => setFile options (String.ofList value)
  | some _, _ :: _ => .decided .misuse

/-- The options with options of one letter each, from after their hyphen. The rest of the
word after a letter that takes a value is the value, a sign of equality before it left out. -/
def readShort (verb : Option Verb) (options : Options) : List Char → Effect
  | [] => .options options
  | letter :: rest =>
    match switchOfShort? verb letter, rest with
    | none, _ => .decided .misuse
    | some .config, [] => .needsValue options
    | some .config, '=' :: value => setFile options (String.ofList value)
    | some .config, value => setFile options (String.ofList value)
    | some switch, rest =>
      match setSwitch options switch with
      | .options options => readShort verb options rest
      | effect => effect

/-- The effect of a word, if it is an option. -/
def readOption? (verb : Option Verb) (options : Options) (word : String) : Option Effect :=
  match word.toList with
  | '-' :: '-' :: name => some (readLong verb options name)
  | ['-'] => none
  | '-' :: letters => some (readShort verb options letters)
  | _ => none

/-- Whether a word can be the value of an option. -/
def isValue (word : String) : Bool :=
  match word.toList with
  | '-' :: _ :: _ => false
  | [] => false
  | _ => true

/-- The words after a command. -/
structure Tail where
  /-- The options among them. -/
  options : Options
  /-- The files among them. -/
  files : List String

/-- One more file of a command. -/
def addFile (verb : Verb) (tail : Tail) (file : String) : Except Request Tail :=
  if verb.takesMore tail.files.length && !file.isEmpty then
    .ok { tail with files := tail.files ++ [file] }
  else .error .misuse

/-- The words after a command; those after `--` are files. -/
def readTail (verb : Verb) (tail : Tail) : List String → Except Request Tail
  | [] => .ok tail
  | "--" :: rest => rest.foldlM (addFile verb) tail
  | word :: rest =>
    match readOption? (some verb) tail.options word with
    | some (.decided request) => .error request
    | some (.options options) => readTail verb { tail with options } rest
    | some (.needsValue options) =>
      match rest with
      | value :: rest =>
        match isValue value, setFile options value with
        | true, .options options => readTail verb { tail with options } rest
        | _, _ => .error .misuse
      | [] => .error .misuse
    | none =>
      match addFile verb tail word with
      | .ok tail => readTail verb tail rest
      | .error request => .error request

/-- The request of a command with the options on both sides and the file of settings that
the surroundings name, which may not be empty where it is looked at. -/
def finish (verb : Verb) (before : Options) (tail : Tail) (standing : Option String) : Request :=
  match verb.command? tail.options.withoutPushDown tail.files with
  | none => .misuse
  | some command =>
    let bothSides := before.settingsFile.isSome && tail.options.settingsFile.isSome
    if standing = some "" && !bothSides then .misuse
    else .run ⟨command, tail.options.settingsFile.or (before.settingsFile.or standing)⟩

/-- The request of the words after `help`, which takes the name of one command or none. -/
def readHelp : List String → Request
  | [] => .help
  | [word] => if word = "help" ∨ (Verb.ofWord? word).isSome then .help else .misuse
  | _ => .misuse

/-- The request of the words from before the command on. -/
def readHead (standing : Option String) (options : Options) : List String → Request
  | [] => .misuse
  | word :: rest =>
    match Verb.ofWord? word, readOption? none options word with
    | some verb, _ =>
      match readTail verb ⟨{}, []⟩ rest with
      | .error request => request
      | .ok tail => finish verb options tail standing
    | none, some (.decided request) => request
    | none, some (.options options) => readHead standing options rest
    | none, some (.needsValue options) =>
      match rest with
      | value :: rest =>
        match isValue value, setFile options value with
        | true, .options options => readHead standing options rest
        | _, _ => .misuse
      | [] => .misuse
    | none, none => if word = "help" then readHelp rest else .misuse

/-- What the words of a command line ask for, where `standing` is the file of settings that
the surroundings name. -/
def parse (standing : Option String) (words : List String) : Request :=
  readHead standing {} words

end CommandLine

end CallGuard
