import CallGuard.Deployment
import CallGuard.Text.Blank
import CallGuard.Toml.Document

/-!
# Settings

Three settings: whether alternations are factored, and what the address of a contract depends
on. They are read in layers: the standard settings, over them a file, over that the
environment. The account and the salt are kept as the text that was given; text that is not
hexadecimal or of the wrong length is refused, in the file before the environment is looked
at, and again at the end.
-/

namespace CallGuard

/-- The settings. -/
structure Settings where
  /-- Whether alternations are factored. -/
  pushDown : Bool
  /-- The account that creates contracts, as text. -/
  deployer : String
  /-- The salt of contracts, as text. -/
  salt : String
  deriving DecidableEq

/-- Why settings cannot be used. -/
inductive SettingsFault where
  /-- A file of settings exists and cannot be read. -/
  | unreadable (path reason : String)
  /-- A file is not a document, or a setting in it is of the wrong sort. -/
  | unparsable
  /-- The text of a setting is not hexadecimal. -/
  | notHex (field : String) (fault : Hex.Fault)
  /-- The text of a setting writes the wrong number of bytes. -/
  | wrongLength (field : String) (expected found : Nat)
  /-- The text of a flag is none of those that mean true or false. -/
  | notFlag (name value : String)
  deriving DecidableEq

/-- What is wrong with the value of a setting, in words. -/
def SettingsFault.detail : SettingsFault → String
  | .unreadable path reason => s!"{path}: {reason}"
  | .unparsable => "not a document of settings"
  | .notHex field fault => s!"{field} is not valid hex: {fault.message}"
  | .wrongLength field expected found => s!"{field} must be {expected} bytes, got {found}"
  | .notFlag name value => s!"{name} must be true, false, 1 or 0, got {Text.quoted value}"

/-- A fault in words. -/
def SettingsFault.message : SettingsFault → String
  | .unreadable path reason => s!"Failed to read config file at {path}: {reason}"
  | .unparsable => "Failed to parse config file"
  | fault => s!"Configuration validation failed: {fault.detail}"

namespace Settings

/-- The settings that hold where nothing else is said. -/
def standard : Settings where
  pushDown := true
  deployer := "0xce0042B868300000d44A59004Da54A005ffdcf9f"
  salt := Hex.encode (List.replicate 32 0)

/-- The bytes that a setting of `n` bytes writes. -/
def fixedHex (field : String) (n : Nat) (text : String) : Except SettingsFault (FixedBytes n) :=
  match Hex.decode text with
  | .error fault => .error (.notHex field fault)
  | .ok bytes =>
    match FixedBytes.ofBytes? bytes with
    | some fixed => .ok fixed
    | none => .error (.wrongLength field n bytes.length)

/-- The account that creates contracts. -/
def deployerBytes (s : Settings) : Except SettingsFault (FixedBytes 20) :=
  fixedHex "addressing.deployer" 20 s.deployer

/-- The salt of contracts. -/
def saltBytes (s : Settings) : Except SettingsFault Bytes32 :=
  fixedHex "addressing.salt" 32 s.salt

/-- What the address of a contract depends on; the account is looked at first. -/
def placement (s : Settings) : Except SettingsFault Placement := do
  let deployer ← s.deployerBytes
  let salt ← s.saltBytes
  .ok ⟨⟨deployer⟩, salt⟩

/-- Accepts settings whose account and salt can be used. -/
def validate (s : Settings) : Except SettingsFault Unit :=
  s.placement.map fun _ => ()

/-! ### The file -/

/-- A setting of a section: by its key in a table, by its position in an array. A moment is
taken for a section in which nothing is set. -/
def setting? (key : String) (position : Nat) : Toml.Node → Option (Option Toml.Node)
  | .table _ entries => some (Toml.Entries.get? entries key)
  | .array items => some items[position]?
  | .moment => some none
  | _ => none

/-- The truth value of a setting, if it is given. -/
def flag? (missing : Bool) : Option Toml.Node → Option Bool
  | none => some missing
  | some (.boolean value) => some value
  | some _ => none

/-- The text of a setting, if it is given. -/
def text? (missing : String) : Option Toml.Node → Option String
  | none => some missing
  | some (.string text) => some text
  | some _ => none

/-- The settings of a document; those that are missing are standard, and other keys are not
looked at. -/
def ofEntries (entries : Toml.Entries) : Option Settings := do
  let sectionOf (key : String) : Toml.Node :=
    (Toml.Entries.get? entries key).getD (.table .implied [])
  let normalize := sectionOf "normalize"
  let addressing := sectionOf "addressing"
  let pushDown ← (← setting? "push_down" 0 normalize) |> flag? standard.pushDown
  let deployer ← (← setting? "deployer" 0 addressing) |> text? standard.deployer
  let salt ← (← setting? "salt" 1 addressing) |> text? standard.salt
  some ⟨pushDown, deployer, salt⟩

/-- The settings that a file holds. -/
def ofFile (content : String) : Except SettingsFault Settings :=
  match (Toml.parse content).bind ofEntries with
  | none => .error .unparsable
  | some s => s.validate.map fun _ => s

/-- Settings as the content of a file. -/
def toml (s : Settings) : String :=
  let pushDown := if s.pushDown then "true" else "false"
  "[normalize]\npush_down = " ++ pushDown ++ "\n\n[addressing]\ndeployer = \"" ++ s.deployer ++
    "\"\nsalt = \"" ++ s.salt ++ "\"\n"

/-! ### The environment -/

/-- The text of a flag without blanks at its ends and in lowercase. -/
def plainFlag (text : String) : String :=
  String.ofList ((Text.trim text.toList).map Char.toLower)

/-- The truth value that the text of a flag stands for. -/
def parseFlag (name text : String) : Except SettingsFault Bool :=
  let plain := plainFlag text
  if plain = "true" ∨ plain = "1" then .ok true
  else if plain = "false" ∨ plain = "0" then .ok false
  else .error (.notFlag name plain)

/-- Settings with those in their place that the environment gives. -/
def override (lookup : String → Option String) (s : Settings) : Except SettingsFault Settings := do
  let pushDown ← match lookup "ROLESCOPE_PUSH_DOWN" with
    | some text => parseFlag "ROLESCOPE_PUSH_DOWN" text
    | none => .ok s.pushDown
  .ok { pushDown
        deployer := (lookup "ROLESCOPE_DEPLOYER").getD s.deployer
        salt := (lookup "ROLESCOPE_SALT").getD s.salt }

/-- The settings of a file, if there is one, and an environment. -/
def load (file : Option String) (lookup : String → Option String) :
    Except SettingsFault Settings := do
  let base ← match file with
    | some content => ofFile content
    | none => .ok standard
  let s ← base.override lookup
  s.validate
  .ok s

/-! ### Places -/

/-- A path with one more part. -/
def joinPath (path part : String) : String :=
  if path.isEmpty then part
  else if path.endsWith "/" then path ++ part
  else path ++ "/" ++ part

/-- The directory of settings below the home directory. -/
def directory (home : Option String) : String :=
  joinPath (home.getD "/tmp") ".rolescope"

/-- The file of settings that is read where no other is named. -/
def standardPath (home : Option String) : String :=
  joinPath (directory home) "config.toml"

end Settings

end CallGuard
