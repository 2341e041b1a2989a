import CallGuard.Error
import CallGuard.Json.Fault

/-!
# Faults of drafts

Why a text is not a draft. Text that is not JSON, or not of a form that is read at all, is
`malformed`; all other faults concern values of the wrong sort. A fault is found among the
tokens of a text (`Stop`), and its line and column are found from there by going through the
text once more (`Stop.locate`).
-/

namespace CallGuard

namespace Draft

open Json

/-- Why a text is not a draft. -/
inductive ReadFault where
  /-- The text is not well-formed. -/
  | malformed (fault : SyntaxFault)
  /-- A field that a node must have is missing. -/
  | missingField (name : String)
  /-- A field is given twice. -/
  | duplicateField (name : String)
  /-- A name is not one of those known. -/
  | unknownVariant (name : String) (known : List String)
  /-- A value is of the wrong sort. -/
  | invalidType (found expected : String)
  /-- An array that should be a node has too few elements. -/
  | invalidLength (length : Nat)
  /-- The draft was read and is not a well-formed tree. -/
  | invalidTree (error : Error)
  deriving DecidableEq

/-- A name between backquotes. -/
def backquoted (name : String) : String :=
  "\x60" ++ name ++ "\x60"

/-- A fault in words. -/
def ReadFault.message : ReadFault → String
  | .malformed fault => fault.message
  | .missingField name => s!"missing field {backquoted name}"
  | .duplicateField name => s!"duplicate field {backquoted name}"
  | .unknownVariant name known =>
    let expected := ", ".intercalate (known.map backquoted)
    s!"unknown variant {backquoted name}, expected one of {expected}"
  | .invalidType found expected => s!"invalid type: {found}, expected {expected}"
  | .invalidLength length =>
    s!"invalid length {length}, expected struct RawCondition with 4 elements"
  | .invalidTree error => error.message

/-- A fault, and its place in the text if it has one. -/
structure ReadError where
  /-- What is wrong. -/
  fault : ReadFault
  /-- The place. -/
  position : Option Position
  deriving DecidableEq

/-- A fault in words, with its place. -/
def ReadError.message : ReadError → String
  | ⟨fault, none⟩ => fault.message
  | ⟨fault, some p⟩ => s!"{fault.message} at line {p.line} column {p.column}"

/-! ### Places among tokens -/

/-- The place of a fault in the token that it is found at. -/
inductive Edge where
  /-- Before the token. -/
  | start
  /-- After its first byte, or at the end of the text. -/
  | first
  /-- After the token. -/
  | stop

/-- The bytes that are left at a place in the token that a text starts with. -/
def Edge.left (text : List Char) : Edge → Nat
  | .start => size text
  | .first => size text - 1
  | .stop => size (Token.next text).2

/-- How the characters of a token are read. -/
inductive Attempt where
  /-- As those of a string. -/
  | text
  /-- As those of a value. -/
  | value
  /-- As those of a string that is skipped. -/
  | skippedText
  /-- As those of a value that is skipped. -/
  | skippedValue

/-- The flaw of the token that a text starts with, if it is read in some way. -/
def Attempt.flaw? (text : List Char) : Attempt → Option Flaw
  | .text => textFlaw? false text
  | .value => valueFlaw? false text
  | .skippedText => textFlaw? true text
  | .skippedValue => valueFlaw? true text

/-- A fault that is found among tokens. -/
structure Stop where
  /-- What is wrong. -/
  fault : ReadFault
  /-- The number of tokens from the one on that it is found at. -/
  left : Nat
  /-- The place in that token. -/
  edge : Edge := .first
  /-- How that token is read, if it is. A flaw of its characters is met first. -/
  attempt : Option Attempt := none

namespace Stop

/-- A fault at the first of some tokens, or a fault if there is none. -/
def unexpected (ended other : SyntaxFault) (tokens : List Token) : Stop where
  fault := .malformed (if tokens.isEmpty then ended else other)
  left := tokens.length

/-- The fault of arrays and objects that are nested too deep, where some tokens are left. -/
def tooDeep (left : Nat) : Stop where
  fault := .malformed .tooDeep
  left := left

/-- A fault that is found when the first of some tokens, of which the rest is given, has been
read. -/
def after (fault : ReadFault) (rest : List Token) : Stop where
  fault := fault
  left := rest.length + 1
  edge := .stop

/-- A fault with its line and column in the text. -/
def locate (text : List Char) (s : Stop) : ReadError :=
  let rest := Token.dropFrom text ((Token.scan text).length - s.left)
  match s.attempt.bind (Attempt.flaw? rest) with
  | some flaw => ⟨.malformed flaw.fault, some (.ofLeft text flaw.left)⟩
  | none => ⟨s.fault, some (.ofLeft text (s.edge.left rest))⟩

end Stop

end Draft

end CallGuard
