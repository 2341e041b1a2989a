import CallGuard.Draft
import CallGuard.Draft.Fault

/-!
# Drafts from JSON

A draft is read from JSON in one pass, and the first fault that is met is reported. A node is
an object with the fields `paramType`, `operator`, `compValue` and `children` in any order,
each at most once, of which the last two may be missing or `null`; or an array of the four
values in this order, of which the last two may be left out. Other fields are skipped
whatever they hold. A type or operator is its name, or an object with the name as its only
key and `null` as its value.

Arrays and objects are nested in each other at most `maxNesting` deep, those in skipped values
not counted. A fault in an array or object that is read is reported where its end is found if
that comes next, as for a field that is given twice.
-/

namespace CallGuard

namespace Draft

open Json

/-- The deepest nesting of arrays and objects. -/
def maxNesting : Nat := 127

/-! ### Values of the wrong sort -/

/-- A number in words. -/
def numberText : Number → String
  | .whole value => "integer " ++ backquoted (toString value)
  | number => "floating point " ++ backquoted (String.ofList number.text)

/-- A value in words, from its first token, and the place in that where it is reported. -/
def described? : Token → Option (String × Edge)
  | .null => some ("null", .stop)
  | .bool true => some ("boolean " ++ backquoted "true", .stop)
  | .bool false => some ("boolean " ++ backquoted "false", .stop)
  | .number literal => (Number.ofLiteral? literal).map fun number => (numberText number, .stop)
  | .string text => text.map fun text => ("string " ++ Text.quoted text, .stop)
  | .openBracket => some ("sequence", .start)
  | .openBrace => some ("map", .start)
  | _ => none

/-- The fault of a value where another sort of value is expected. -/
def mismatch (expected : String) (tokens : List Token) : Stop :=
  match tokens.head?.bind described? with
  | some (found, edge) => ⟨.invalidType found expected, tokens.length, edge, none⟩
  | none =>
    { Stop.unexpected .unfinishedValue .expectedValue tokens with attempt := some .value }

/-! ### Skipped values -/

/-- What a skipped value goes on with. -/
inductive Expectation where
  /-- A value. -/
  | value
  /-- A value, or the end of an array that has just started. -/
  | firstElement
  /-- A key. -/
  | key
  /-- A key, or the end of an object that has just started. -/
  | firstKey
  /-- The mark after a key. -/
  | mark
  /-- A comma, or the end of what encloses the value before. -/
  | separator

/-- What encloses a place in a skipped value. -/
inductive Enclosure where
  /-- An array. -/
  | array
  /-- An object. -/
  | object

/-- What follows a token in a skipped value: the enclosures, innermost first, and what to go
on with. -/
def step : List Enclosure → Expectation → Token → Option (List Enclosure × Expectation)
  | .array :: stack, .separator, .closeBracket => some (stack, .separator)
  | .array :: stack, .firstElement, .closeBracket => some (stack, .separator)
  | .object :: stack, .separator, .closeBrace => some (stack, .separator)
  | .object :: stack, .firstKey, .closeBrace => some (stack, .separator)
  | .array :: stack, .separator, .comma => some (.array :: stack, .value)
  | .object :: stack, .separator, .comma => some (.object :: stack, .key)
  | stack, .key, .string _ => some (stack, .mark)
  | stack, .firstKey, .string _ => some (stack, .mark)
  | stack, .mark, .colon => some (stack, .value)
  | stack, .value, token => begin stack token
  | stack, .firstElement, token => begin stack token
  | _, _, _ => none
where
  /-- What follows the first token of a value. -/
  begin (stack : List Enclosure) : Token → Option (List Enclosure × Expectation)
    | .openBracket => some (.array :: stack, .firstElement)
    | .openBrace => some (.object :: stack, .firstKey)
    | .null | .bool _ | .number _ | .string _ => some (stack, .separator)
    | _ => none

/-- The fault of a token that a skipped value does not go on with, or of its end. -/
def stray (stack : List Enclosure) : Expectation → List Token → Stop
  | .value, tokens =>
    { Stop.unexpected .unfinishedValue .expectedValue tokens with attempt := some .skippedValue }
  | .firstElement, tokens =>
    { Stop.unexpected .unfinishedArray .expectedValue tokens with attempt := some .skippedValue }
  | .key, tokens | .firstKey, tokens =>
    { Stop.unexpected .unfinishedObject .keyNotString tokens with attempt := some .skippedText }
  | .mark, tokens => .unexpected .unfinishedObject .expectedColon tokens
  | .separator, tokens =>
    match stack with
    | .object :: _ => .unexpected .unfinishedObject .expectedCommaOrBrace tokens
    | _ => .unexpected .unfinishedArray .expectedCommaOrBracket tokens

/-- The tokens that follow a value of any nesting. -/
def skipWithin : List Enclosure → Expectation → List Token → Except Stop (List Token)
  | [], .separator, tokens => .ok tokens
  | stack, expectation, token :: rest =>
    match step stack expectation token with
    | some (stack, expectation) => skipWithin stack expectation rest
    | none => .error (stray stack expectation (token :: rest))
  | stack, expectation, [] => .error (stray stack expectation [])

/-- The tokens that follow a value. -/
def skipValue (tokens : List Token) : Except Stop (List Token) :=
  skipWithin [] .value tokens

/-! ### Parts of arrays and objects -/

/-- The tokens after the colon that must come next. -/
def readColon : List Token → Except Stop (List Token)
  | .colon :: rest => .ok rest
  | tokens => .error (.unexpected .unfinishedObject .expectedColon tokens)

/-- The fault of a key that is not a string. -/
def badKey (tokens : List Token) : Stop :=
  { Stop.unexpected .unfinishedValue .keyNotString tokens with attempt := some .text }

/-- Whether another element of an array follows, and the tokens after the comma or the end of the
array. -/
def nextElement : List Token → Except Stop (Bool × List Token)
  | .closeBracket :: rest => .ok (false, rest)
  | .comma :: .closeBracket :: rest =>
    .error (.unexpected .trailingComma .trailingComma (.closeBracket :: rest))
  | .comma :: rest => .ok (true, rest)
  | tokens => .error (.unexpected .unfinishedArray .expectedCommaOrBracket tokens)

/-- The tokens after the end of an array of which all elements have been read. -/
def endArray : List Token → Except Stop (List Token)
  | .closeBracket :: rest => .ok rest
  | .comma :: .closeBracket :: rest =>
    .error (.unexpected .trailingComma .trailingComma (.closeBracket :: rest))
  | .comma :: rest => .error (.unexpected .trailingText .trailingText rest)
  | tokens => .error (.unexpected .unfinishedArray .trailingText tokens)

/-! ### Fields -/

/-- A value by its name. -/
def named {α : Type} (ofName? : String → Option α) (known : List String) (name : String) :
    Except ReadFault α :=
  match ofName? name with
  | some value => .ok value
  | none => .error (.unknownVariant name known)

/-- A value by its name, which has been read before the tokens that are given. -/
def readName {α : Type} (ofName? : String → Option α) (known : List String) (name : String)
    (rest : List Token) : Except Stop α :=
  (named ofName? known name).mapError fun fault => .after fault rest

/-- A value given by its name, or as an object with the name as its key. -/
def readNamed {α : Type} (ofName? : String → Option α) (known : List String) (nesting : Nat) :
    List Token → Except Stop (α × List Token)
  | .string (some name) :: rest => do
    let value ← readName ofName? known name rest
    .ok (value, rest)
  | .openBrace :: rest =>
    match nesting, rest with
    | 0, rest => .error (.tooDeep (rest.length + 1))
    | _ + 1, .string (some name) :: rest => do
      let value ← readName ofName? known name rest
      match ← readColon rest with
      | .null :: .closeBrace :: rest => .ok (value, rest)
      | .null :: rest =>
        .error { Stop.unexpected .unfinishedObject .expectedValue rest with edge := .start }
      | rest => .error (mismatch "unit" rest)
    | _ + 1, rest => .error (badKey rest)
  | tokens =>
    .error { Stop.unexpected .unfinishedValue .expectedValue tokens with attempt := some .text }

/-- A parameter type. -/
def readParamType (nesting : Nat) (tokens : List Token) :
    Except Stop (ParamType × List Token) :=
  readNamed ParamType.ofName? (ParamType.all.map ParamType.name) nesting tokens

/-- An operator. -/
def readOperator (nesting : Nat) (tokens : List Token) :
    Except Stop (Operator × List Token) :=
  readNamed Operator.ofName? (Operator.all.map Operator.name) nesting tokens

/-- An operand, which may be `null`. -/
def readCompValue : List Token → Except Stop (Option String × List Token)
  | .null :: rest => .ok (none, rest)
  | .string (some text) :: rest => .ok (some text, rest)
  | tokens => .error (mismatch "a string" tokens)

/-- The fields of a node read so far. -/
structure Fields where
  /-- The type, once it is given. -/
  paramType : Option ParamType := none
  /-- The operator, once it is given. -/
  operator : Option Operator := none
  /-- The operand, once it is given. -/
  compValue : Option (Option String) := none
  /-- The children, once they are given. -/
  children : Option (Option (List Draft)) := none

/-- The draft with the given fields. -/
def Fields.draft (fields : Fields) : Except ReadFault Draft :=
  match fields.paramType, fields.operator with
  | none, _ => .error (.missingField "paramType")
  | some _, none => .error (.missingField "operator")
  | some paramType, some operator =>
    .ok ⟨paramType, operator, fields.compValue.join, fields.children.join⟩

/-- The draft with the given fields, after the end of its object. -/
def endNode (fields : Fields) (rest : List Token) : Except Stop (Draft × List Token) :=
  match fields.draft with
  | .ok draft => .ok (draft, rest)
  | .error fault => .error (.after fault rest)

/-- The fault of a key that is given twice, before the tokens that are given. -/
def twice (name : String) : List Token → Stop
  | .closeBrace :: rest => .after (.duplicateField name) rest
  | tokens => ⟨.duplicateField name, tokens.length, .start, none⟩

/-! ### Nodes

Each function below takes a bound on the number of steps, which the number of tokens gives,
and the nesting that is still allowed. -/

mutual

/-- A node. -/
def readNode : (bound nesting : Nat) → List Token → Except Stop (Draft × List Token)
  | _ + 1, _ + 1, .openBrace :: .closeBrace :: rest => endNode {} rest
  | _ + 1, _ + 1, [.openBrace] =>
    .error (.unexpected .unfinishedObject .unfinishedObject [])
  | bound + 1, nesting + 1, .openBrace :: rest => readField bound nesting {} rest
  | bound + 1, nesting + 1, .openBracket :: rest => readTuple bound nesting rest
  | _, 0, .openBrace :: rest => .error (.tooDeep (rest.length + 1))
  | _, 0, .openBracket :: rest => .error (.tooDeep (rest.length + 1))
  | _, _, tokens => .error (mismatch "struct RawCondition" tokens)

/-- The fields from a key on. -/
def readField : (bound nesting : Nat) → Fields → List Token → Except Stop (Draft × List Token)
  | bound + 1, nesting, fields, .string (some "paramType") :: rest =>
    if fields.paramType.isSome then .error (twice "paramType" rest)
    else do
      let rest ← readColon rest
      let (value, rest) ← readParamType nesting rest
      readMore bound nesting { fields with paramType := some value } rest
  | bound + 1, nesting, fields, .string (some "operator") :: rest =>
    if fields.operator.isSome then .error (twice "operator" rest)
    else do
      let rest ← readColon rest
      let (value, rest) ← readOperator nesting rest
      readMore bound nesting { fields with operator := some value } rest
  | bound + 1, nesting, fields, .string (some "compValue") :: rest =>
    if fields.compValue.isSome then .error (twice "compValue" rest)
    else do
      let rest ← readColon rest
      let (value, rest) ← readCompValue rest
      readMore bound nesting { fields with compValue := some value } rest
  | bound + 1, nesting, fields, .string (some "children") :: rest =>
    if fields.children.isSome then .error (twice "children" rest)
    else do
      let rest ← readColon rest
      let (value, rest) ← readChildren bound nesting rest
      readMore bound nesting { fields with children := some value } rest
  | bound + 1, nesting, fields, .string (some _) :: rest => do
    let rest ← readColon rest
    let rest ← skipValue rest
    readMore bound nesting fields rest
  | _, _, _, .closeBrace :: rest =>
    .error (.unexpected .trailingComma .trailingComma (.closeBrace :: rest))
  | _, _, _, tokens => .error (badKey tokens)

/-- The fields after a value. -/
def readMore : (bound nesting : Nat) → Fields → List Token → Except Stop (Draft × List Token)
  | bound + 1, nesting, fields, .comma :: rest => readField bound nesting fields rest
  | _, _, fields, .closeBrace :: rest => endNode fields rest
  | _, _, _, tokens => .error (.unexpected .unfinishedObject .expectedCommaOrBrace tokens)

/-- Children, which may be `null`. -/
def readChildren : (bound nesting : Nat) → List Token →
    Except Stop (Option (List Draft) × List Token)
  | _, _, .null :: rest => .ok (none, rest)
  | _, _ + 1, .openBracket :: .closeBracket :: rest => .ok (some [], rest)
  | _, _ + 1, [.openBracket] => .error (.unexpected .unfinishedArray .unfinishedArray [])
  | bound + 1, nesting + 1, .openBracket :: rest => do
    let (drafts, rest) ← readElements bound nesting rest
    .ok (some drafts, rest)
  | _, 0, .openBracket :: rest => .error (.tooDeep (rest.length + 1))
  | _, _, tokens => .error (mismatch "a sequence" tokens)

/-- The nodes of an array from one on. -/
def readElements : (bound nesting : Nat) → List Token → Except Stop (List Draft × List Token)
  | bound + 1, nesting, tokens => do
    let (draft, rest) ← readNode bound nesting tokens
    match ← nextElement rest with
    | (true, rest) =>
      let (drafts, rest) ← readElements bound nesting rest
      .ok (draft :: drafts, rest)
    | (false, rest) => .ok ([draft], rest)
  | 0, _, tokens => .error (mismatch "struct RawCondition" tokens)

/-- A node given as an array of its values. -/
def readTuple : (bound nesting : Nat) → List Token → Except Stop (Draft × List Token)
  | _, _, [] => .error (.unexpected .unfinishedArray .unfinishedArray [])
  | _, _, .closeBracket :: rest => .error (.after (.invalidLength 0) rest)
  | bound + 1, nesting, tokens => do
    let (paramType, rest) ← readParamType nesting tokens
    match ← nextElement rest with
    | (false, rest) => .error (.after (.invalidLength 1) rest)
    | (true, rest) =>
      let (operator, rest) ← readOperator nesting rest
      match ← nextElement rest with
      | (false, rest) => .ok (⟨paramType, operator, none, none⟩, rest)
      | (true, rest) =>
        let (compValue, rest) ← readCompValue rest
        match ← nextElement rest with
        | (false, rest) => .ok (⟨paramType, operator, compValue, none⟩, rest)
        | (true, rest) =>
          let (children, rest) ← readChildren bound nesting rest
          let rest ← endArray rest
          .ok (⟨paramType, operator, compValue, children⟩, rest)
  | 0, _, tokens => .error (mismatch "struct RawCondition" tokens)

end

/-- The draft at the start of some tokens. -/
def read (tokens : List Token) : Except Stop (Draft × List Token) :=
  readNode (tokens.length + 1) maxNesting tokens

/-- What is read from a text ends it. -/
def endText {α : Type} : α × List Token → Except Stop α
  | (value, []) => .ok value
  | (_, rest) => .error (.unexpected .trailingText .trailingText rest)

/-- The draft that a text holds, with nothing after it. -/
def parse (text : String) : Except ReadError Draft :=
  (read (Token.scan text.toList) >>= endText).mapError (Stop.locate text.toList)

end Draft

/-- The tree that a text holds, with nothing after it. The draft is checked as soon as it is
read, and what is wrong with the tree has no place in the text. -/
def Condition.parse (text : String) : Except Draft.ReadError Condition := do
  let located := Draft.Stop.locate text.toList
  let (draft, rest) ← (Draft.read (Json.Token.scan text.toList)).mapError located
  match draft.toCondition with
  | .error error => .error ⟨.invalidTree error, none⟩
  | .ok condition => (Draft.endText (condition, rest)).mapError located

end CallGuard
