import CallGuard.Json.StringLiteral

/-!
# Tokens of JSON

JSON text is a sequence of tokens with blanks between them. `Token.scan` splits a text into
tokens; where no token can be formed it ends the sequence with `invalid`, so that a reader of
tokens meets that fault only when it gets there. `Token.compact` writes tokens without
blanks, and `Token.indented` puts each member of an array or object on a line of its own.
-/

namespace CallGuard

namespace Json

/-- A token of JSON. -/
inductive Token where
  /-- The start of an object. -/
  | openBrace
  /-- The end of an object. -/
  | closeBrace
  /-- The start of an array. -/
  | openBracket
  /-- The end of an array. -/
  | closeBracket
  /-- The mark between members. -/
  | comma
  /-- The mark between a key and its value. -/
  | colon
  /-- The value `null`. -/
  | null
  /-- A truth value. -/
  | bool (value : Bool)
  /-- A number as it is written. -/
  | number (literal : List Char)
  /-- A string; without a text if its literal holds half of a surrogate pair alone. -/
  | string (text : Option String)
  /-- A place where no token can be formed. -/
  | invalid
  deriving DecidableEq

namespace Token

/-! ### Reading -/

/-- Whether a character separates tokens. -/
def isSpace (c : Char) : Bool :=
  c == ' ' || c == '\n' || c == '\t' || c == '\r'

/-- The digits at the start of a text and what follows them. -/
def spanDigits (text : List Char) : List Char × List Char :=
  (text.takeWhile Char.isDigit, text.dropWhile Char.isDigit)

/-- A sign at the start of a text, if it is one of those given, and what follows it. -/
def spanSign (signs : List Char) : List Char → List Char × List Char
  | c :: rest => if c ∈ signs then ([c], rest) else ([], c :: rest)
  | [] => ([], [])

/-- Whether digits form a whole number: at least one, and no leading zero. -/
def isWhole : List Char → Bool
  | [] => false
  | ['0'] => true
  | c :: _ => c != '0'

/-- The fraction at the start of a text, which may be missing, and what follows it. -/
def scanFraction : List Char → Option (List Char × List Char)
  | '.' :: text =>
    let (digits, rest) := spanDigits text
    if digits.isEmpty then none else some ('.' :: digits, rest)
  | text => some ([], text)

/-- The exponent at the start of a text, which may be missing, and what follows it. -/
def scanExponent : List Char → Option (List Char × List Char)
  | c :: text =>
    if c = 'e' ∨ c = 'E' then
      let (sign, text) := spanSign ['+', '-'] text
      let (digits, rest) := spanDigits text
      if digits.isEmpty then none else some (c :: (sign ++ digits), rest)
    else some ([], c :: text)
  | [] => some ([], [])

/-- The number at the start of a text and what follows it. -/
def scanNumber (text : List Char) : Option (List Char × List Char) :=
  let (sign, text) := spanSign ['-'] text
  let (whole, text) := spanDigits text
  if isWhole whole then
    match scanFraction text with
    | none => none
    | some (fraction, text) =>
      match scanExponent text with
      | none => none
      | some (exponent, rest) => some (sign ++ whole ++ fraction ++ exponent, rest)
  else none

/-- The token at the start of a text without leading blanks, and what follows it. -/
def next : List Char → Token × List Char
  | '{' :: rest => (.openBrace, rest)
  | '}' :: rest => (.closeBrace, rest)
  | '[' :: rest => (.openBracket, rest)
  | ']' :: rest => (.closeBracket, rest)
  | ',' :: rest => (.comma, rest)
  | ':' :: rest => (.colon, rest)
  | 'n' :: 'u' :: 'l' :: 'l' :: rest => (.null, rest)
  | 't' :: 'r' :: 'u' :: 'e' :: rest => (.bool true, rest)
  | 'f' :: 'a' :: 'l' :: 's' :: 'e' :: rest => (.bool false, rest)
  | '"' :: text =>
    match scanString text with
    | some (units, rest) => (.string (decode units), rest)
    | none => (.invalid, [])
  | text =>
    match scanNumber text with
    | some (literal, rest) => (.number literal, rest)
    | none => (.invalid, [])

/-- The tokens of a text, for a bound on their number, after the tokens `done`, latest
first. -/
def scanWithin (done : List Token) : (bound : Nat) → List Char → List Token
  | 0, _ => done.reverse
  | bound + 1, text =>
    match text.dropWhile isSpace with
    | [] => done.reverse
    | c :: text =>
      let (token, rest) := next (c :: text)
      scanWithin (token :: done) bound rest

/-- The tokens of a text. -/
def scan (text : List Char) : List Token :=
  scanWithin [] text.length text

/-! ### Writing -/

/-- A token as it is written. -/
def text : Token → List Char
  | .openBrace => ['{']
  | .closeBrace => ['}']
  | .openBracket => ['[']
  | .closeBracket => [']']
  | .comma => [',']
  | .colon => [':']
  | .null => ['n', 'u', 'l', 'l']
  | .bool true => ['t', 'r', 'u', 'e']
  | .bool false => ['f', 'a', 'l', 's', 'e']
  | .number literal => literal
  | .string text => '"' :: (encode (text.getD "") ++ ['"'])
  | .invalid => []

/-- Tokens without blanks between them. -/
def compact (tokens : List Token) : List Char :=
  tokens.flatMap text

/-- A new line at a level of indentation. -/
def newline (level : Nat) : List Char :=
  '\n' :: List.replicate (2 * level) ' '

/-- Tokens with each member of an array or object on a line of its own, indented by its
level. An array or object without members stays on its line. -/
def indented (level : Nat) : List Token → List Char
  | [] => []
  | .openBrace :: .closeBrace :: rest => '{' :: '}' :: indented level rest
  | .openBracket :: .closeBracket :: rest => '[' :: ']' :: indented level rest
  | .openBrace :: rest => '{' :: (newline (level + 1) ++ indented (level + 1) rest)
  | .openBracket :: rest => '[' :: (newline (level + 1) ++ indented (level + 1) rest)
  | .closeBrace :: rest => newline (level - 1) ++ '}' :: indented (level - 1) rest
  | .closeBracket :: rest => newline (level - 1) ++ ']' :: indented (level - 1) rest
  | .comma :: rest => ',' :: (newline level ++ indented level rest)
  | .colon :: rest => ':' :: ' ' :: indented level rest
  | token :: rest => token.text ++ indented level rest

/-- Members with commas between them. -/
def separated (members : List (List Token)) : List Token :=
  [Token.comma].intercalate members

/-- The tokens of an array. -/
def array (members : List (List Token)) : List Token :=
  .openBracket :: (separated members ++ [.closeBracket])

/-- The tokens of an object. -/
def object (members : List (String × List Token)) : List Token :=
  let written := members.map fun m => .string (some m.1) :: .colon :: m.2
  .openBrace :: (separated written ++ [.closeBrace])

end Token

end Json

end CallGuard
