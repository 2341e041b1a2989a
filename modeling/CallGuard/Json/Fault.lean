import CallGuard.Json.Number

/-!
# Faults of JSON text

What is wrong with a text that is not JSON, and where: at a line and a column, both counted from
the start of the text, the column in bytes. A place in a text is given by the number of bytes
that are left from it on.

The characters of a token are read from left to right, and the first one that does not belong to
it is reported. A value that is skipped is read less strictly: its numbers may be of any size,
and its strings may hold half of a surrogate pair alone.
-/

namespace CallGuard

namespace Json

/-- Why a text is not JSON. -/
inductive SyntaxFault where
  /-- The text ends in an array. -/
  | unfinishedArray
  /-- The text ends in an object. -/
  | unfinishedObject
  /-- The text ends in a string. -/
  | unfinishedString
  /-- The text ends in a value, or where one must come. -/
  | unfinishedValue
  /-- There is no colon after a key. -/
  | expectedColon
  /-- After an element comes neither another one nor the end of its array. -/
  | expectedCommaOrBracket
  /-- After a field comes neither another one nor the end of its object. -/
  | expectedCommaOrBrace
  /-- A word starts as one of those that are values and goes on otherwise. -/
  | expectedWord
  /-- There is no value where one must be. -/
  | expectedValue
  /-- A backslash in a string is not the start of an escape. -/
  | invalidEscape
  /-- A number is not written as one. -/
  | invalidNumber
  /-- A number is too large. -/
  | numberTooLarge
  /-- There is a control character in a string. -/
  | controlCharacter
  /-- A key is not a string. -/
  | keyNotString
  /-- There is half of a surrogate pair alone. -/
  | loneSurrogate
  /-- The first half of a surrogate pair is not followed by an escape. -/
  | unpairedSurrogate
  /-- There is a comma before the end of an array or object. -/
  | trailingComma
  /-- There is something after the value. -/
  | trailingText
  /-- Arrays and objects are nested too deep. -/
  | tooDeep
  deriving DecidableEq

/-- A fault in words. -/
def SyntaxFault.message : SyntaxFault → String
  | .unfinishedArray => "EOF while parsing a list"
  | .unfinishedObject => "EOF while parsing an object"
  | .unfinishedString => "EOF while parsing a string"
  | .unfinishedValue => "EOF while parsing a value"
  | .expectedColon => "expected \x60:\x60"
  | .expectedCommaOrBracket => "expected \x60,\x60 or \x60]\x60"
  | .expectedCommaOrBrace => "expected \x60,\x60 or \x60\x7d\x60"
  | .expectedWord => "expected ident"
  | .expectedValue => "expected value"
  | .invalidEscape => "invalid escape"
  | .invalidNumber => "invalid number"
  | .numberTooLarge => "number out of range"
  | .controlCharacter => "control character (\\u0000-\\u001F) found while parsing a string"
  | .keyNotString => "key must be a string"
  | .loneSurrogate => "lone leading surrogate in hex escape"
  | .unpairedSurrogate => "unexpected end of hex escape"
  | .trailingComma => "trailing comma"
  | .trailingText => "trailing characters"
  | .tooDeep => "recursion limit exceeded"

/-! ### Places -/

/-- The number of bytes of a text. -/
def size (text : List Char) : Nat :=
  text.foldl (fun bytes c => bytes + c.utf8Size) 0

/-- A place in a text: its line, from 1 on, and the number of bytes before it in the line. -/
structure Position where
  /-- The line. -/
  line : Nat
  /-- The bytes before it in the line. -/
  column : Nat
  deriving DecidableEq

namespace Position

/-- The position that many bytes further on in a text, or at its end. -/
def advance (p : Position) : (bytes : Nat) → List Char → Position
  | 0, _ => p
  | _, [] => p
  | bytes + 1, c :: rest =>
    if c = '\n' then advance ⟨p.line + 1, 0⟩ bytes rest
    else advance ⟨p.line, p.column + min (bytes + 1) c.utf8Size⟩ (bytes + 1 - c.utf8Size) rest

/-- The position in a text where some bytes are left. -/
def ofLeft (text : List Char) (left : Nat) : Position :=
  advance ⟨1, 0⟩ (size text - left) text

end Position

/-- A fault in a text, and the number of bytes that are left where it is found. -/
structure Flaw where
  /-- What is wrong. -/
  fault : SyntaxFault
  /-- The bytes that are left. -/
  left : Nat

/-! ### Words and numbers -/

/-- The flaw of a text that should start with the rest of a word. -/
def wordFlaw? : (word : List Char) → List Char → Option Flaw
  | [], _ => none
  | _ :: _, [] => some ⟨.unfinishedValue, 0⟩
  | w :: word, c :: text =>
    if c = w then wordFlaw? word text else some ⟨.expectedWord, size (c :: text) - 1⟩

/-- The flaw of a text that should start with a digit. -/
def digitFlaw (skipped : Bool) (text : List Char) : Flaw :=
  if text.isEmpty && !skipped then ⟨.unfinishedValue, 0⟩ else ⟨.invalidNumber, size text - 1⟩

/-- The greatest exponent that is told from greater ones. -/
def maxExponent : Nat := 2147483647

/-- What follows the digits of an exponent, up to the one that makes it too great. -/
def afterExponent (exponent : Nat) : List Char → List Char
  | [] => []
  | c :: rest =>
    if c.isDigit then
      let longer := 10 * exponent + (Text.hexValue? c).getD 0
      if longer ≤ maxExponent then afterExponent longer rest else rest
    else c :: rest

/-- The flaw of a number. -/
def numberFlaw? (skipped : Bool) (text : List Char) : Option Flaw :=
  let (_, unsigned) := Token.spanSign ['-'] text
  let (whole, rest) := Token.spanDigits unsigned
  if whole.isEmpty then some (digitFlaw skipped unsigned)
  else if !Token.isWhole whole then some ⟨.invalidNumber, size unsigned - 2⟩
  else
    match Token.scanFraction rest with
    | none => some (digitFlaw skipped (rest.drop 1))
    | some (_, rest) =>
      let digits := (Token.spanSign ['+', '-'] (rest.drop 1)).2
      match Token.scanExponent rest, Token.scanNumber text with
      | some (exponent, rest), some (literal, _) =>
        if skipped || (Number.ofLiteral? literal).isSome then none
        else if exponent.isEmpty then some ⟨.numberTooLarge, size rest⟩
        else some ⟨.numberTooLarge, size (afterExponent 0 digits)⟩
      | _, _ => some (digitFlaw skipped digits)

/-! ### Strings -/

/-- The flaw of the digits of an escape: there are too few of them, or not all are digits. -/
def escapeFlaw (text : List Char) : Flaw :=
  if size text < 4 then ⟨.unfinishedString, 0⟩ else ⟨.invalidEscape, size text - 4⟩

/-- The flaw of a string, from after its opening quote on; `paired` says whether the second half
of a surrogate pair must come next. -/
def stringFlaw? (skipped : Bool) : (paired : Bool) → List Char → Option Flaw
  | _, [] => some ⟨.unfinishedString, 0⟩
  | _, ['\\'] => some ⟨.unfinishedString, 0⟩
  | paired, '\\' :: 'u' :: a :: b :: c :: d :: rest =>
    match unitOfDigits? a b c d with
    | none => some (escapeFlaw (a :: b :: c :: d :: rest))
    | some unit =>
      if skipped then stringFlaw? skipped false rest
      else if paired != isLowSurrogate unit then some ⟨.loneSurrogate, size rest⟩
      else stringFlaw? skipped (isHighSurrogate unit) rest
  | _, '\\' :: 'u' :: rest => some (escapeFlaw rest)
  | true, '\\' :: rest => some ⟨.unpairedSurrogate, size rest - 1⟩
  | true, text => some ⟨.unpairedSurrogate, size text - 1⟩
  | false, '"' :: _ => none
  | false, '\\' :: c :: rest =>
    if (unitOfEscape? c).isSome then stringFlaw? skipped false rest
    else some ⟨.invalidEscape, size (c :: rest) - 1⟩
  | false, c :: rest =>
    if c.toNat < 0x20 then
      some ⟨.controlCharacter, if skipped then size (c :: rest) else size rest⟩
    else stringFlaw? skipped false rest

/-! ### Tokens -/

/-- The flaw of the string that a text starts with, if it starts with one. -/
def textFlaw? (skipped : Bool) : List Char → Option Flaw
  | '"' :: text => stringFlaw? skipped false text
  | _ => none

/-- The flaw of the value that a text starts with, if it starts with one that is no array or
object. -/
def valueFlaw? (skipped : Bool) : List Char → Option Flaw
  | 'n' :: text => wordFlaw? ['u', 'l', 'l'] text
  | 't' :: text => wordFlaw? ['r', 'u', 'e'] text
  | 'f' :: text => wordFlaw? ['a', 'l', 's', 'e'] text
  | '"' :: text => stringFlaw? skipped false text
  | c :: text =>
    if c = '-' ∨ c.isDigit then numberFlaw? skipped (c :: text) else none
  | [] => none

/-- What is left of a text after some of its tokens and the blanks behind them. -/
def Token.dropFrom (text : List Char) : (tokens : Nat) → List Char
  | 0 => text.dropWhile isSpace
  | tokens + 1 => dropFrom (next (text.dropWhile isSpace)).2 tokens

end Json

end CallGuard
