import CallGuard.Double
import CallGuard.Text.HexDigit

/-!
# The lexical forms of TOML

Each reader below takes the text from a place on and gives what it reads there together with
the text that follows, or nothing if the text at that place is not of its form: blanks and
comments, strings of the four kinds, keys, numbers, dates and times.

Line ends in strings of several lines count as a line feed, however they are written. A number
with a fraction or an exponent stands for the nearest double, and may be too large for one
only if it is negative.
-/

namespace CallGuard

namespace Toml

/-- Whether a character may separate what stands on one line. -/
def isSpace (c : Char) : Bool :=
  c == ' ' || c == '\t'

/-- Whether a character may stand in a comment or a string on one line. -/
def isVisible (c : Char) : Bool :=
  c == '\t' || (0x20 ≤ c.toNat && c.toNat != 0x7f)

/-- The text after the blanks at its start. -/
def skipSpaces (text : List Char) : List Char :=
  text.dropWhile isSpace

/-- The text after a line end. -/
def lineEnd? : List Char → Option (List Char)
  | '\n' :: rest => some rest
  | '\r' :: '\n' :: rest => some rest
  | _ => none

/-- The text after a comment, if one starts here. -/
def skipComment : List Char → List Char
  | '#' :: text => text.dropWhile isVisible
  | text => text

/-- The text after what may end a line: blanks, a comment, and a line end or the end of the
text. -/
def finishLine? (text : List Char) : Option (List Char) :=
  match skipComment (skipSpaces text) with
  | [] => some []
  | text => lineEnd? text

/-- The text after blanks, comments and line ends, for a bound on their number. -/
def skipLines : (bound : Nat) → List Char → List Char
  | 0, text => text
  | bound + 1, text =>
    match lineEnd? (skipComment (skipSpaces text)) with
    | some rest => skipLines bound rest
    | none => skipSpaces text

/-! ### Strings -/

/-- The character whose code point hexadecimal digits write. -/
def scalar? (digits : List Char) : Option Char :=
  (digits.mapM Text.hexValue?).bind fun values =>
    let n := values.foldl (fun n d => 16 * n + d) 0
    if n.isValidChar then some (Char.ofNat n) else none

/-- The character of an escape, from after the backslash. -/
def scanEscape : List Char → Option (Char × List Char)
  | 'b' :: rest => some ('\x08', rest)
  | 't' :: rest => some ('\t', rest)
  | 'n' :: rest => some ('\n', rest)
  | 'f' :: rest => some ('\x0c', rest)
  | 'r' :: rest => some ('\r', rest)
  | '"' :: rest => some ('"', rest)
  | '\\' :: rest => some ('\\', rest)
  | 'u' :: text =>
    if text.length < 4 then none else (scalar? (text.take 4)).map fun c => (c, text.drop 4)
  | 'U' :: text =>
    if text.length < 8 then none else (scalar? (text.take 8)).map fun c => (c, text.drop 8)
  | _ => none

/-- A string with escapes on one line, from after its opening quote, for a bound on its
length. -/
def scanBasic (done : List Char) : (bound : Nat) → List Char → Option (String × List Char)
  | 0, _ => none
  | bound + 1, text =>
    match text with
    | '"' :: rest => some (String.ofList done.reverse, rest)
    | '\\' :: text => (scanEscape text).bind fun (c, rest) => scanBasic (c :: done) bound rest
    | c :: rest => if isVisible c then scanBasic (c :: done) bound rest else none
    | [] => none

/-- A string without escapes on one line, from after its opening quote. -/
def scanLiteral (done : List Char) : List Char → Option (String × List Char)
  | '\'' :: rest => some (String.ofList done.reverse, rest)
  | c :: rest => if isVisible c then scanLiteral (c :: done) rest else none
  | [] => none

/-- The end of a string of several lines: three marks, before which up to two more belong to
the string. -/
def scanClosing (mark : Char) (done text : List Char) : Option (String × List Char) :=
  let marks := (text.takeWhile (· == mark)).length
  if 3 ≤ marks ∧ marks ≤ 5 then
    some (String.ofList (List.replicate (marks - 3) mark ++ done).reverse, text.drop marks)
  else none

/-- The text after blanks and line ends. -/
def skipBlankLines : List Char → List Char
  | ' ' :: rest => skipBlankLines rest
  | '\t' :: rest => skipBlankLines rest
  | '\n' :: rest => skipBlankLines rest
  | '\r' :: '\n' :: rest => skipBlankLines rest
  | text => text

/-- The text after the blanks and line ends that a backslash at the end of a line takes. -/
def skipContinuation (text : List Char) : Option (List Char) :=
  (lineEnd? (skipSpaces text)).map skipBlankLines

/-- A string of several lines with escapes, from after its opening marks, for a bound on its
length. -/
def scanBasicLines (done : List Char) : (bound : Nat) → List Char → Option (String × List Char)
  | 0, _ => none
  | bound + 1, text =>
    match text with
    | '"' :: '"' :: '"' :: _ => scanClosing '"' done text
    | '\\' :: text =>
      match skipContinuation text with
      | some rest => scanBasicLines done bound rest
      | none => (scanEscape text).bind fun (c, rest) => scanBasicLines (c :: done) bound rest
    | c :: rest =>
      match lineEnd? text with
      | some rest => scanBasicLines ('\n' :: done) bound rest
      | none => if isVisible c then scanBasicLines (c :: done) bound rest else none
    | [] => none

/-- A string of several lines without escapes, from after its opening marks, for a bound on
its length. -/
def scanLiteralLines (done : List Char) : (bound : Nat) → List Char → Option (String × List Char)
  | 0, _ => none
  | bound + 1, text =>
    match text with
    | '\'' :: '\'' :: '\'' :: _ => scanClosing '\'' done text
    | c :: rest =>
      match lineEnd? text with
      | some rest => scanLiteralLines ('\n' :: done) bound rest
      | none => if isVisible c then scanLiteralLines (c :: done) bound rest else none
    | [] => none

/-- The text of several lines after a line end right at its start. -/
def dropFirstLineEnd (text : List Char) : List Char :=
  (lineEnd? text).getD text

/-- A string of any kind. -/
def scanString : List Char → Option (String × List Char)
  | '"' :: '"' :: '"' :: text => scanBasicLines [] (text.length + 1) (dropFirstLineEnd text)
  | '\'' :: '\'' :: '\'' :: text => scanLiteralLines [] (text.length + 1) (dropFirstLineEnd text)
  | '"' :: text => scanBasic [] (text.length + 1) text
  | '\'' :: text => scanLiteral [] text
  | _ => none

/-! ### Keys -/

/-- Whether a character may stand in a key without quotes. -/
def isKeyChar (c : Char) : Bool :=
  c.isAlphanum || c == '_' || c == '-'

/-- A key without dots. -/
def scanKey : List Char → Option (String × List Char)
  | '"' :: text => scanBasic [] (text.length + 1) text
  | '\'' :: text => scanLiteral [] text
  | text =>
    let key := text.takeWhile isKeyChar
    if key.isEmpty then none else some (String.ofList key, text.dropWhile isKeyChar)

/-- The greatest number of arrays and tables in braces around a value, and of keys that dots
join. -/
def maxDepth : Nat := 79

/-- A key with the keys that dots join to it, for a bound on their number. Blanks around
each are skipped. -/
def scanKeys : (bound : Nat) → List Char → Option (List String × List Char)
  | 0, _ => none
  | bound + 1, text =>
    match scanKey (skipSpaces text) with
    | none => none
    | some (key, rest) =>
      match skipSpaces rest with
      | '.' :: rest => (scanKeys bound rest).map fun (keys, rest) => (key :: keys, rest)
      | rest => some ([key], rest)

/-- A key with the keys that dots join to it. -/
def scanPath (text : List Char) : Option (List String × List Char) :=
  scanKeys maxDepth text

/-! ### Numbers -/

/-- The digits at the start of a text, with single underscores between them, and what
follows. -/
def scanDigits (isDigit : Char → Bool) (text : List Char) : Option (List Char × List Char) :=
  let digits := text.takeWhile fun c => isDigit c || c == '_'
  let apart := (digits.zip (digits.drop 1)).all fun p => !(p.1 == '_' && p.2 == '_')
  if digits.isEmpty || digits.head? == some '_' || digits.getLast? == some '_' || !apart then none
  else some (digits.filter (· != '_'), text.drop digits.length)

/-- The text after a whole number in a base other than ten that fits in 63 bits. -/
def skipBased (base : Nat) (text : List Char) : Option (List Char) :=
  let isDigit (c : Char) : Bool := ((Text.hexValue? c).map (decide <| · < base)).getD false
  (scanDigits isDigit text).bind fun (digits, rest) =>
    if Text.numberOf base digits < Nat.pow 2 63 then some rest else none

/-- An exponent from after its mark. -/
def scanExponent : List Char → Option (Int × List Char)
  | '+' :: text => (scanDigits Char.isDigit text).map fun (ds, rest) => (Text.numberOf 10 ds, rest)
  | '-' :: text => (scanDigits Char.isDigit text).map fun (ds, rest) => (-Text.numberOf 10 ds, rest)
  | text => (scanDigits Char.isDigit text).map fun (ds, rest) => (Text.numberOf 10 ds, rest)

/-- Whether digits times a power of ten may stand for a number of a document with that
sign. -/
def isInReach (negative : Bool) (digits : List Char) (exponent : Int) : Bool :=
  negative || (Double.ofDecimal? ⟨Text.numberOf 10 digits, exponent⟩).isSome

/-- The text after an exponent, from after its mark, and the digits before it, the last of
which counts the power `last` of ten. -/
def skipExponent (negative : Bool) (digits : List Char) (last : Int) (text : List Char) :
    Option (List Char) :=
  (scanExponent text).bind fun (exponent, rest) =>
    if isInReach negative digits (last + exponent) then some rest else none

/-- The text after a number in base ten without its sign; one without fraction and exponent
must fit in 64 bits with the sign. -/
def skipDecimal (negative : Bool) (text : List Char) : Option (List Char) :=
  (scanDigits Char.isDigit text).bind fun (digits, rest) =>
    if digits.length ≠ 1 ∧ digits.head? = some '0' then none
    else match rest with
      | '.' :: rest =>
        (scanDigits Char.isDigit rest).bind fun (fraction, rest) =>
          let all := digits ++ fraction
          let last : Int := -fraction.length
          match rest with
          | 'e' :: rest => skipExponent negative all last rest
          | 'E' :: rest => skipExponent negative all last rest
          | rest => if isInReach negative all last then some rest else none
      | 'e' :: rest => skipExponent negative digits 0 rest
      | 'E' :: rest => skipExponent negative digits 0 rest
      | rest =>
        let limit := if negative then Nat.pow 2 63 else Nat.pow 2 63 - 1
        if Text.numberOf 10 digits ≤ limit then some rest else none

/-- The text after a number without its sign. -/
def skipUnsigned (negative : Bool) : List Char → Option (List Char)
  | 'i' :: 'n' :: 'f' :: rest => some rest
  | 'n' :: 'a' :: 'n' :: rest => some rest
  | text => skipDecimal negative text

/-- The text after a number. -/
def skipNumber : List Char → Option (List Char)
  | '+' :: text => skipUnsigned false text
  | '-' :: text => skipUnsigned true text
  | '0' :: 'x' :: text => skipBased 16 text
  | '0' :: 'o' :: text => skipBased 8 text
  | '0' :: 'b' :: text => skipBased 2 text
  | text => skipUnsigned false text

/-! ### Dates and times -/

/-- A number of exactly `width` digits between two limits. -/
def scanField (width low high : Nat) (text : List Char) : Option (Nat × List Char) :=
  let digits := text.take width
  let n := Text.numberOf 10 digits
  if digits.length = width ∧ digits.all Char.isDigit ∧ low ≤ n ∧ n ≤ high then
    some (n, text.drop width)
  else none

/-- The text after a mark. -/
def skipMark (mark : Char) : List Char → Option (List Char)
  | c :: rest => if c = mark then some rest else none
  | [] => none

/-- The number of days of a month. -/
def daysOfMonth (year month : Nat) : Nat :=
  if month = 2 then
    if year % 4 = 0 ∧ (year % 100 ≠ 0 ∨ year % 400 = 0) then 29 else 28
  else if month = 4 ∨ month = 6 ∨ month = 9 ∨ month = 11 then 30
  else 31

/-- The text after a date. -/
def skipDate (text : List Char) : Option (List Char) := do
  let (year, text) ← scanField 4 0 9999 text
  let text ← skipMark '-' text
  let (month, text) ← scanField 2 1 12 text
  let text ← skipMark '-' text
  let (_, text) ← scanField 2 1 (daysOfMonth year month) text
  some text

/-- The text after a time of day. -/
def skipTime (text : List Char) : Option (List Char) := do
  let (_, text) ← scanField 2 0 23 text
  let text ← skipMark ':' text
  let (_, text) ← scanField 2 0 59 text
  let text ← skipMark ':' text
  let (_, text) ← scanField 2 0 60 text
  match text with
  | '.' :: fraction =>
    if (fraction.takeWhile Char.isDigit).isEmpty then none
    else some (fraction.dropWhile Char.isDigit)
  | text => some text

/-- The text after the offset of a time, which may be missing. -/
def skipOffset : List Char → Option (List Char)
  | 'Z' :: rest => some rest
  | 'z' :: rest => some rest
  | c :: text =>
    if c = '+' ∨ c = '-' then do
      let (_, text) ← scanField 2 0 23 text
      let text ← skipMark ':' text
      let (_, text) ← scanField 2 0 59 text
      some text
    else some (c :: text)
  | [] => some []

/-- The text after a date, a time of day or both. -/
def skipMoment (text : List Char) : Option (List Char) :=
  match skipDate text with
  | some (c :: rest) =>
    if c = 'T' ∨ c = 't' then (skipTime rest).bind skipOffset
    else if c = ' ' then ((skipTime rest).bind skipOffset).or (some (c :: rest))
    else some (c :: rest)
  | some [] => some []
  | none => skipTime text

end Toml

end CallGuard
