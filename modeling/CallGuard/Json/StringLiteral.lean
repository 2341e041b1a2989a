import CallGuard.Text.HexDigit

/-!
# String literals of JSON

What stands between the quotes of a JSON string: `encode` writes characters, escaping the
quote, the backslash and the control characters; `scan` reads up to the closing quote and
gives code units, which `decode` turns into characters.

A literal can be formed correctly and still write no text, when an escape gives one half of
a surrogate pair alone. Then `scan` succeeds and `decode` does not.
-/

namespace CallGuard

namespace Json

/-- The code unit that four hexadecimal digits write. -/
def unitOfDigits? (a b c d : Char) : Option Nat :=
  match Text.hexValue? a, Text.hexValue? b, Text.hexValue? c, Text.hexValue? d with
  | some a, some b, some c, some d => some (((16 * a + b) * 16 + c) * 16 + d)
  | _, _, _, _ => none

/-- The code unit that a character after a backslash stands for. -/
def unitOfEscape? : Char → Option Nat
  | '"' => some 0x22
  | '\\' => some 0x5c
  | '/' => some 0x2f
  | 'b' => some 0x08
  | 'f' => some 0x0c
  | 'n' => some 0x0a
  | 'r' => some 0x0d
  | 't' => some 0x09
  | _ => none

/-- The code units up to the closing quote and what follows it, after the units `done`,
latest first. -/
def scanUnits (done : List Nat) : List Char → Option (List Nat × List Char)
  | [] => none
  | '"' :: rest => some (done.reverse, rest)
  | '\\' :: 'u' :: a :: b :: c :: d :: rest =>
    match unitOfDigits? a b c d with
    | some unit => scanUnits (unit :: done) rest
    | none => none
  | '\\' :: c :: rest =>
    match unitOfEscape? c with
    | some unit => scanUnits (unit :: done) rest
    | none => none
  | c :: rest => if c.toNat < 0x20 then none else scanUnits (c.toNat :: done) rest

/-- The code units of a literal, from after its opening quote, and what follows it. -/
def scanString (text : List Char) : Option (List Nat × List Char) :=
  scanUnits [] text

/-- Whether a code unit is the first half of a pair. -/
def isHighSurrogate (n : Nat) : Bool :=
  0xd800 ≤ n && n ≤ 0xdbff

/-- Whether a code unit is the second half of a pair. -/
def isLowSurrogate (n : Nat) : Bool :=
  0xdc00 ≤ n && n ≤ 0xdfff

/-- The characters that code units write, after the characters `done`, latest first. -/
def decodeUnits (done : List Char) : List Nat → Option (List Char)
  | [] => some done.reverse
  | high :: low :: rest =>
    if isHighSurrogate high && isLowSurrogate low then
      decodeUnits (Char.ofNat (0x10000 + (high - 0xd800) * 0x400 + (low - 0xdc00)) :: done) rest
    else if isHighSurrogate high || isLowSurrogate high then none
    else decodeUnits (Char.ofNat high :: done) (low :: rest)
  | [unit] =>
    if isHighSurrogate unit || isLowSurrogate unit then none
    else some (Char.ofNat unit :: done).reverse

/-- The text that code units write, unless they hold half of a pair alone. -/
def decode (units : List Nat) : Option String :=
  (decodeUnits [] units).map String.ofList

/-- A character as it is written between quotes. -/
def encodeChar (c : Char) : List Char :=
  if c = '"' then ['\\', '"']
  else if c = '\\' then ['\\', '\\']
  else if c = '\x08' then ['\\', 'b']
  else if c = '\x0c' then ['\\', 'f']
  else if c = '\n' then ['\\', 'n']
  else if c = '\r' then ['\\', 'r']
  else if c = '\t' then ['\\', 't']
  else if c.toNat < 0x20 then
    ['\\', 'u', '0', '0', Nat.digitChar (c.toNat / 16), Nat.digitChar (c.toNat % 16)]
  else [c]

/-- A text as it is written between quotes. -/
def encode (text : String) : List Char :=
  text.toList.flatMap encodeChar

end Json

end CallGuard
