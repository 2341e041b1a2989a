import CallGuard.Text.Printable

/-!
# Quoted text

A text is quoted between two marks so that a reader sees every character of it: the mark
in use and the backslash are escaped, the usual control characters have short escapes, and
every other character that is not printable is written by its code point. In a path both
kinds of marks are escaped.
-/

namespace CallGuard

namespace Text

/-- A character as it stands between two marks, where the marks given are escaped. -/
def escape (marks : List Char) (c : Char) : List Char :=
  if c = '\x00' then ['\\', '0']
  else if c = '\t' then ['\\', 't']
  else if c = '\n' then ['\\', 'n']
  else if c = '\r' then ['\\', 'r']
  else if c = '\\' then ['\\', '\\']
  else if c ∈ marks then ['\\', c]
  else if isPrintable c then [c]
  else '\\' :: 'u' :: '\x7b' :: (Nat.toDigits 16 c.toNat ++ ['\x7d'])

/-- A text between double quotes, with some marks escaped. -/
def quotedWith (marks : List Char) (text : String) : String :=
  String.ofList ('"' :: (text.toList.flatMap (escape marks) ++ ['"']))

/-- A text between double quotes. -/
def quoted (text : String) : String :=
  quotedWith ['"'] text

/-- A path between double quotes. -/
def quotedPath (path : String) : String :=
  quotedWith ['"', '\''] path

/-- A character between single quotes. -/
def quotedChar (c : Char) : String :=
  String.ofList ('\'' :: (escape ['\''] c ++ ['\'']))

end Text

end CallGuard
