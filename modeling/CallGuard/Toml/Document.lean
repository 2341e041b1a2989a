import CallGuard.Toml.Node
import CallGuard.Toml.Scan

/-!
# Reading TOML documents

A document is a sequence of lines: a line gives a key a value, opens a table by a header, or
is blank. `parse` reads a document to its table of entries, and gives nothing if a line is not
of one of these forms, adds what is not allowed, or nests values too deeply.
-/

namespace CallGuard

namespace Toml

mutual

/-- A value, for a bound on the number of steps and the depth that is still allowed. -/
def scanValue : (bound depth : Nat) → List Char → Option (Node × List Char)
  | 0, _, _ => none
  | bound + 1, depth, text =>
    match text, depth with
    | 't' :: 'r' :: 'u' :: 'e' :: rest, _ => some (.boolean true, rest)
    | 'f' :: 'a' :: 'l' :: 's' :: 'e' :: rest, _ => some (.boolean false, rest)
    | '[' :: _, 0 => none
    | '[' :: rest, depth + 1 =>
      (scanItems bound depth [] rest).map fun (items, rest) => (.array items, rest)
    | '{' :: _, 0 => none
    | '{' :: rest, depth + 1 =>
      match skipSpaces rest with
      | '}' :: rest => some (.table .inline [], rest)
      | rest => (scanMembers bound depth [] rest).map fun (es, rest) => (.table .inline es, rest)
    | text, _ =>
      match scanString text with
      | some (string, rest) => some (.string string, rest)
      | none =>
        match skipMoment text with
        | some rest => some (.moment, rest)
        | none => (skipNumber text).map fun rest => (.number, rest)

/-- The items of an array that follow those done, latest first, up to its end. -/
def scanItems : (bound depth : Nat) → (done : List Node) → List Char →
    Option (List Node × List Char)
  | 0, _, _, _ => none
  | bound + 1, depth, done, text =>
    match skipLines text.length text with
    | ']' :: rest => some (done.reverse, rest)
    | text =>
      match scanValue bound depth text with
      | none => none
      | some (item, rest) =>
        match skipLines rest.length rest with
        | ',' :: rest => scanItems bound depth (item :: done) rest
        | ']' :: rest => some ((item :: done).reverse, rest)
        | _ => none

/-- The entries of a table in braces, with those done, up to its end. -/
def scanMembers : (bound depth : Nat) → (done : Entries) → List Char →
    Option (Entries × List Char)
  | 0, _, _, _ => none
  | bound + 1, depth, done, text =>
    match scanPath text with
    | some (keys, '=' :: rest) =>
      match scanValue bound depth (skipSpaces rest) with
      | none => none
      | some (node, rest) =>
        match Entries.assign (keys.getLastD "") node keys.dropLast done, skipSpaces rest with
        | some done, ',' :: rest => scanMembers bound depth done rest
        | some done, '}' :: rest => some (done, rest)
        | _, _ => none
    | _ => none

end

/-- A document as far as it has been read. -/
structure Document where
  /-- The entries of the whole document. -/
  entries : Entries
  /-- The keys of the table that is open. -/
  current : List String

/-- The document after the header of a table, from after the opening brackets. -/
def readHeader (doc : Document) (element : Bool) (text : List Char) :
    Option (Document × List Char) := do
  let (keys, rest) ← scanPath text
  let rest ← skipMark ']' rest
  let rest ← if element then skipMark ']' rest else some rest
  let rest ← finishLine? rest
  let change := if element then Entries.openElement else Entries.openTable
  let entries ← doc.entries.within (change (keys.getLastD "")) keys.dropLast
  some (⟨entries, keys⟩, rest)

/-- The document after a line that gives a key a value. -/
def readAssignment (doc : Document) (text : List Char) : Option (Document × List Char) := do
  let (keys, rest) ← scanPath text
  let rest ← skipMark '=' rest
  let (node, rest) ← scanValue (rest.length + 1) maxDepth (skipSpaces rest)
  let rest ← finishLine? rest
  let change := Entries.assign (keys.getLastD "") node keys.dropLast
  let entries ← doc.entries.within change doc.current
  some (⟨entries, doc.current⟩, rest)

/-- The entries after all lines, for a bound on their number. -/
def readLines : (bound : Nat) → Document → List Char → Option Entries
  | 0, _, _ => none
  | bound + 1, doc, text =>
    match skipSpaces text with
    | [] => some doc.entries
    | '[' :: '[' :: rest =>
      (readHeader doc true rest).bind fun (doc, rest) => readLines bound doc rest
    | '[' :: rest => (readHeader doc false rest).bind fun (doc, rest) => readLines bound doc rest
    | text =>
      match finishLine? text with
      | some rest => readLines bound doc rest
      | none => (readAssignment doc text).bind fun (doc, rest) => readLines bound doc rest

/-- The text without the mark of byte order at its start. -/
def skipByteOrderMark : List Char → List Char
  | '\ufeff' :: text => text
  | text => text

/-- The entries of a document. -/
def parse (text : String) : Option Entries :=
  let text := skipByteOrderMark text.toList
  readLines (text.length + 1) ⟨[], []⟩ text

end Toml

end CallGuard
