/-!
# TOML documents as trees

A document is a table of keyed nodes. How a table came to be decides what may be added to it
later: a table opened by a header can be opened once, and entries can be added to it only
while it is open; one that a longer header implies can still be opened; one that a dotted key
made can be extended by dotted keys alone; one that is written as a value is complete.

`assign`, `openTable` and `openElement` add to a table what a line of a document says, and
give nothing if that is not allowed.
-/

namespace CallGuard

namespace Toml

/-- How a table came to be. -/
inductive Origin where
  /-- Opened by a header. -/
  | header
  /-- Implied by the header of a table below it. -/
  | implied
  /-- Made by a dotted key. -/
  | dotted
  /-- Written as a value. -/
  | inline
  deriving DecidableEq

/-- A value of a document. -/
inductive Node where
  /-- A string. -/
  | string (text : String)
  /-- A truth value. -/
  | boolean (value : Bool)
  /-- A number. -/
  | number
  /-- A date, a time of day or both. -/
  | moment
  /-- An array. -/
  | array (items : List Node)
  /-- A table. -/
  | table (origin : Origin) (entries : List (String × Node))
  /-- The tables that headers in double brackets opened. -/
  | tables (items : List (List (String × Node)))
  deriving Inhabited

/-- The keyed nodes of a table, in order. -/
abbrev Entries := List (String × Node)

namespace Entries

/-- The node with a key. -/
def get? (es : Entries) (key : String) : Option Node :=
  (es.find? (·.1 == key)).map Prod.snd

/-- The entries with another node at a key. -/
def replace (es : Entries) (key : String) (node : Node) : Entries :=
  es.map fun e => if e.1 == key then (key, node) else e

/-- Adds a node by its key, below the tables of a path that dotted keys made. A table that
longer headers imply, and the latest of those that headers in double brackets opened, may be
passed on the way but not be the last of the path. -/
def assign (key : String) (node : Node) : (path : List String) → Entries → Option Entries
  | [], es => if (es.get? key).isSome then none else some (es ++ [(key, node)])
  | first :: path, es =>
    match es.get? first, path.isEmpty with
    | none, _ => (assign key node path []).map fun sub => es ++ [(first, .table .dotted sub)]
    | some (.table .dotted sub), _ =>
      (assign key node path sub).map fun sub => es.replace first (.table .dotted sub)
    | some (.table .implied sub), false =>
      (assign key node path sub).map fun sub => es.replace first (.table .implied sub)
    | some (.tables items), false =>
      (assign key node path (items.getLastD [])).map fun sub =>
        es.replace first (.tables (items.dropLast ++ [sub]))
    | _, _ => none

/-- Changes the table at the end of the path of a header. -/
def within (change : Entries → Option Entries) : (path : List String) → Entries → Option Entries
  | [], es => change es
  | first :: path, es =>
    match es.get? first with
    | none => (within change path []).map fun sub => es ++ [(first, .table .implied sub)]
    | some (.table .inline _) => none
    | some (.table origin sub) =>
      (within change path sub).map fun sub => es.replace first (.table origin sub)
    | some (.tables items) =>
      (within change path (items.getLastD [])).map fun sub =>
        es.replace first (.tables (items.dropLast ++ [sub]))
    | some _ => none

/-- Opens the table of a header. -/
def openTable (key : String) (es : Entries) : Option Entries :=
  match es.get? key with
  | none => some (es ++ [(key, .table .header [])])
  | some (.table .implied sub) => some (es.replace key (.table .header sub))
  | some _ => none

/-- Opens one more table of a header in double brackets. -/
def openElement (key : String) (es : Entries) : Option Entries :=
  match es.get? key with
  | none => some (es ++ [(key, .tables [[]])])
  | some (.tables items) => some (es.replace key (.tables (items ++ [[]])))
  | some _ => none

end Entries

end Toml

end CallGuard
