import CallGuard.Toml.Document
import Mathlib.Data.List.Basic

/-!
# Documents of plain lines

A plain line of a document is empty, opens a table, or gives a key a truth value or a string, in the
simplest way there is: its key stands without quotes, its string between double quotes with nothing
to escape. Reading takes a document of such lines as what they say, one after the other
(`parse_written`).
-/

namespace CallGuard

namespace Toml

/-- That a key can stand without quotes. -/
def BareKey (key : String) : Prop :=
  key ≠ "" ∧ ∀ c ∈ key.toList, isKeyChar c

/-- A value on a plain line. -/
inductive Scalar where
  /-- A truth value. -/
  | boolean (value : Bool)
  /-- A string. -/
  | string (text : String)

/-- A plain line. -/
inductive Line where
  /-- An empty line. -/
  | blank
  /-- The header of a table. -/
  | header (key : String)
  /-- A key with its value. -/
  | setting (key : String) (value : Scalar)

namespace Scalar

/-- The value in a document. -/
def node : Scalar → Node
  | boolean value => .boolean value
  | string text => .string text

/-- The value as it is written. -/
def written : Scalar → List Char
  | boolean true => "true".toList
  | boolean false => "false".toList
  | string text => '"' :: (text.toList ++ ['"'])

/-- That nothing in a value has to be escaped. -/
def Plain : Scalar → Prop
  | boolean _ => True
  | string text => ∀ c ∈ text.toList, isVisible c ∧ c ≠ '"' ∧ c ≠ '\\'

end Scalar

namespace Line

/-- The line with its end. -/
def written : Line → List Char
  | blank => ['\n']
  | header key => '[' :: (key.toList ++ [']', '\n'])
  | setting key value => key.toList ++ ' ' :: '=' :: ' ' :: (value.written ++ ['\n'])

/-- That a line can be written so. -/
def Plain : Line → Prop
  | blank => True
  | header key => BareKey key
  | setting key value => BareKey key ∧ value.Plain

/-- What a line makes of a document; none if the document does not allow it. -/
def change? (doc : Document) : Line → Option Document
  | blank => some doc
  | header key => (doc.entries.openTable key).map fun es => ⟨es, [key]⟩
  | setting key value =>
    (doc.entries.within (Entries.assign key value.node []) doc.current).map
      fun es => ⟨es, doc.current⟩

end Line

/-! ### Parts of a line -/

theorem ne_of_isKeyChar {c d : Char} (inside : isKeyChar c) (outside : isKeyChar d = false) :
    c ≠ d := by
  rintro rfl
  rw [inside] at outside
  cases outside

theorem BareKey.exists_cons {key : String} (bare : BareKey key) :
    ∃ c cs, key.toList = c :: cs ∧ isKeyChar c := by
  obtain ⟨some, inside⟩ := bare
  cases split : key.toList with
  | nil => exact absurd (String.toList_eq_nil_iff.mp split) some
  | cons c cs => exact ⟨c, cs, rfl, inside c (by simp [split])⟩

theorem skipSpaces_cons {c : Char} (other : isSpace c = false) (text : List Char) :
    skipSpaces (c :: text) = c :: text := by
  simp [skipSpaces, other]

theorem skipSpaces_key {c : Char} (key : isKeyChar c) (text : List Char) :
    skipSpaces (c :: text) = c :: text := by
  apply skipSpaces_cons
  simp [isSpace, ne_of_isKeyChar key (d := ' ') (by decide),
    ne_of_isKeyChar key (d := '\t') (by decide)]

/-- **A key without quotes** ends at the first character that cannot stand in one. -/
theorem scanKey_bare {key : String} (bare : BareKey key) {d : Char} (stop : isKeyChar d = false)
    (rest : List Char) : scanKey (key.toList ++ d :: rest) = some (key, d :: rest) := by
  obtain ⟨c, cs, split, first⟩ := bare.exists_cons
  have taken : (key.toList ++ d :: rest).takeWhile isKeyChar = key.toList := by
    rw [List.takeWhile_append_of_pos bare.2]
    simp [stop]
  have dropped : (key.toList ++ d :: rest).dropWhile isKeyChar = d :: rest := by
    rw [List.dropWhile_append_of_pos bare.2]
    simp [stop]
  unfold scanKey
  split
  · rename_i starts
    rw [split] at starts
    exact absurd (List.cons.inj starts).1 (ne_of_isKeyChar first (by decide))
  · rename_i starts
    rw [split] at starts
    exact absurd (List.cons.inj starts).1 (ne_of_isKeyChar first (by decide))
  · have some : key.toList.isEmpty = false := by simp [split]
    simp [taken, dropped, some]

/-- A key that no dot follows is a path by itself. -/
theorem scanPath_bare {key : String} (bare : BareKey key) {d e : Char} {rest after : List Char}
    (stop : isKeyChar d = false) (next : skipSpaces (d :: rest) = e :: after) (single : e ≠ '.') :
    scanPath (key.toList ++ d :: rest) = some ([key], e :: after) := by
  obtain ⟨c, cs, split, first⟩ := bare.exists_cons
  have start : skipSpaces (key.toList ++ d :: rest) = key.toList ++ d :: rest := by
    rw [split]
    exact skipSpaces_key first _
  rw [scanPath, maxDepth, scanKeys, start, scanKey_bare bare stop]
  dsimp only
  rw [next]
  split
  · rename_i dot
    exact absurd (List.cons.inj dot).1 single
  · rfl

/-- A string with nothing to escape ends at its closing quote. -/
theorem scanBasic_plain {text : List Char} (plain : ∀ c ∈ text, isVisible c ∧ c ≠ '"' ∧ c ≠ '\\')
    {bound : Nat} (enough : text.length < bound) (done rest : List Char) :
    scanBasic done bound (text ++ '"' :: rest) =
      some (String.ofList (done.reverse ++ text), rest) := by
  induction text generalizing bound done with
  | nil =>
    obtain ⟨bound, rfl⟩ := Nat.exists_eq_add_of_lt enough
    simp [scanBasic]
  | cons c text ih =>
    obtain ⟨⟨visible, noQuote, noBackslash⟩, later⟩ := List.forall_mem_cons.mp plain
    cases bound with
    | zero => cases enough
    | succ bound =>
      have shorter : text.length < bound := by simpa using enough
      have more := ih later shorter (c :: done)
      simp [scanBasic, visible, more]

theorem scanString_plain {text : String} (plain : (Scalar.string text).Plain) (rest : List Char) :
    scanString ('"' :: (text.toList ++ '"' :: '\n' :: rest)) = some (text, '\n' :: rest) := by
  have long : text.toList.length < (text.toList ++ '"' :: '\n' :: rest).length + 1 := by
    rw [List.length_append]
    omega
  have read := scanBasic_plain plain long [] ('\n' :: rest)
  rw [List.reverse_nil, List.nil_append, String.ofList_toList] at read
  rw [← read]
  unfold scanString
  split
  · -- three quotes would be a quote in the text, or the end of the line
    rename_i quotes
    obtain ⟨-, quotes⟩ := List.cons.inj quotes
    cases split : text.toList with
    | nil =>
      rw [split] at quotes
      cases quotes
    | cons c cs =>
      rw [split] at quotes
      exact absurd (List.cons.inj quotes).1 (plain c (by simp [split])).2.1
  · rename_i quotes
    cases quotes
  · rename_i same
    cases same
    rfl
  · rename_i quote
    cases quote
  · rename_i other _
    exact absurd rfl (other _)

/-- **A value** is read up to the end of its line. -/
theorem scanValue_written {value : Scalar} (plain : value.Plain) (bound depth : Nat)
    (rest : List Char) : scanValue (bound + 1) depth (value.written ++ '\n' :: rest) =
      some (value.node, '\n' :: rest) := by
  cases value with
  | boolean value => cases value <;> rfl
  | string text =>
    have whole : (Scalar.string text).written ++ '\n' :: rest =
        '"' :: (text.toList ++ '"' :: '\n' :: rest) := by
      simp [Scalar.written]
    simp [whole, scanValue, scanString_plain plain, Scalar.node]

/-! ### Lines -/

theorem finishLine?_newline (rest : List Char) : finishLine? ('\n' :: rest) = some rest :=
  rfl

theorem finishLine?_eq_none {c : Char} (key : isKeyChar c) (text : List Char) :
    finishLine? (c :: text) = none := by
  have other : ∀ d, isKeyChar d = false → c ≠ d := fun d => ne_of_isKeyChar key
  have start : skipSpaces (c :: text) = c :: text := skipSpaces_key key text
  have comment : skipComment (c :: text) = c :: text := by
    simp [skipComment, other '#' (by decide)]
  simp [finishLine?, start, comment, lineEnd?, other '\n' (by decide), other '\r' (by decide)]

theorem readHeader_bare {key : String} (bare : BareKey key) (doc : Document) (rest : List Char) :
    readHeader doc false (key.toList ++ ']' :: '\n' :: rest) =
      ((Line.header key).change? doc).map fun doc => (doc, rest) := by
  have path : scanPath (key.toList ++ ']' :: '\n' :: rest) = some ([key], ']' :: '\n' :: rest) :=
    scanPath_bare bare (by decide) rfl (by decide)
  cases opened : Entries.openTable key doc.entries <;>
    simp [readHeader, path, skipMark, finishLine?_newline, Line.change?, Entries.within, opened]

theorem readAssignment_bare {key : String} (bare : BareKey key) {value : Scalar}
    (plain : value.Plain) (doc : Document) (rest : List Char) :
    readAssignment doc (key.toList ++ ' ' :: '=' :: ' ' :: (value.written ++ '\n' :: rest)) =
      ((Line.setting key value).change? doc).map fun doc => (doc, rest) := by
  have path : scanPath (key.toList ++ ' ' :: '=' :: ' ' :: (value.written ++ '\n' :: rest)) =
      some ([key], '=' :: ' ' :: (value.written ++ '\n' :: rest)) :=
    scanPath_bare bare (by decide) rfl (by decide)
  have spaces : skipSpaces (' ' :: (value.written ++ '\n' :: rest)) =
      value.written ++ '\n' :: rest := by
    cases value with
    | boolean value => cases value <;> rfl
    | string text => rfl
  cases given : doc.entries.within (Entries.assign key value.node []) doc.current <;>
    simp [readAssignment, path, skipMark, spaces, scanValue_written plain, finishLine?_newline,
      Line.change?, given]

/-- **A plain line** is read as what it says, and reading goes on behind it. -/
theorem readLines_written {l : Line} (plain : l.Plain) (bound : Nat) (doc : Document)
    (rest : List Char) : readLines (bound + 1) doc (l.written ++ rest) =
      (l.change? doc).bind fun doc => readLines bound doc rest := by
  cases l with
  | blank => rfl
  | header key =>
    obtain ⟨c, cs, split, first⟩ := BareKey.exists_cons plain
    have single : c ≠ '[' := ne_of_isKeyChar first (by decide)
    have read := readHeader_bare plain doc rest
    have whole : (Line.header key).written ++ rest =
        '[' :: (key.toList ++ ']' :: '\n' :: rest) := by
      simp [Line.written]
    have opens : readLines (bound + 1) doc ('[' :: c :: (cs ++ ']' :: '\n' :: rest)) =
        (readHeader doc false (c :: (cs ++ ']' :: '\n' :: rest))).bind
          fun after => readLines bound after.1 after.2 := by
      simp [readLines, skipSpaces_cons (c := '[') (by decide), single]
    rw [split] at whole read
    rw [whole, List.cons_append, opens, ← List.cons_append, read, Option.bind_map]
    rfl
  | setting key value =>
    obtain ⟨bare, plain⟩ := plain
    obtain ⟨c, cs, split, first⟩ := bare.exists_cons
    have noBracket : c ≠ '[' := ne_of_isKeyChar first (by decide)
    have read := readAssignment_bare bare plain doc rest
    have whole : (Line.setting key value).written ++ rest =
        key.toList ++ ' ' :: '=' :: ' ' :: (value.written ++ '\n' :: rest) := by
      simp [Line.written]
    have goesOn : ∀ text, readLines (bound + 1) doc (c :: text) =
        (readAssignment doc (c :: text)).bind
          fun after => readLines bound after.1 after.2 := by
      intro text
      simp [readLines, skipSpaces_key first, noBracket, finishLine?_eq_none first]
    rw [split] at whole read
    rw [whole, List.cons_append, goesOn, ← List.cons_append, read, Option.bind_map]
    rfl

/-! ### Documents -/

/-- **Plain lines** are read one after the other. -/
theorem readLines_flatMap_written {ls : List Line} (plain : ∀ l ∈ ls, l.Plain) {bound : Nat}
    (enough : ls.length < bound) (doc : Document) :
    readLines bound doc (ls.flatMap Line.written) =
      (ls.foldlM Line.change? doc).map Document.entries := by
  induction ls generalizing bound doc with
  | nil =>
    obtain ⟨bound, rfl⟩ := Nat.exists_eq_add_of_lt enough
    rfl
  | cons l ls ih =>
    obtain ⟨here, later⟩ := List.forall_mem_cons.mp plain
    cases bound with
    | zero => cases enough
    | succ bound =>
      have fewer : ls.length < bound := by simpa using enough
      have next := ih later fewer
      rw [List.flatMap_cons, readLines_written here, List.foldlM_cons]
      cases l.change? doc with
      | none => rfl
      | some doc => exact next doc

theorem Line.exists_written {l : Line} (plain : l.Plain) :
    ∃ c cs, l.written = c :: cs ∧ c ≠ '\ufeff' := by
  cases l with
  | blank => exact ⟨'\n', [], rfl, by decide⟩
  | header key => exact ⟨'[', key.toList ++ [']', '\n'], rfl, by decide⟩
  | setting key value =>
    obtain ⟨c, cs, split, first⟩ := plain.1.exists_cons
    refine ⟨c, cs ++ ' ' :: '=' :: ' ' :: (value.written ++ ['\n']), ?_,
      ne_of_isKeyChar first (by decide)⟩
    simp [Line.written, split]

theorem length_le_flatMap_written {ls : List Line} (plain : ∀ l ∈ ls, l.Plain) :
    ls.length ≤ (ls.flatMap Line.written).length := by
  induction ls with
  | nil => exact Nat.le_refl 0
  | cons l ls ih =>
    obtain ⟨here, later⟩ := List.forall_mem_cons.mp plain
    obtain ⟨c, cs, split, -⟩ := Line.exists_written here
    have rest := ih later
    rw [List.flatMap_cons, List.length_append, split, List.length_cons, List.length_cons]
    omega

/-- **A document of plain lines** is read as what its lines say, one after the other. -/
theorem parse_written {text : String} {ls : List Line} (plain : ∀ l ∈ ls, l.Plain)
    (written : text.toList = ls.flatMap Line.written) :
    parse text = (ls.foldlM Line.change? ⟨[], []⟩).map Document.entries := by
  have unmarked : skipByteOrderMark (ls.flatMap Line.written) = ls.flatMap Line.written := by
    cases ls with
    | nil => rfl
    | cons l ls =>
      obtain ⟨c, cs, split, other⟩ := Line.exists_written (plain l List.mem_cons_self)
      simp [split, skipByteOrderMark, other]
  have long := length_le_flatMap_written plain
  rw [parse, written, unmarked]
  exact readLines_flatMap_written plain (Nat.lt_succ_of_le long) _

end Toml

end CallGuard
