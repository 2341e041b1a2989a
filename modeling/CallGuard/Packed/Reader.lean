import CallGuard.Packed

/-!
# Reading the packed form

Bytes are read front to back: the number of nodes, their headers, and the operands of those
that are no other node's parent. Nothing may be left over. Then the nodes are put together
from the last to the first, so that the children of a node are ready before it: what is
ready is kept in order, each tree beside the index of the parent that it waits for.

Bytes that announce more than there is, a parent that does not come first and codes that
stand for nothing are refused where they are read; that parts do not make a node shows when
the node is put together.
-/

namespace CallGuard

namespace Packed

/-- What is still to be read, and how much has been. -/
structure Cursor where
  /-- The bytes that follow. -/
  rest : Bytes
  /-- The number of bytes read. -/
  offset : Nat

/-- The next `n` bytes. -/
def take (n : Nat) (cursor : Cursor) : Except Error (Bytes × Cursor) :=
  if n ≤ cursor.rest.length then
    .ok (cursor.rest.take n, ⟨cursor.rest.drop n, cursor.offset + n⟩)
  else .error (.encoding (.endOfBytes cursor.offset))

/-- Bytes that stand in front are taken, and those that follow are left. -/
theorem take_append (front rest : Bytes) (offset : Nat) :
    take front.length ⟨front ++ rest, offset⟩ = .ok (front, ⟨rest, offset + front.length⟩) := by
  simp [take]

/-- The number in the next `n` bytes. -/
def number (n : Nat) (cursor : Cursor) : Except Error (Nat × Cursor) := do
  let (bytes, cursor) ← take n cursor
  .ok (ofBigEndian bytes, cursor)

/-- A number that fits its bytes is read back. -/
theorem number_bigEndian (n value : Nat) (rest : Bytes) (offset : Nat) (h : value < Nat.pow 256 n) :
    number n ⟨bigEndian n value ++ rest, offset⟩ = .ok (value, ⟨rest, offset + n⟩) := by
  have taken := take_append (bigEndian n value) rest offset
  rw [length_bigEndian] at taken
  rw [number, taken]
  show Except.ok (ofBigEndian (bigEndian n value), _) = _
  rw [ofBigEndian_bigEndian, Nat.mod_eq_of_lt h]

/-- The header of a node. -/
structure Header where
  /-- The index of the parent. -/
  parent : Nat
  /-- The type of the node. -/
  paramType : ParamType
  /-- The operator of the node. -/
  operator : Operator

/-- The header that two bytes write for the node with an index. -/
def headerOf (index parent : Nat) (typeOperator : UInt8) : Except Error Header :=
  if parent < index ∨ (index = 0 ∧ parent = 0) then
    match ParamType.ofCode? (typeOperator >>> 5), Operator.ofCode? (typeOperator &&& 0x1f) with
    | none, _ => .error (.encoding (.unknownParamType index (typeOperator >>> 5)))
    | some _, none => .error (.encoding (.unknownOperator index (typeOperator &&& 0x1f)))
    | some paramType, some operator => .ok ⟨parent, paramType, operator⟩
  else .error (.encoding (.invalidParent index parent))

/-- The headers of `n` nodes from the one with an index on. -/
def headers : (n index : Nat) → Cursor → Except Error (List Header × Cursor)
  | 0, _, cursor => .ok ([], cursor)
  | n + 1, index, cursor => do
    let (parent, cursor) ← number 1 cursor
    let (code, cursor) ← number 1 cursor
    let first ← headerOf index parent (UInt8.ofNat code)
    let (others, cursor) ← headers n (index + 1) cursor
    .ok (first :: others, cursor)

/-- The operands of `n` nodes from the one with an index on. Nodes that are some later
node's parent have none. -/
def operands (parents : List Nat) : (n index : Nat) → Cursor → Except Error (List Bytes × Cursor)
  | 0, _, cursor => .ok ([], cursor)
  | n + 1, index, cursor => do
    if parents.contains index then
      let (others, cursor) ← operands parents n (index + 1) cursor
      .ok ([] :: others, cursor)
    else
      let (length, cursor) ← number 2 cursor
      let (operand, cursor) ← take length cursor
      let (others, cursor) ← operands parents n (index + 1) cursor
      .ok (operand :: others, cursor)

/-- A tree that waits for the parent with an index. -/
abbrev Waiting := Nat × Condition

/-- The trees of the nodes from the one with an index on, each waiting for its parent. -/
def assemble : (index : Nat) → List (Header × Bytes) → Except Error (List Waiting)
  | _, [] => .ok []
  | index, (header, operand) :: later => do
    let waiting ← assemble (index + 1) later
    let children := (waiting.filter (·.1 == index)).map Prod.snd
    let node ← Condition.make header.paramType header.operator operand children
    .ok ((header.parent, node) :: waiting.filter (·.1 != index))

/-- The tree of some nodes, of which the first is the root. -/
def root (first : Header × Bytes) (later : List (Header × Bytes)) : Except Error Condition := do
  let waiting ← assemble 1 later
  Condition.make first.1.paramType first.1.operator first.2 (waiting.map Prod.snd)

/-- The tree that a packed form holds. -/
def unpack (bytes : Bytes) : Except Error Condition := do
  let (count, cursor) ← number 1 ⟨bytes, 0⟩
  let (headers, cursor) ← headers count 0 cursor
  let (operands, cursor) ← operands (headers.tail.map Header.parent) count 0 cursor
  match headers.zip operands, cursor.rest.length with
  | [], _ => .error (.encoding .noNodes)
  | first :: later, 0 => root first later
  | _ :: _, n => .error (.encoding (.trailingBytes n))

end Packed

end CallGuard
