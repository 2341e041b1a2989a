import CallGuard.Condition

/-!
# Packed form

A tree is stored as bytes in breadth-first order: the children of a node stand together, and
every node but the root comes after its parent. The bytes are

* the number of nodes, in one byte;
* two bytes per node: the index of its parent (`0` for the root), and its type and operator;
* for each node without children, in order, the length of its operand in two bytes and the
  operand.

`breadthFirst` numbers the nodes and `pack` writes them; a tree has a packed form if the
number of nodes and the lengths fit.
-/

namespace CallGuard

/-- A node in breadth-first order with the index of its parent. -/
structure Numbered where
  /-- The index of the parent; that of the root is its own. -/
  parent : Nat
  /-- The node with all below it. -/
  node : Condition

namespace Condition

/-- The nodes that are reached from a queue, for a bound on their number, the first of them
having the index `next`. The children of a node go to the end of the queue. -/
def visit : (bound next : Nat) → List Numbered → List Numbered
  | bound + 1, next, first :: queue =>
    first :: visit bound (next + 1) (queue ++ first.node.children.map (Numbered.mk next))
  | _, _, _ => []

/-- The nodes of a tree in breadth-first order. -/
def breadthFirst (c : Condition) : List Numbered :=
  visit c.nodeCount 0 [⟨0, c⟩]

/-- The byte of a node's type and operator. -/
def typeOperator (c : Condition) : UInt8 :=
  c.paramType.code <<< 5 ||| c.operator.code

/-- The largest number of nodes that a packed form holds. -/
def maxNodes : Nat := 255

/-- The largest length of an operand that a packed form holds. -/
def maxOperand : Nat := 65535

/-- The header of a node. -/
def header (n : Numbered) : Bytes :=
  [UInt8.ofNat n.parent, n.node.typeOperator]

/-- The operand of a leaf with its length. -/
def packOperand (c : Condition) : Except Error Bytes :=
  if c.operand.length ≤ maxOperand then .ok (bigEndian 2 c.operand.length ++ c.operand)
  else .error (.encoding (.operandTooLong c.operand.length))

/-- The packed form of a tree. -/
def pack (c : Condition) : Except Error Bytes :=
  let nodes := c.breadthFirst
  if maxNodes < nodes.length then .error (.encoding (.tooManyNodes nodes.length))
  else do
    let operands ← ((nodes.map Numbered.node).filter isLeaf).mapM packOperand
    .ok (UInt8.ofNat nodes.length :: (nodes.flatMap header ++ operands.flatten))

end Condition

end CallGuard
