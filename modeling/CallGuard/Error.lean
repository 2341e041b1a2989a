import CallGuard.Operator
import CallGuard.ParamType
import CallGuard.Bytes.Hex

/-!
# Errors

What can go wrong with a condition tree, as causes: a node that is not well-formed, a
stage that is given what it does not work on, a tree that breaks an integrity rule, bytes
that do not encode a tree, and text that is not hexadecimal. `Error.message` puts a cause
into words.

That there is nothing to do (no place to factor at, a fragment that does not occur) is no
error: the operations say so in their results.
-/

namespace CallGuard

/-- Why the parts of a node do not make a node. -/
inductive ShapeFault where
  /-- The operator needs children and there are none. -/
  | noChildren
  /-- A node with children carries an operand. -/
  | operandOnBranch
  /-- A leaf is given children. -/
  | childrenOnLeaf (count : Nat)
  deriving DecidableEq

/-- A fault of shape in words. -/
def ShapeFault.message : ShapeFault → String
  | .noChildren => "requires at least one child"
  | .operandOnBranch => "only leaf operators may carry a compValue"
  | .childrenOnLeaf count => s!"leaf operator cannot carry {count} children"

/-- The stages of the work on a tree. -/
inductive Stage where
  /-- Dropping empty fields. -/
  | clean
  /-- Dropping free components at the end. -/
  | prune
  /-- Filling up to a common width. -/
  | pad
  /-- Splicing groups into groups. -/
  | flatten
  /-- Dropping repeated children. -/
  | dedupe
  /-- Replacing a group of one by its child. -/
  | unwrap
  /-- Moving an alternation to where its branches differ. -/
  | pushDown
  /-- Ordering the children of groups. -/
  | sort
  /-- Removing a fragment. -/
  | subtract
  /-- Joining alternatives. -/
  | merge
  /-- Encoding as bytes. -/
  | pack
  deriving DecidableEq

/-- The name of a stage. -/
def Stage.name : Stage → String
  | .clean => "clean"
  | .prune => "prune"
  | .pad => "pad"
  | .flatten => "flatten"
  | .dedupe => "dedupe"
  | .unwrap => "unwrap"
  | .pushDown => "push-down"
  | .sort => "sort"
  | .subtract => "subtract"
  | .merge => "merge"
  | .pack => "pack"

/-- Which rule of its operator a node breaks, or that an allowance is out of place. -/
inductive IntegrityFault where
  /-- The operator does not scope parameters of the node's type. -/
  | scope (operator : Operator) (paramType : ParamType)
  /-- The operator takes one child and the node has another number. -/
  | childCount (operator : Operator) (count : Nat)
  /-- The operator needs an operand and the node has none. -/
  | operandMissing (operator : Operator)
  /-- The operator needs an operand of one word and the node's has another length. -/
  | operandLength (operator : Operator) (length : Nat)
  /-- The operator takes no operand and the node has one. -/
  | operandGiven (operator : Operator)
  /-- An allowance of the whole call stands below something else than a whole call. -/
  | misplaced (operator : Operator)
  deriving DecidableEq

/-- Why a tree has no packed form or no address, or why bytes are not a packed tree. -/
inductive EncodingFault where
  /-- The tree has more nodes than a packed form can hold. -/
  | tooManyNodes (count : Nat)
  /-- An operand is longer than a packed form can hold. -/
  | operandTooLong (length : Nat)
  /-- The bytes end where more were announced. -/
  | endOfBytes (offset : Nat)
  /-- The packed form announces no nodes. -/
  | noNodes
  /-- A node's parent does not come before it. -/
  | invalidParent (index parent : Nat)
  /-- A node has a type that no code stands for. -/
  | unknownParamType (index : Nat) (code : UInt8)
  /-- A node has an operator that no code stands for. -/
  | unknownOperator (index : Nat) (code : UInt8)
  /-- Bytes are left over after the last node. -/
  | trailingBytes (count : Nat)
  /-- A packed form is too long for a contract. -/
  | tooLargeToDeploy (length : Nat)
  /-- The bytes of an account are not twenty. -/
  | addressLength (length : Nat)
  deriving DecidableEq

/-- A fault of encoding in words. -/
def EncodingFault.message : EncodingFault → String
  | .tooManyNodes count => s!"condition has {count} nodes, at most 255 can be packed"
  | .operandTooLong length => s!"compValue of {length} bytes exceeds 65535 bytes"
  | .endOfBytes offset => s!"unexpected end of packed condition at byte {offset}"
  | .noNodes => "packed condition has no nodes"
  | .invalidParent index parent => s!"node {index} has invalid parent {parent}"
  | .unknownParamType index code => s!"node {index}: unknown param type {code}"
  | .unknownOperator index code => s!"node {index}: unknown operator {code}"
  | .trailingBytes count => s!"{count} trailing bytes after packed condition"
  | .tooLargeToDeploy length => s!"{length} bytes is too large to deploy"
  | .addressLength length => s!"address must be 20 bytes, got {length}"

namespace Operator

/-- The parameter types that an operator scopes. -/
def scopes : Operator → List ParamType
  | .and | .or | .nor | .xor => [.none]
  | .matches => [.tuple, .array, .calldata, .abiEncoded]
  | .arraySome | .arrayEvery | .arraySubset => [.array]
  | .equalToAvatar => [.static]
  | .equalTo => [.static, .dynamic, .tuple, .array]
  | .greaterThan | .lessThan | .signedIntGreaterThan | .signedIntLessThan => [.static]
  | .bitmask => [.static, .dynamic]
  | .withinAllowance => [.static]
  | .etherWithinAllowance | .callWithinAllowance => [.none]
  | .pass | .custom => ParamType.all

end Operator

/-- A fault of integrity in words. -/
def IntegrityFault.message : IntegrityFault → String
  | .scope op paramType =>
    let expected := ", ".intercalate (op.scopes.map ParamType.name)
    s!"{op.name} cannot scope a {paramType.name} parameter (expected one of {expected})"
  | .childCount op count => s!"{op.name} requires exactly one child, got {count}"
  | .operandMissing op => s!"{op.name} requires a compValue"
  | .operandLength op length => s!"{op.name} requires a 32-byte compValue, got {length} bytes"
  | .operandGiven op => s!"{op.name} does not take a compValue"
  | .misplaced op =>
    s!"{op.name} may only appear at the root or directly below a Calldata/AbiEncoded Matches"

/-- What can go wrong with a condition tree. -/
inductive Error where
  /-- A node of this operator is not well-formed. -/
  | malformed (operator : Operator) (fault : ShapeFault)
  /-- A stage is given what it does not work on. -/
  | invariantViolation (stage : Stage) (detail : String)
  /-- The node at this path of child indices breaks a rule. -/
  | integrity (path : List Nat) (fault : IntegrityFault)
  /-- A tree and bytes do not correspond. -/
  | encoding (fault : EncodingFault)
  /-- A text is not hexadecimal. -/
  | invalidHex (fault : Hex.Fault)
  deriving DecidableEq

namespace Error

/-- A path of child indices from the root, which is written `$`. -/
def pathText (path : List Nat) : String :=
  String.join ("$" :: path.map fun i => s!".{i}")

/-- An error in words. -/
def message : Error → String
  | .malformed op fault => s!"Malformed {op.name} condition: {fault.message}"
  | .invariantViolation stage detail => s!"Invariant violated during {stage.name}: {detail}"
  | .integrity path fault => s!"Integrity check failed at {pathText path}: {fault.message}"
  | .encoding fault => s!"Encoding error: {fault.message}"
  | .invalidHex fault => s!"Invalid hex operand: {fault.message}"

/-- Whether a stage was given what it does not work on, rather than bad input. -/
def isInvariantViolation : Error → Bool
  | .invariantViolation .. => true
  | _ => false

end Error

end CallGuard
