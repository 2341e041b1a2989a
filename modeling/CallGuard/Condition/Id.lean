import CallGuard.Condition
import CallGuard.Hash.Sha256

/-!
# Content ids

The id of a tree is a hash of its content. A leaf hashes its type, operator and operand; a
node with children hashes its type, operator and the ids of its children in order. A first
byte keeps the two apart, and lengths come before what they count, so that different trees
hash different byte strings as long as the ids of their children differ.

Trees are compared by id throughout: they count as equal when their ids are. Ids are
ordered as the numbers that their bytes write.
-/

namespace CallGuard

/-- The id of a condition tree. -/
structure ConditionId where
  /-- The hash. -/
  digest : Bytes32
  deriving DecidableEq

namespace ConditionId

instance : Ord ConditionId :=
  ⟨fun a b => compare a.digest b.digest⟩

/-- An id as text. -/
def text (id : ConditionId) : String :=
  Hex.encode id.digest.bytes

/-- An id as text, cut after its first twelve digits. -/
def shortText (id : ConditionId) : String :=
  s!"ConditionId({String.ofList ((Hex.digits id.digest.bytes).take 12)}…)"

end ConditionId

namespace Condition

/-- The bytes that the id of a leaf hashes. -/
def leafPreimage (paramType : ParamType) (operator : Operator) (operand : Bytes) : Bytes :=
  0x00 :: paramType.code :: operator.code :: (bigEndian 8 operand.length ++ operand)

/-- The bytes that the id of a node with children hashes. -/
def branchPreimage (paramType : ParamType) (operator : Operator) (ids : List ConditionId) :
    Bytes :=
  0x01 :: paramType.code :: operator.code ::
    (bigEndian 8 ids.length ++ ids.flatMap fun id => id.digest.bytes)

/-- The bytes that the id of a node hashes, from the ids of its children. -/
def preimage (paramType : ParamType) (operator : Operator) (operand : Bytes)
    (ids : List ConditionId) : Bytes :=
  if ids.isEmpty then leafPreimage paramType operator operand
  else branchPreimage paramType operator ids

/-- The id of a tree. -/
def id : Condition → ConditionId :=
  fold fun paramType operator operand ids =>
    ⟨Sha256.digest (preimage paramType operator operand ids)⟩

theorem id_eq (c : Condition) :
    c.id = ⟨Sha256.digest (preimage c.paramType c.operator c.operand (c.children.map id))⟩ :=
  fold_eq _ c

end Condition

end CallGuard
