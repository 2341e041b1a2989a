/-!
# Operators

The operator of a node says what the node asks of the data in its scope. Operators fall
into five kinds; the kind decides whether a node has children. Each operator has a name
and a code below `32`, so that a code fits beside that of a parameter type in one byte.

`ofCode?_code` and `ofName?_name` say that a code and a name each determine the operator.
-/

namespace CallGuard

/-- The broad role of an operator within a tree. -/
inductive OperatorKind where
  /-- Children are evaluated on the same data. -/
  | logical
  /-- Children are the components of the data, by position. -/
  | structural
  /-- Children scope the elements of an array. -/
  | array
  /-- A leaf that compares the data, or accepts all of it. -/
  | comparison
  /-- A leaf that spends from an allowance. -/
  | allowance
  deriving DecidableEq, Inhabited

/-- The name of a kind of operator. -/
def OperatorKind.name : OperatorKind → String
  | .logical => "Logical"
  | .structural => "Structural"
  | .array => "Array"
  | .comparison => "Comparison"
  | .allowance => "Allowance"

/-- What a node asks of the data in its scope. -/
inductive Operator where
  /-- Accepts everything. -/
  | pass
  /-- All children hold. -/
  | and
  /-- Some child holds. -/
  | or
  /-- No child holds. -/
  | nor
  /-- Exactly one child holds. -/
  | xor
  /-- Each component of the data satisfies the child at its position. -/
  | «matches»
  /-- Some element satisfies the child. -/
  | arraySome
  /-- Every element satisfies the child. -/
  | arrayEvery
  /-- The elements are covered by the children. -/
  | arraySubset
  /-- The data is the account that acts. -/
  | equalToAvatar
  /-- The data equals the operand. -/
  | equalTo
  /-- The data is above the operand, as unsigned numbers. -/
  | greaterThan
  /-- The data is below the operand, as unsigned numbers. -/
  | lessThan
  /-- The data is above the operand, as signed numbers. -/
  | signedIntGreaterThan
  /-- The data is below the operand, as signed numbers. -/
  | signedIntLessThan
  /-- The masked bits of the data are those of the operand. -/
  | bitmask
  /-- A check made elsewhere, named by the operand. -/
  | custom
  /-- The data is within an allowance for this parameter. -/
  | withinAllowance
  /-- The value sent along is within an allowance. -/
  | etherWithinAllowance
  /-- The call itself is within an allowance. -/
  | callWithinAllowance
  deriving DecidableEq, Inhabited

namespace Operator

/-- Every operator, by ascending code. -/
def all : List Operator :=
  [.pass, .and, .or, .nor, .xor, .matches, .arraySome, .arrayEvery, .arraySubset,
    .equalToAvatar, .equalTo, .greaterThan, .lessThan, .signedIntGreaterThan,
    .signedIntLessThan, .bitmask, .custom, .withinAllowance, .etherWithinAllowance,
    .callWithinAllowance]

/-- The code of an operator, below `32`. -/
def code : Operator → UInt8
  | .pass => 0
  | .and => 1
  | .or => 2
  | .nor => 3
  | .xor => 4
  | .matches => 5
  | .arraySome => 6
  | .arrayEvery => 7
  | .arraySubset => 8
  | .equalToAvatar => 15
  | .equalTo => 16
  | .greaterThan => 17
  | .lessThan => 18
  | .signedIntGreaterThan => 19
  | .signedIntLessThan => 20
  | .bitmask => 21
  | .custom => 22
  | .withinAllowance => 28
  | .etherWithinAllowance => 29
  | .callWithinAllowance => 30

/-- The operator with a given code. -/
def ofCode? (code : UInt8) : Option Operator :=
  all.find? (·.code == code)

/-- The name of an operator. -/
def name : Operator → String
  | .pass => "Pass"
  | .and => "And"
  | .or => "Or"
  | .nor => "Nor"
  | .xor => "Xor"
  | .matches => "Matches"
  | .arraySome => "ArraySome"
  | .arrayEvery => "ArrayEvery"
  | .arraySubset => "ArraySubset"
  | .equalToAvatar => "EqualToAvatar"
  | .equalTo => "EqualTo"
  | .greaterThan => "GreaterThan"
  | .lessThan => "LessThan"
  | .signedIntGreaterThan => "SignedIntGreaterThan"
  | .signedIntLessThan => "SignedIntLessThan"
  | .bitmask => "Bitmask"
  | .custom => "Custom"
  | .withinAllowance => "WithinAllowance"
  | .etherWithinAllowance => "EtherWithinAllowance"
  | .callWithinAllowance => "CallWithinAllowance"

/-- The operator with a given name. -/
def ofName? (name : String) : Option Operator :=
  all.find? (·.name == name)

/-- The kind of an operator. -/
def kind : Operator → OperatorKind
  | .and | .or | .nor | .xor => .logical
  | .matches => .structural
  | .arraySome | .arrayEvery | .arraySubset => .array
  | .withinAllowance | .etherWithinAllowance | .callWithinAllowance => .allowance
  | _ => .comparison

/-- Whether the operator combines children on the same data. -/
def isLogical (op : Operator) : Bool :=
  op.kind == .logical

/-- Whether nodes of the operator must have children; all others are leaves. -/
def requiresChildren (op : Operator) : Bool :=
  match op.kind with
  | .logical | .structural | .array => true
  | .comparison | .allowance => false

/-- Whether the operator is checked once per call rather than per parameter. -/
def isGlobalAllowance : Operator → Bool
  | .etherWithinAllowance | .callWithinAllowance => true
  | _ => false

theorem ofCode?_code (op : Operator) : ofCode? op.code = some op := by
  cases op <;> rfl

theorem ofName?_name (op : Operator) : ofName? op.name = some op := by
  cases op <;> rfl

end Operator

end CallGuard
