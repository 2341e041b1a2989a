/-!
# Parameter types

A node of a condition tree scopes a region of the data of a call. `ParamType` says how
that region is ABI-encoded. Each type has a name, used in text, and a code, used by
content ids and by the packed encoding, where it takes the upper three bits of a byte.

`ofCode?_code` and `ofName?_name` say that a code and a name each determine the type.
-/

namespace CallGuard

/-- How the region of call data that a node scopes is encoded. -/
inductive ParamType where
  /-- No data of its own: logical nodes and allowances of the whole call. -/
  | none
  /-- A value of one fixed-size word. -/
  | static
  /-- A value of variable size, such as a byte string. -/
  | dynamic
  /-- A sequence of components of possibly different types. -/
  | tuple
  /-- A sequence of elements of one type. -/
  | array
  /-- The outermost data of a function call. -/
  | calldata
  /-- An encoded blob nested in other data. -/
  | abiEncoded
  deriving DecidableEq, Inhabited

namespace ParamType

/-- Every parameter type, by ascending code. -/
def all : List ParamType :=
  [.none, .static, .dynamic, .tuple, .array, .calldata, .abiEncoded]

/-- The code of a parameter type, below `8`. -/
def code : ParamType → UInt8
  | .none => 0
  | .static => 1
  | .dynamic => 2
  | .tuple => 3
  | .array => 4
  | .calldata => 5
  | .abiEncoded => 6

/-- The parameter type with a given code. -/
def ofCode? (code : UInt8) : Option ParamType :=
  all.find? (·.code == code)

/-- The name of a parameter type. -/
def name : ParamType → String
  | .none => "None"
  | .static => "Static"
  | .dynamic => "Dynamic"
  | .tuple => "Tuple"
  | .array => "Array"
  | .calldata => "Calldata"
  | .abiEncoded => "AbiEncoded"

/-- The parameter type with a given name. -/
def ofName? (name : String) : Option ParamType :=
  all.find? (·.name == name)

/-- Whether the type scopes a whole call rather than a parameter of one. -/
def isWholeCall : ParamType → Bool
  | .calldata | .abiEncoded => true
  | _ => false

theorem mem_all (p : ParamType) : p ∈ all := by
  cases p <;> decide

theorem ofCode?_code (p : ParamType) : ofCode? p.code = some p := by
  cases p <;> rfl

theorem ofName?_name (p : ParamType) : ofName? p.name = some p := by
  cases p <;> rfl

end ParamType

end CallGuard
