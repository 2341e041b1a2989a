import CallGuard.Condition

/-!
# Drafts

A draft is a tree as it is written and handed over: operands are text, and an operand or a
list of children may be given and yet be empty. `toCondition` checks a draft: of the faults
that it holds, the first in reading order is reported, where a node's operand is read before
its children and the node is put together after them. `clean` leaves out what is given but
empty, and `ofCondition` is the draft of a tree.
-/

namespace CallGuard

/-- A condition tree as it is written. -/
structure Draft where
  /-- The type of the region in scope. -/
  paramType : ParamType
  /-- What is asked of the region. -/
  operator : Operator
  /-- The operand as hexadecimal text. -/
  compValue : Option String
  /-- The conditions on the parts of the region. -/
  children : Option (List Draft)
  deriving Inhabited

namespace Draft

/-- Whether the text of an operand stands for the empty operand. -/
def isEmptyOperand (text : String) : Bool :=
  text == "" || text == "0x" || text == "0X"

/-- The text of an operand, unless it stands for the empty operand. -/
def cleanOperand (compValue : Option String) : Option String :=
  compValue.filter (!isEmptyOperand ·)

/-- A list of children, unless it is empty. -/
def nonempty (children : List Draft) : Option (List Draft) :=
  if children.isEmpty then none else some children

mutual

/-- A draft without empty operands and empty lists of children. -/
def clean : Draft → Draft
  | ⟨paramType, operator, compValue, some children⟩ =>
    ⟨paramType, operator, cleanOperand compValue, nonempty (cleanAll children)⟩
  | ⟨paramType, operator, compValue, none⟩ => ⟨paramType, operator, cleanOperand compValue, none⟩

/-- Drafts without empty operands and empty lists of children. -/
def cleanAll : List Draft → List Draft
  | [] => []
  | d :: ds => clean d :: cleanAll ds

end

/-- The operand that a text writes; none is written by no text. -/
def operand : Option String → Except Error Bytes
  | none => .ok []
  | some text =>
    match Hex.decode text with
    | .ok bytes => .ok bytes
    | .error fault => .error (.invalidHex fault)

mutual

/-- The tree that a draft writes, or its first fault. -/
def toCondition : Draft → Except Error Condition
  | ⟨paramType, operator, compValue, some children⟩ => do
    let bytes ← operand compValue
    let conditions ← toConditions children
    Condition.make paramType operator bytes conditions
  | ⟨paramType, operator, compValue, none⟩ => do
    let bytes ← operand compValue
    Condition.make paramType operator bytes []

/-- The trees that drafts write, or their first fault. -/
def toConditions : List Draft → Except Error (List Condition)
  | [] => .ok []
  | d :: ds => do
    let condition ← toCondition d
    let conditions ← toConditions ds
    .ok (condition :: conditions)

end

theorem cleanAll_eq_map (ds : List Draft) : cleanAll ds = ds.map clean := by
  induction ds with
  | nil => rfl
  | cons d ds ih => rw [cleanAll, ih, List.map_cons]

theorem toConditions_eq_mapM (ds : List Draft) : toConditions ds = ds.mapM toCondition := by
  induction ds with
  | nil => rfl
  | cons d ds ih =>
    rw [toConditions, ih, List.mapM_cons]
    rfl

/-- The draft of a tree. -/
def ofCondition : Condition → Draft :=
  Condition.fold fun paramType operator operand children =>
    ⟨paramType, operator, if operand.isEmpty then none else some (Hex.encode operand),
      nonempty children⟩

end Draft

/-- The tree that a draft writes once it is clean, or its first fault. -/
def Condition.ofDraft (d : Draft) : Except Error Condition :=
  d.clean.toCondition

end CallGuard
