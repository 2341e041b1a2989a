import CallGuard.Condition

/-!
# Integrity

A well-formed tree still has to make sense before it is deployed: each operator scopes
certain types, takes or refuses an operand, and may take a single child; and an allowance of
the whole call stands at the root or directly below a match of a whole call.

`checkIntegrity` reports the first node in reading order that breaks a rule, with the path
of child indices that leads to it from the root. Of one node, the rules of its operator come
before its place.
-/

namespace CallGuard

/-- What an operator asks of the operand of its nodes. -/
inductive OperandRule where
  /-- Nothing. -/
  | free
  /-- There is none. -/
  | absent
  /-- There is one. -/
  | present
  /-- There is one of 32 bytes. -/
  | word
  deriving DecidableEq

namespace Operator

/-- What the operator asks of the operand. -/
def operandRule : Operator → OperandRule
  | .pass | .equalToAvatar => .absent
  | .equalTo | .bitmask | .custom => .present
  | .greaterThan | .lessThan | .signedIntGreaterThan | .signedIntLessThan => .word
  | .withinAllowance | .etherWithinAllowance | .callWithinAllowance => .word
  | .and | .or | .nor | .xor | .matches | .arraySome | .arrayEvery | .arraySubset => .free

/-- Whether nodes of the operator have exactly one child. -/
def takesOneChild : Operator → Bool
  | .arraySome | .arrayEvery => true
  | _ => false

end Operator

namespace Condition

/-- How the operand of a node breaks the rule of its operator. -/
def operandFault? (c : Condition) : Option IntegrityFault :=
  match c.operator.operandRule, c.operand.length with
  | .free, _ => none
  | .absent, 0 => none
  | .absent, _ => some (.operandGiven c.operator)
  | .present, 0 | .word, 0 => some (.operandMissing c.operator)
  | .present, _ => none
  | .word, n => if n = 32 then none else some (.operandLength c.operator n)

/-- How a node breaks the rules of its operator: types first, then children, then operand. -/
def ruleFault? (c : Condition) : Option IntegrityFault :=
  if c.paramType ∉ c.operator.scopes then some (.scope c.operator c.paramType)
  else if c.operator.takesOneChild ∧ c.children.length ≠ 1 then
    some (.childCount c.operator c.children.length)
  else c.operandFault?

/-- Whether allowances of the whole call may stand directly below a node. -/
def admitsAllowances (c : Condition) : Bool :=
  c.operator == .matches && c.isWholeCall

/-- How a node is out of place below its parent; the root has none. -/
def placeFault? (parent : Option Condition) (c : Condition) : Option IntegrityFault :=
  if c.isGlobalAllowance && !parent.all admitsAllowances then some (.misplaced c.operator)
  else none

/-- How a node below a parent breaks a rule. -/
def fault? (parent : Option Condition) (c : Condition) : Option IntegrityFault :=
  c.ruleFault?.or (placeFault? parent c)

mutual

/-- The first fault in reading order, with the path to it. -/
def firstFault? (parent : Option Condition) : Condition → Option (List Nat × IntegrityFault)
  | ⟨paramType, operator, operand, children⟩ =>
    let c : Condition := ⟨paramType, operator, operand, children⟩
    match c.fault? parent with
    | some fault => some ([], fault)
    | none => firstFaultBelow? c 0 children

/-- The first fault among the children of a node from the one with index `i` on. -/
def firstFaultBelow? (parent : Condition) (i : Nat) :
    List Condition → Option (List Nat × IntegrityFault)
  | [] => none
  | c :: cs =>
    match firstFault? (some parent) c with
    | some (path, fault) => some (i :: path, fault)
    | none => firstFaultBelow? parent (i + 1) cs

end

/-- Accepts a tree that keeps all rules, and reports the first fault otherwise. -/
def checkIntegrity (c : Condition) : Except Error Unit :=
  match firstFault? none c with
  | some (path, fault) => .error (.integrity path fault)
  | none => .ok ()

theorem checkIntegrity_eq_ok_iff (c : Condition) :
    c.checkIntegrity = .ok () ↔ firstFault? none c = none := by
  unfold checkIntegrity
  cases firstFault? none c with
  | none => exact ⟨fun _ => rfl, fun _ => rfl⟩
  | some fault =>
    constructor
    · intro h
      cases h
    · intro h
      cases h

end Condition

end CallGuard
