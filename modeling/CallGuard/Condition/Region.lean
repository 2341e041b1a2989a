import CallGuard.Condition

/-!
# The region that a condition scopes

Logical nodes have no type of their own and take that of what they combine. `isDynamic`
says whether the encoding of a region has a variable size; `slotType` is the type that a
component decodes as.
-/

namespace CallGuard

namespace Condition

/-- Whether the encoding of the region in scope has a variable size. A tuple has one if a
component has, and a node without a type of its own if a child has. -/
def isDynamic : Condition → Bool :=
  fold fun paramType _ _ children =>
    match paramType with
    | .dynamic | .array | .calldata | .abiEncoded => true
    | .static => false
    | .tuple | .none => children.any (· == true)

theorem isDynamic_eq (c : Condition) :
    c.isDynamic = match c.paramType with
      | .dynamic | .array | .calldata | .abiEncoded => true
      | .static => false
      | .tuple | .none => c.children.any isDynamic := by
  rw [isDynamic, fold_eq _ c]
  cases c.paramType <;> simp [List.any_map, Function.comp_def]

/-- The type that a component decodes as: a node without a type takes that of its first
child. -/
def slotType : Condition → ParamType :=
  fold fun paramType _ _ children =>
    match paramType, children with
    | .none, first :: _ => first
    | _, _ => paramType

theorem slotType_eq (c : Condition) :
    c.slotType = match c.paramType, c.children with
      | .none, first :: _ => first.slotType
      | paramType, _ => paramType := by
  rw [slotType, fold_eq _ c]
  cases c.paramType <;> cases c.children <;> rfl

/-- Whether a node matches components of which those at the end may be left out when they
are free: those of a whole call, or of a tuple of variable size. The components of a tuple
of fixed size each take their place in the encoding. -/
def isOpenEnded (c : Condition) : Bool :=
  c.isWholeCall || (c.paramType == .tuple && c.isDynamic)

/-- The children that scope components by position. -/
def positional (c : Condition) : List Condition :=
  c.children.filter fun d => !d.isGlobalAllowance

/-- The children that are allowances of the whole call. -/
def allowances (c : Condition) : List Condition :=
  c.children.filter isGlobalAllowance

end Condition

end CallGuard
