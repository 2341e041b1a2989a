import CallGuard.Condition

/-!
# Conditions as text

Two texts of a tree: `summary` is a single line of operators, with types in angle brackets,
long operands cut in the middle and children in parentheses; `outline` names every field.
-/

namespace CallGuard

namespace Condition

/-- An operand of more than eight bytes is cut to its first two and last two. -/
def operandSummary (operand : Bytes) : String :=
  if operand.length > 8 then
    let first := Hex.digits (operand.take 2)
    let last := Hex.digits (operand.drop (operand.length - 2))
    String.ofList ('0' :: 'x' :: (first ++ '…' :: last))
  else Hex.encode operand

/-- A tree on one line. -/
def summary : Condition → String :=
  fold fun paramType operator operand children =>
    let scope := if paramType = .none then "" else s!"<{paramType.name}>"
    let value := if operand.isEmpty then "" else s!"[{operandSummary operand}]"
    let inner := if children.isEmpty then "" else "(" ++ ", ".intercalate children ++ ")"
    operator.name ++ scope ++ value ++ inner

/-- A tree with its fields by name; an operand or children that are absent are left out. -/
def outline : Condition → String :=
  fold fun paramType operator operand children =>
    let value := if operand.isEmpty then "" else s!", comp_value: {Hex.encode operand}"
    let inner :=
      if children.isEmpty then "" else ", children: [" ++ ", ".intercalate children ++ "]"
    "Condition \x7b param_type: " ++ paramType.name ++ ", operator: " ++ operator.name ++
      value ++ inner ++ " \x7d"

end Condition

end CallGuard
