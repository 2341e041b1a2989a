import CallGuard.Draft
import CallGuard.Json.Token

/-!
# Drafts as JSON

A draft is written as an object with its type, its operator, its operand and its children in
this order; an operand or children that are absent are left out.
-/

namespace CallGuard

namespace Draft

open Json

/-- The fields of a draft before its children. -/
def fields (paramType : ParamType) (operator : Operator) (compValue : Option String) :
    List (String × List Token) :=
  [("paramType", [.string (some paramType.name)]), ("operator", [.string (some operator.name)])] ++
    (compValue.map fun text => ("compValue", [.string (some text)])).toList

mutual

/-- The tokens of a draft. -/
def tokens : Draft → List Token
  | ⟨paramType, operator, compValue, some children⟩ =>
    let members := Token.array (tokensOfAll children)
    Token.object (fields paramType operator compValue ++ [("children", members)])
  | ⟨paramType, operator, compValue, none⟩ => Token.object (fields paramType operator compValue)

/-- The tokens of each draft of a list. -/
def tokensOfAll : List Draft → List (List Token)
  | [] => []
  | d :: ds => tokens d :: tokensOfAll ds

end

theorem tokensOfAll_eq_map (ds : List Draft) : tokensOfAll ds = ds.map tokens := by
  induction ds with
  | nil => rfl
  | cons d ds ih => rw [tokensOfAll, ih, List.map_cons]

/-- A draft as JSON without blanks. -/
def json (d : Draft) : String :=
  String.ofList (Token.compact d.tokens)

end Draft

namespace Condition

/-- A tree as JSON without blanks. -/
def json (c : Condition) : String :=
  (Draft.ofCondition c).json

/-- A tree as JSON with a line for each member. -/
def prettyJson (c : Condition) : String :=
  String.ofList (Json.Token.indented 0 (Draft.ofCondition c).tokens)

end Condition

end CallGuard
