import CallGuard.Condition.Id

/-!
# Groups

A logical group combines conditions on the same data. In canonical form a group of And or Or
holds no group of the same operator (`flatten`), no child twice (`dedupe`), more than one
child (`unwrap`), and its children in canonical order (`sort`): those that scope a whole call
first, then by ascending id. Nor groups are deduplicated and sorted too, but never unwrapped,
since a single child of Nor must not hold. Xor groups are left as they are: not deduplicated,
since repeating a child of Xor changes what it says, and not sorted either.

Each step works on one node and leaves the children as they are. `sort` is stable.
-/

namespace CallGuard

namespace Operator

/-- Whether a group of the operator can take in the children of a child with the same
operator, and can be replaced by its only child. -/
def isAssociative : Operator → Bool
  | .and | .or => true
  | _ => false

/-- Whether a group of the operator is determined by the set of its children. -/
def isSetLike : Operator → Bool
  | .and | .or | .nor => true
  | _ => false

end Operator

namespace Condition

/-- A node of And or Or with the children of every child of the same operator in place of
that child. -/
def flatten (c : Condition) : Condition :=
  if c.operator.isAssociative then
    { c with children := c.children.flatMap fun d =>
        if d.operator = c.operator then d.children else [d] }
  else c

/-- Trees beside their ids. -/
def keyed (cs : List Condition) : List (ConditionId × Condition) :=
  cs.map fun d => (d.id, d)

/-- The trees whose key is not among those seen, each key at its first place. -/
def firstByKey (seen : List ConditionId) : List (ConditionId × Condition) → List Condition
  | [] => []
  | (key, d) :: rest =>
    if key ∈ seen then firstByKey seen rest else d :: firstByKey (key :: seen) rest

/-- The trees of a list, each at its first place. -/
def distinct : List Condition → List Condition
  | [] => []
  | [c] => [c]
  | cs => firstByKey [] (keyed cs)

/-- A node of And, Or or Nor without the children that repeat an earlier one. -/
def dedupe (c : Condition) : Condition :=
  if c.operator.isSetLike then { c with children := distinct c.children } else c

/-- The only child of a node of And or Or; any other node as it is. -/
def unwrap (c : Condition) : Condition :=
  match c.operator.isAssociative, c.children with
  | true, [d] => d
  | _, _ => c

/-- Whether a tree may stand before another in canonical order, given their ids. -/
def inOrder (a b : ConditionId × Condition) : Bool :=
  if a.2.isWholeCall = b.2.isWholeCall then (compare a.1 b.1).isLE else a.2.isWholeCall

/-- Trees in canonical order. -/
def sorted : List Condition → List Condition
  | [] => []
  | [c] => [c]
  | cs => ((keyed cs).mergeSort inOrder).map Prod.snd

/-- A node of And, Or or Nor with its children in canonical order. -/
def sort (c : Condition) : Condition :=
  if c.operator.isSetLike then { c with children := sorted c.children } else c

theorem distinct_eq (cs : List Condition) : distinct cs = firstByKey [] (keyed cs) := by
  match cs with
  | [] => rfl
  | [c] => rfl
  | _ :: _ :: _ => rfl

theorem sorted_eq (cs : List Condition) :
    sorted cs = ((keyed cs).mergeSort inOrder).map Prod.snd := by
  match cs with
  | [] => simp [sorted, keyed]
  | [c] => simp [sorted, keyed]
  | _ :: _ :: _ => rfl

end Condition

end CallGuard
