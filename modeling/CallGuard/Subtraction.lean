import CallGuard.Canonical.Hinge
import CallGuard.Run

/-!
# Subtraction

Subtracting a fragment from a condition removes one of the paths on which the condition can
be satisfied. It undoes factoring: where factoring combines branches at a hinge, subtraction
finds the hinge at which the fragment differs from the condition and removes the fragment's
part there. What is left keeps the order of the condition.

* An alternation loses each branch of a fragment that is an alternation itself, if it has
  them all; any other fragment is subtracted from each of its branches.
* Two Ands must differ in one child each, two Matches at one position: they *meet* there, and
  the fragment's part is subtracted from the condition's. Open-ended matches of different
  widths are padded first.

`subtract` does so with every node made by the checked constructor. It goes down the
condition, so that the number of nodes bounds its recursion and no run is cut short.
`difference` finds the same without the checks.
-/

namespace CallGuard

/-- What subtracting a fragment leaves of a condition. -/
inductive Subtraction where
  /-- The fragment does not occur; the condition stands as it was. -/
  | unchanged
  /-- The fragment was all of the condition. -/
  | empty
  /-- The fragment is gone and this is left. -/
  | remainder (rest : Condition)
  deriving DecidableEq

namespace Subtraction

/-- The name of an outcome. -/
def name : Subtraction → String
  | .unchanged => "unchanged"
  | .empty => "empty"
  | .remainder _ => "remainder"

/-- Whether the fragment did not occur. -/
def isUnchanged : Subtraction → Bool
  | .unchanged => true
  | _ => false

/-- The condition that an outcome leaves of the one subtracted from; `none` if nothing. -/
def resolve (whole : Condition) : Subtraction → Option Condition
  | .unchanged => some whole
  | .empty => none
  | .remainder rest => some rest

end Subtraction

namespace Condition

/-- Whether two nodes have the same operator, type and number of children. -/
def sameShape (a b : Condition) : Bool :=
  a.operator == b.operator && a.paramType == b.paramType &&
    a.children.length == b.children.length

/-- What an alternation leaves when only some branches remain. -/
def remaining (c : Condition) : List Condition → Subtraction
  | [] => .empty
  | [d] => .remainder d
  | branches => .remainder { c with children := branches }

/-- An alternation less the branches of another, which it must all have. -/
def subtractBranches (c fragment : Condition) : Subtraction :=
  let removed := fragment.childIds
  if removed.all c.childIds.contains then
    c.remaining (c.children.filter fun d => !removed.contains d.id)
  else .unchanged

/-- What an alternation leaves, from its branches each with what is left of it. -/
def collected (c : Condition) (outcomes : List (Condition × Subtraction)) : Subtraction :=
  if outcomes.all (·.2.isUnchanged) then .unchanged
  else c.remaining (outcomes.filterMap fun o => o.2.resolve o.1)

/-! ### Where a fragment meets a condition -/

/-- A place in a condition and the parts of the condition and of a fragment there, which are
all in which the two differ. -/
structure Meeting where
  /-- The condition. -/
  whole : Condition
  /-- The index of the child. -/
  index : Nat
  /-- The child of the condition. -/
  own : Condition
  /-- The child of the fragment. -/
  part : Condition

/-- The place where two nodes differ whose children differ at one index each. -/
def meetingAt? (c fragment : Condition) (i j : Nat) : Option Meeting :=
  match sameShape c fragment, c.children[i]?, fragment.children[j]? with
  | true, some own, some part => some ⟨c, i, own, part⟩
  | _, _, _ => none

/-- Where an And meets another: each has one child that the other lacks. -/
def meetingOfAnds? (c fragment : Condition) : Option Meeting :=
  let own := c.childIds
  let other := fragment.childIds
  match onlyIndex? (fun id => !other.contains id) own,
      onlyIndex? (fun id => !own.contains id) other with
  | some i, some j => meetingAt? c fragment i j
  | _, _ => none

/-- Where a match meets another of the same width: they differ at one position. -/
def meetingOfMatches? (c fragment : Condition) : Option Meeting :=
  match onlyDifference? c.childIds fragment.childIds with
  | some i => meetingAt? c fragment i i
  | none => none

/-- Whether two matches are padded before they are compared: open-ended ones of one type and
of different widths. -/
def needPadding (c fragment : Condition) : Bool :=
  c.paramType == fragment.paramType && c.children.length != fragment.children.length &&
    c.isOpenEnded && fragment.isOpenEnded

/-- Where two matches meet, given what padding makes of them. -/
def meetingOfPadded? (c fragment : Condition) : List Condition → Option Meeting
  | [c, fragment] => meetingOfMatches? c fragment
  | _ => meetingOfMatches? c fragment

/-- Where a fragment meets a condition, if it does. -/
def meeting? (c fragment : Condition) : Option Meeting :=
  match c.operator, fragment.operator with
  | .and, .and => meetingOfAnds? c fragment
  | .matches, .matches =>
    if needPadding c fragment then meetingOfPadded? c fragment (padded [c, fragment])
    else meetingOfMatches? c fragment
  | _, _ => none

/-- `meeting?` with padding made by the checked constructor. -/
def meeting (c fragment : Condition) : Except Error (Option Meeting) :=
  match c.operator, fragment.operator with
  | .matches, .matches =>
    if needPadding c fragment then do
      return meetingOfPadded? c fragment (← padToMatch [c, fragment])
    else .ok (meeting? c fragment)
  | _, _ => .ok (meeting? c fragment)

/-- What is left of a condition, from what is left of its child at the place of a meeting. A
child that would go altogether leaves the condition as it was. -/
def Meeting.replaced (m : Meeting) : Subtraction → Subtraction
  | .remainder rest =>
    .remainder { m.whole with children := m.whole.children.set m.index rest }
  | _ => .unchanged

/-! ### Runs -/

/-- An outcome with the node that is left made by the checked constructor. -/
def remadeOutcome : Subtraction → Except Error Subtraction
  | .remainder rest => .remainder <$> rest.remade
  | outcome => .ok outcome

/-- What is left of a condition without a fragment, for a bound on the depth of the recursion. -/
def subtractWithin : (bound : Nat) → (c fragment : Condition) → Run Subtraction
  | 0, _, _ => Run.cut
  | bound + 1, c, fragment =>
    if c.id = fragment.id then return .empty
    else if c.operator = .or then
      if fragment.operator = .or then Run.of (remadeOutcome (subtractBranches c fragment))
      else do
        let outcomes ← c.children.mapM fun d => do return (d, ← subtractWithin bound d fragment)
        Run.of (remadeOutcome (c.collected outcomes))
    else do
      match ← Run.of (meeting c fragment) with
      | some m => Run.of (remadeOutcome (m.replaced (← subtractWithin bound m.own m.part)))
      | none => return .unchanged

/-- What is left of a condition without a fragment. -/
def subtract (c fragment : Condition) : Run Subtraction :=
  subtractWithin c.nodeCount c fragment

/-! ### The difference -/

/-- What is left of a condition without a fragment, for a bound on the depth of the recursion. -/
def differenceWithin : (bound : Nat) → (c fragment : Condition) → Subtraction
  | 0, _, _ => .unchanged
  | bound + 1, c, fragment =>
    if c.id = fragment.id then .empty
    else if c.operator = .or then
      if fragment.operator = .or then subtractBranches c fragment
      else c.collected (c.children.map fun d => (d, differenceWithin bound d fragment))
    else
      match meeting? c fragment with
      | some m => m.replaced (differenceWithin bound m.own m.part)
      | none => .unchanged

/-- What is left of a condition without a fragment. -/
def difference (c fragment : Condition) : Subtraction :=
  differenceWithin c.nodeCount c fragment

end Condition

end CallGuard
