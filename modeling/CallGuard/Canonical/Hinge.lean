import CallGuard.Canonical.Padding

/-!
# Hinges

Branches of an alternation that agree everywhere but in one place, the *hinge*, can be
written once, with the alternation in that place:

    Or(Matches(a, b), Matches(a, c))   =   Matches(a, Or(b, c))
    Or(And(x, y, z), And(x, w, z))     =   And(x, Or(y, w), z)

Matches differ at a hinge by position: any two of them differ at exactly one position, the
same for all pairs. Ands differ at a hinge by content: each has exactly one child that is not
shared by all. Branches that differ in any other way have no hinge, since writing them once
would then accept more than they do.

`factor?` finds the combined node. `pushDown` builds it, node by node, with the checked
constructor and hands it to a function for further work.
-/

namespace CallGuard

/-- The indices of the elements that satisfy `p`. -/
def indicesWhere {α : Type} (p : α → Bool) (xs : List α) : List Nat :=
  (xs.zipIdx.filter fun x => p x.1).map Prod.snd

/-- The index of the only element that satisfies `p`. -/
def onlyIndex? {α : Type} (p : α → Bool) (xs : List α) : Option Nat :=
  match indicesWhere p xs with
  | [i] => some i
  | _ => none

namespace Condition

/-- The only position at which two lists of ids differ. -/
def onlyDifference? (a b : List ConditionId) : Option Nat :=
  onlyIndex? (fun p => p.1 != p.2) (a.zip b)

/-- The only difference of each pair of an earlier and a later list. -/
def pairDifferences : List (List ConditionId) → List (Option Nat)
  | [] => []
  | row :: rows => rows.map (onlyDifference? row) ++ pairDifferences rows

/-- The position that is the only difference of every pair. -/
def hingePosition? (rows : List (List ConditionId)) : Option Nat :=
  match pairDifferences rows with
  | some i :: others => if others.all (· == some i) then some i else none
  | _ => none

/-- The ids that occur in every list. -/
def sharedIds : List (List ConditionId) → List ConditionId
  | [] => []
  | row :: rows => row.filter fun id => rows.all (·.contains id)

/-- The ids of the children of a node. -/
def childIds (c : Condition) : List ConditionId :=
  c.children.map id

/-- The first of some branches with the alternation of what each has at its hinge. -/
def rebuilt? (branches : List Condition) (hinges : List Nat) : Option Condition :=
  match branches, hinges with
  | template :: _, hinge :: _ =>
    let alternatives := (branches.zip hinges).filterMap fun b => b.1.children[b.2]?
    some { template with children := template.children.set hinge (anyOf alternatives) }
  | _, _ => none

/-- Matches of one width that differ at a hinge by position, as one match. Allowances of the
whole call are never combined. -/
def factorMatched? (matched : List Condition) : Option Condition :=
  let widths := matched.map (·.children.length)
  if widths.all (· == widths.headD 0) then
    match hingePosition? (matched.map childIds), matched with
    | some hinge, template :: _ =>
      if (template.children[hinge]?).any isGlobalAllowance then none
      else rebuilt? matched (matched.map fun _ => hinge)
    | _, _ => none
  else none

/-- Ands that differ at a hinge by content, as one And. -/
def factorAnd? (branches : List Condition) : Option Condition :=
  let rows := branches.map childIds
  let shared := sharedIds rows
  (rows.mapM (onlyIndex? fun id => !shared.contains id)).bind (rebuilt? branches)

/-- The operator of branches that may have a hinge: they scope data of one type, not an array,
and have one operator. -/
def commonOperator? (branches : List Condition) : Option Operator :=
  match branches with
  | [] => none
  | first :: _ =>
    if branches.any (·.paramType != first.paramType) then none
    else if first.paramType = .array then none
    else if branches.any (·.operator != first.operator) then none
    else some first.operator

/-- The branches of an alternation as one node, if they have a hinge. -/
def factor? (branches : List Condition) : Option Condition :=
  match commonOperator? branches with
  | some .matches => factorMatched? (padded branches)
  | some .and => factorAnd? branches
  | _ => none

/-! ### Pushing down -/

/-- A node and its children as the checked constructor makes them. -/
def remadeWithChildren (c : Condition) : Except Error Condition := do
  c.withChildren (← c.children.mapM remade)

/-- `factor?` with every node that it builds made by the checked constructor. -/
def factor (branches : List Condition) : Except Error (Option Condition) :=
  match commonOperator? branches with
  | some .matches => do (factorMatched? (← padToMatch branches)).mapM remadeWithChildren
  | some .and => (factorAnd? branches).mapM remadeWithChildren
  | _ => .ok none

/-- Accepts a node whose branches can be looked at for a hinge: an alternation of more than
one. -/
def checkAlternation (c : Condition) : Except Error Unit :=
  if c.operator ≠ .or then
    .error (.invariantViolation .pushDown s!"expected an Or node, got {c.summary}")
  else if c.children.length < 2 then
    .error (.invariantViolation .pushDown s!"Or must have more than one child, got {c.summary}")
  else .ok ()

/-- The node that an alternation factors into; `none` if its branches have no hinge. -/
def factorAlternation (c : Condition) : Except Error (Option Condition) := do
  checkAlternation c
  factor c.children

/-- The result of `further` on the node that an alternation factors into; `none` if its branches
have no hinge. -/
def pushDown {m : Type → Type} [Monad m] [MonadLiftT (Except Error) m]
    (further : Condition → m Condition) (c : Condition) : m (Option Condition) := do
  match ← (factorAlternation c : Except Error _) with
  | none => return none
  | some d => some <$> further d

end Condition

end CallGuard
