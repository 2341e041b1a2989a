import CallGuard.Canonical.Groups
import CallGuard.Canonical.Hinge
import CallGuard.Canonical.Pruning
import CallGuard.Run

/-!
# Normal form

The normal form of a tree is found from the leaves up: the children of a node are in normal
form before the node itself is settled. A node is pruned, flattened, deduplicated and
unwrapped; the branches of an alternation are then factored at their hinge, if they have
one, and the resulting node is brought into normal form in turn; last, the children of
groups are sorted. Factoring can be switched off.

`normalize` does so with every node made by the checked constructor: a step that fails ends
it. The number of nodes bounds its recursion: children have fewer nodes than their parent, and
so has what an alternation factors into, so that no run is cut short. `merge` joins
alternatives in normal form, and `equivalent` compares normal forms.

`normalForm` finds the same tree by the same steps without the checks.
-/

namespace CallGuard

namespace Condition

/-! ### Runs -/

/-- A node as it is before factoring: pruned, flattened, deduplicated and unwrapped. -/
def prepare (c : Condition) : Except Error Condition := do
  let c ← c.prune.remade
  let c ← c.flatten.remade
  let c ← c.dedupe.remade
  return c.unwrap

/-- The node that is to be brought into normal form in place of a prepared one, if any. -/
def replacement? (pushDown : Bool) (c : Condition) : Except Error (Option Condition) :=
  if pushDown ∧ c.operator = .or then factorAlternation c else .ok none

/-- A tree in normal form, for a bound on the depth of the recursion. -/
def normalizeWithin (pushDown : Bool) : (bound : Nat) → Condition → Run Condition
  | 0, _ => Run.cut
  | bound + 1, c => do
    let c ←
      if c.isLeaf then pure c
      else do
        let children ← c.children.mapM (normalizeWithin pushDown bound)
        Run.of (make c.paramType c.operator [] children)
    let c ← Run.of c.prepare
    let c ← match ← Run.of (c.replacement? pushDown) with
      | some d => normalizeWithin pushDown bound d
      | none => pure c
    Run.of c.sort.remade

/-- A tree in normal form, with or without factoring of alternations. -/
def normalize (pushDown : Bool) (c : Condition) : Run Condition :=
  normalizeWithin pushDown c.nodeCount c

/-- Whether two trees have the same normal form. -/
def equivalent (pushDown : Bool) (a b : Condition) : Run Bool := do
  return (← normalize pushDown a).id == (← normalize pushDown b).id

/-- Alternatives as one tree in normal form. -/
def merge (pushDown : Bool) (variants : List Condition) : Run Condition := do
  if variants.isEmpty then throw (.invariantViolation .merge "no variants to merge")
  normalize pushDown (← Run.of (make .none .or [] variants))

/-! ### The normal form -/

/-- The factored form of an alternation, by `again` in normal form; any other node as it is. -/
def factored (again : Condition → Condition) (c : Condition) : Condition :=
  if c.operator = .or then
    match factor? c.children with
    | some d => again d
    | none => c
  else c

/-- A node as it is before factoring. -/
def prepared (c : Condition) : Condition :=
  c.prune.flatten.dedupe.unwrap

/-- A node in normal form, for a node with children in normal form. -/
def settle (pushDown : Bool) (again : Condition → Condition) (c : Condition) : Condition :=
  (if pushDown then c.prepared.factored again else c.prepared).sort

/-- The normal form of a tree, for a bound on the depth of the recursion. -/
def normalFormWithin (pushDown : Bool) : (bound : Nat) → Condition → Condition
  | 0, c => c
  | bound + 1, c =>
    settle pushDown (normalFormWithin pushDown bound)
      { c with children := c.children.map (normalFormWithin pushDown bound) }

/-- The normal form of a tree, with or without factoring of alternations. -/
def normalForm (pushDown : Bool) (c : Condition) : Condition :=
  normalFormWithin pushDown c.nodeCount c

end Condition

end CallGuard
