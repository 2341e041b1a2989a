import CallGuard.Condition.Region

/-!
# Pruning

A component that accepts everything constrains nothing, so those at the end of an open-ended
match are left out. The first component always stays; in a tuple of variable size so does
everything up to the first component of variable size, without which the tuple would read as
one of fixed size. Allowances of the whole call scope no component: they are kept, after the
components.
-/

namespace CallGuard

namespace Condition

/-- How many leading components of an open-ended match are always kept. -/
def retained (c : Condition) : Nat :=
  let components := c.positional
  let first := min 1 components.length
  if c.paramType = .tuple then
    match components.findIdx? isDynamic with
    | some i => max first (i + 1)
    | none => first
  else first

/-- Components without the free ones at the end, of which at least the first `keep` stay. -/
def dropFreeTail (keep : Nat) (components : List Condition) : List Condition :=
  components.take keep ++ ((components.drop keep).reverse.dropWhile isPass).reverse

/-- An open-ended match without free components at its end and with its allowances last; any
other node as it is. -/
def prune (c : Condition) : Condition :=
  if c.operator = .matches ∧ c.isOpenEnded then
    { c with children := dropFreeTail c.retained c.positional ++ c.allowances }
  else c

/-- What is dropped stands at the end. -/
theorem dropFreeTail_isPrefix (keep : Nat) (components : List Condition) :
    dropFreeTail keep components <+: components := by
  obtain ⟨tail, h⟩ : (components.drop keep).reverse.dropWhile isPass <:+
      (components.drop keep).reverse := List.dropWhile_suffix _
  refine ⟨tail.reverse, ?_⟩
  have kept := congrArg List.reverse h
  rw [List.reverse_append, List.reverse_reverse] at kept
  rw [dropFreeTail, List.append_assoc, kept, List.take_append_drop]

end Condition

end CallGuard
