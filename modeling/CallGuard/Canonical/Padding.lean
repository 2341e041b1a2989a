import CallGuard.Condition.Id
import CallGuard.Condition.Region
import CallGuard.Condition.Shown

/-!
# Padding

Pruned matches of the same data can have different widths. Before they are compared by
position, the narrower ones are padded with components that accept everything, of the types
that the widest has at those places. Of several widest matches the one with the smallest id
serves as the model, so that the result does not depend on the order of the matches.
-/

namespace CallGuard

namespace Condition

/-- Whether a match serves as a model before another: it is wider, or as wide with the
smaller id. -/
def isBetterModel (a b : Condition) : Bool :=
  let m := a.positional.length
  let n := b.positional.length
  n < m || (n == m && (compare a.id b.id).isLE)

/-- The widest match of a list, the one with the smallest id if there are several. -/
def model? : List Condition → Option Condition
  | [] => none
  | c :: cs =>
    match model? cs with
    | none => some c
    | some d => some (if isBetterModel c d then c else d)

/-- A match with free components of the types of `model` in the places that it lacks, before
its allowances. -/
def padTo (model : List Condition) (c : Condition) : Condition :=
  let own := c.positional
  if model.length ≤ own.length then c
  else
    let filled := (model.drop own.length).map fun d => pass d.slotType
    { c with children := own ++ filled ++ c.allowances }

/-- Matches of one width. -/
def padded (branches : List Condition) : List Condition :=
  match model? branches with
  | none => []
  | some model => branches.map (padTo model.positional)

/-- Matches of one width, for a list that holds nothing else. -/
def padToMatch (branches : List Condition) : Except Error (List Condition) :=
  match branches.find? (·.operator != .matches) with
  | some other =>
    .error (.invariantViolation .pad s!"expected Matches branches, found {other.summary}")
  | none => (padded branches).mapM remade

theorem model?_eq_none_iff (cs : List Condition) : model? cs = none ↔ cs = [] := by
  cases cs with
  | nil => exact ⟨fun _ => rfl, fun _ => rfl⟩
  | cons c cs =>
    constructor
    · intro h
      rw [model?] at h
      split at h <;> cases h
    · intro h
      cases h

theorem length_padded (branches : List Condition) :
    (padded branches).length = branches.length := by
  unfold padded
  cases h : model? branches with
  | none =>
    rw [(model?_eq_none_iff branches).mp h]
  | some model => exact List.length_map _

end Condition

end CallGuard
