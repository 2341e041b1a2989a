import CallGuard.Error

/-!
# Runs

Some work on trees calls itself on trees that it has just built, so that whether it ends is a
matter of proof. A `Run` goes to a bounded depth: it gives an error or a result, or is cut short.
-/

namespace CallGuard

/-- An error or a result, if the work ends within its bound. -/
abbrev Run := ExceptT Error Option

namespace Run

/-- The run that is cut short. -/
def cut {α : Type} : Run α :=
  ExceptT.mk none

/-- The run that fails or ends with a result at once. -/
def of {α : Type} (result : Except Error α) : Run α :=
  ExceptT.mk (some result)

/-- The result of a run, if it ends with one. -/
def result? {α : Type} (r : Run α) : Option α :=
  r.run.bind Except.toOption

@[simp] theorem of_ok {α : Type} (a : α) : of (.ok a) = pure a :=
  rfl

theorem result?_eq_some_iff {α : Type} {r : Run α} {a : α} : r.result? = some a ↔ r = pure a := by
  constructor
  · intro h
    obtain ⟨e, ended, h⟩ := Option.bind_eq_some_iff.mp h
    cases e with
    | error e => cases h
    | ok b =>
      cases h
      exact ended
  · rintro rfl
    rfl

theorem pure_inj {α : Type} {a b : α} : (pure a : Run α) = pure b ↔ a = b := by
  rw [← result?_eq_some_iff]
  exact Option.some_inj

end Run

end CallGuard
