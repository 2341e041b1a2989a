import CallGuard.Double

/-!
# The fewest digits of a double

Many decimal numbers have the same nearest double. `Double.shortest` gives the one of the
fewest digits, and of those the one nearest to the double.

For each number of digits, the candidates are the two neighbours of the double on the grid of
the multiples of a power of ten: if any point of that grid reads back, one of these does.
`readsBack_of_onGrid?` says that what is found on a grid reads back.
-/

namespace CallGuard

namespace Double

/-- Whether a double is the one nearest to a decimal number. -/
def readsBack (x : Double) (d : Decimal) : Bool :=
  ofDecimal? d == some x

/-- The power of ten at the first decimal digit of a double other than zero. The smallest
double has 19 digits before the point when it is multiplied by `10 ^ 342`. -/
def leading (x : Double) : Int :=
  (Nat.toDigits 10 (x.units * Nat.pow 10 342 / unitsOfOne)).length - 343

/-- The multiple of a power of ten next below or above a quotient that reads back; of two the
nearer. -/
def neighbour? (x : Double) (exponent : Int) (num den : Nat) : Option Decimal :=
  let below : Decimal := ⟨num / den, exponent⟩
  let above : Decimal := ⟨num / den + 1, exponent⟩
  if x.readsBack below && x.readsBack above then some ⟨roundDiv num den, exponent⟩
  else if x.readsBack below then some below
  else if x.readsBack above then some above
  else none

/-- The multiple of a power of ten next below or above a double that reads back. -/
def onGrid? (x : Double) (exponent : Int) : Option Decimal :=
  x.neighbour? exponent (x.units * Nat.pow 10 (-exponent).toNat)
    (unitsOfOne * Nat.pow 10 exponent.toNat)

/-- A double as a decimal number, with all its digits. -/
def exact (x : Double) : Decimal :=
  ⟨x.units * Nat.pow 5 1074, -1074⟩

/-- The decimal number of the fewest digits that reads back. The digits run out after 17 at
the latest. -/
def shortest (x : Double) : Decimal :=
  if x.units = 0 then ⟨0, 0⟩
  else
    let found := (List.range 17).findSome? fun (i : Nat) => x.onGrid? (x.leading - i)
    found.getD x.exact

theorem readsBack_of_neighbour? {x : Double} {exponent : Int} {num den : Nat} {d : Decimal}
    (h : x.neighbour? exponent num den = some d) : x.readsBack d = true := by
  simp only [neighbour?, Bool.and_eq_true] at h
  split at h
  · rename_i both
    rw [← Option.some.inj h]
    rcases roundDiv_eq_or num den with e | e <;> rw [e]
    · exact both.1
    · exact both.2
  · split at h
    · rename_i below
      rw [← Option.some.inj h]
      exact below
    · split at h
      · rename_i above
        rw [← Option.some.inj h]
        exact above
      · cases h

theorem readsBack_of_onGrid? {x : Double} {exponent : Int} {d : Decimal}
    (h : x.onGrid? exponent = some d) : x.readsBack d = true :=
  readsBack_of_neighbour? h

end Double

end CallGuard
