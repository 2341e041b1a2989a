import CallGuard.Double.Shortest
import CallGuard.Json.Token

/-!
# Numbers of JSON

The value of a number literal. Whole numbers from `-2 ^ 63` to `2 ^ 64 - 1` written without
fraction and exponent are kept; every other literal stands for a double, found in steps with
a rounding in each: the digits that fit in 64 bits are rounded, and the result is multiplied
or divided by a power of ten. So the double may be a neighbour of the one nearest to the
literal. A literal that gets too large on the way has no value.
-/

namespace CallGuard

namespace Json

/-- A number literal in its parts. -/
structure Numeral where
  /-- Whether it has a sign. -/
  negative : Bool
  /-- The digits before the point. -/
  before : List Char
  /-- The digits after the point, which may be missing. -/
  after : List Char
  /-- The exponent, if one is written. -/
  exponent : Option Int

namespace Numeral

/-- The exponent of a literal from its mark on, if there is one. -/
def exponentOf : List Char → Option Int
  | [] => none
  | _ :: text =>
    let (sign, digits) := Token.spanSign ['+', '-'] text
    some (if sign = ['-'] then -Text.numberOf 10 digits else Text.numberOf 10 digits)

/-- The parts of a literal. -/
def ofLiteral (literal : List Char) : Numeral :=
  let (sign, text) := Token.spanSign ['-'] literal
  let (before, text) := Token.spanDigits text
  match text with
  | '.' :: text =>
    let (after, text) := Token.spanDigits text
    ⟨!sign.isEmpty, before, after, exponentOf text⟩
  | text => ⟨!sign.isEmpty, before, [], exponentOf text⟩

/-- Whether a literal has neither a fraction nor an exponent. -/
def isInteger (n : Numeral) : Bool :=
  n.after.isEmpty && n.exponent.isNone

end Numeral

/-- The value of a number literal. -/
inductive Number where
  /-- A whole number. -/
  | whole (value : Int)
  /-- A double with a sign. -/
  | floating (negative : Bool) (magnitude : Double)
  deriving DecidableEq

namespace Number

/-- Digits appended to a significand as long as it fits in 64 bits, and the number of digits
that are left over. -/
def extend (significand : Nat) : List Char → Nat × Nat
  | [] => (significand, 0)
  | c :: rest =>
    let longer := 10 * significand + (Text.hexValue? c).getD 0
    if longer < Nat.pow 2 64 then extend longer rest else (significand, rest.length + 1)

/-- The greatest power of ten that a double is multiplied or divided by at once. -/
def maxPower : Nat := 308

/-- A double multiplied by a power of ten; none but zero is, if the power is above the
greatest. -/
def scaleUp? (x : Double) (power : Nat) : Option Double :=
  if power ≤ maxPower then (Double.ofQuotient? (Nat.pow 10 power) 1).bind x.mul?
  else if x = .zero then some x
  else none

/-- A double divided by a power of ten, by the greatest as long as it is above that. -/
def scaleDown? (x : Double) (power : Nat) : Option Double :=
  if power ≤ maxPower then (Double.ofQuotient? (Nat.pow 10 power) 1).bind x.div?
  else if x = .zero then some x
  else
    ((Double.ofQuotient? (Nat.pow 10 maxPower) 1).bind x.div?).bind fun y =>
      scaleDown? y (power - maxPower)
termination_by power
decreasing_by simp [maxPower] at *; omega

/-- The double that a literal stands for, without its sign. -/
def magnitude? (n : Numeral) : Option Double :=
  let (start, leftBefore) := extend 0 n.before
  let (significand, leftAfter) := extend start n.after
  let power : Int := leftBefore + leftAfter - n.after.length + n.exponent.getD 0
  (Double.ofQuotient? significand 1).bind fun x =>
    if 0 ≤ power then scaleUp? x power.toNat else scaleDown? x (-power).toNat

/-- The value of a literal as a whole number, if it is one and is kept. -/
def whole? (n : Numeral) : Option Int :=
  let value := Text.numberOf 10 n.before
  if !n.isInteger then none
  else if n.negative then if 0 < value ∧ value ≤ Nat.pow 2 63 then some (-value) else none
  else if value < Nat.pow 2 64 then some value
  else none

/-- The value of a literal, unless it is too large. -/
def ofLiteral? (literal : List Char) : Option Number :=
  let n := Numeral.ofLiteral literal
  match whole? n with
  | some value => some (.whole value)
  | none => (magnitude? n).map (.floating n.negative)

/-- Doubles are written in full from `0.00001` up to below `10 ^ 16`, and others with an
exponent of at least two digits. -/
def layout : Decimal.Layout where
  lowest := -5
  highest := 15
  exponentWidth := 2

/-- A number as it is written. -/
def text : Number → List Char
  | .whole value => (toString value).toList
  | .floating negative magnitude =>
    let digits := magnitude.shortest.text layout
    if negative then '-' :: digits else digits

end Number

end Json

end CallGuard
