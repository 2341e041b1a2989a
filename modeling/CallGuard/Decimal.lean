/-!
# Decimal numbers

A decimal number is a whole number times a power of ten. `Decimal.text` writes one with a
point: in full, or, if its first digit stands far from the point, with an exponent.
`Decimal.Layout` says how far that is.
-/

namespace CallGuard

/-- The number `significand * 10 ^ exponent`. -/
structure Decimal where
  /-- The digits, as a whole number. -/
  significand : Nat
  /-- The power of ten that the last digit counts. -/
  exponent : Int
  deriving DecidableEq

namespace Decimal

/-- How numbers are written. -/
structure Layout where
  /-- The least power of ten at the first digit of a number that is written in full. -/
  lowest : Int
  /-- The greatest power of ten at the first digit of a number that is written in full. -/
  highest : Int
  /-- The least number of digits of an exponent. -/
  exponentWidth : Nat

/-- The digits of the significand. -/
def digits (d : Decimal) : List Char :=
  Nat.toDigits 10 d.significand

/-- The power of ten that the first digit counts. -/
def leading (d : Decimal) : Int :=
  d.exponent + d.digits.length - 1

/-- The digits without the zeros at their end. -/
def plainDigits (d : Decimal) : List Char :=
  (d.digits.reverse.dropWhile (· == '0')).reverse

/-- Digits in full, the first of which counts the power `leading` of ten, with at least one
digit on each side of the point. -/
def positional (digits : List Char) (leading : Int) : List Char :=
  if leading < 0 then
    '0' :: '.' :: (List.replicate (-leading - 1).toNat '0' ++ digits)
  else
    let places := leading.toNat + 1
    let whole := digits.take places ++ List.replicate (places - digits.length) '0'
    let fraction := digits.drop places
    whole ++ '.' :: (if fraction.isEmpty then ['0'] else fraction)

/-- An exponent with its sign, filled up with zeros to a number of digits. -/
def exponentText (width : Nat) (exponent : Int) : List Char :=
  let digits := Nat.toDigits 10 exponent.natAbs
  let filled := List.replicate (width - digits.length) '0' ++ digits
  (if exponent < 0 then '-' else '+') :: filled

/-- Digits with the point after the first, and an exponent. -/
def scientific (width : Nat) (digits : List Char) (leading : Int) : List Char :=
  let fraction := digits.drop 1
  let point := if fraction.isEmpty then [] else ['.']
  digits.take 1 ++ point ++ fraction ++ 'e' :: exponentText width leading

/-- A decimal number as it is written. -/
def text (layout : Layout) (d : Decimal) : List Char :=
  if layout.lowest ≤ d.leading ∧ d.leading ≤ layout.highest then
    positional d.plainDigits d.leading
  else scientific layout.exponentWidth d.plainDigits d.leading

end Decimal

end CallGuard
