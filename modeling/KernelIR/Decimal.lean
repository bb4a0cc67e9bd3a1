import KernelIR.Numeral

/-!
# Decimal numbers

A `Decimal` is a natural number times a power of ten. `Decimal.positional` and
`Decimal.scientific` are its two written forms; both always tell the number apart from
an integer, the first by a fraction and the second by an exponent.
-/

namespace KernelIR

/-- The number `coefficient * 10 ^ exponent`. -/
structure Decimal where
  coefficient : Nat
  exponent : Int
deriving DecidableEq

namespace Decimal

/-- The exponent of the first digit : `e` for a number from `10 ^ e` to below `10 ^ (e + 1)`. -/
def leading (d : Decimal) : Int :=
  (natText d.coefficient).length + d.exponent - 1

/-- All digits in their places, with at least one digit after the point. -/
def positional (d : Decimal) : List Char :=
  let digits := natText d.coefficient
  match d.exponent with
  | .ofNat zeros => digits ++ List.replicate zeros '0' ++ ['.', '0']
  | .negSucc k =>
    let places := k + 1
    if places < digits.length then
      digits.take (digits.length - places) ++ '.' :: digits.drop (digits.length - places)
    else
      '0' :: '.' :: List.replicate (places - digits.length) '0' ++ digits

/-- One digit in front of the point, and the exponent of that digit. There is no point
if there are no further digits. -/
def scientific (d : Decimal) : List Char :=
  let digits := natText d.coefficient
  let fraction := if digits.length = 1 then [] else '.' :: digits.drop 1
  digits.take 1 ++ fraction ++ 'e' :: intText d.leading

end Decimal

end KernelIR
