import KernelIR.Binary64
import KernelIR.Decimal

/-!
# Rounding to double precision

Exact quotients and decimal numbers are rounded to the nearest `Binary64`, a tie going
to the even magnitude. Everything is exact arithmetic on natural numbers :
`Binary64.nearest` takes a size in multiples of `2 ^ -1074` as a quotient, finds the
power of two `2 ^ p` that is its last place, and rounds to a whole number of those. The
magnitudes of one binade follow those of the binade below it, so the magnitude is that
whole number plus `p` binades, also when rounding reaches the next power of two.
-/

namespace KernelIR

/-- The natural number nearest to `a / d`, the even one of two that are as near. -/
def roundQuotient (a d : Nat) : Nat :=
  if 2 * (a % d) < d ∨ (2 * (a % d) = d ∧ a / d % 2 = 0) then a / d else a / d + 1

namespace Binary64

/-- The exponent of the last place of a number of size `a / d` units : a significand has
at most 53 bits, and no place is below one unit. -/
def lastPlace (a d : Nat) : Nat :=
  (a / d).log2 - 52

/-- The magnitude nearest to the size `a / d` units. -/
def nearest (a d : Nat) : Nat :=
  min (lastPlace a d * binade + roundQuotient a (d * Nat.pow 2 (lastPlace a d))) infinityBits

/-- The number nearest to `± a / d`. -/
def ofRatio (negative : Bool) (a d : Nat) : Binary64 :=
  ofMagnitude negative (nearest (a * Nat.pow 2 1074) d)

/-- The number nearest to an integer. The zero has no sign. -/
def ofInt (i : Int) : Binary64 :=
  ofRatio (i < 0) i.natAbs 1

/-- The number nearest to `± d`. The first digit of a finite number other than zero has an
exponent between `-324` and `308`, so decimals far outside are decided by their exponent
alone, whatever its size. -/
def ofDecimal (negative : Bool) (d : Decimal) : Binary64 :=
  if d.coefficient = 0 ∨ d.leading < -400 then ofMagnitude negative 0
  else if 400 < d.exponent then infinity negative
  else
    ofRatio negative (d.coefficient * Nat.pow 10 d.exponent.toNat) (Nat.pow 10 (-d.exponent).toNat)

end Binary64

end KernelIR
