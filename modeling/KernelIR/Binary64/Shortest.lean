import KernelIR.Binary64.Rounding

/-!
# The text of a double-precision number

A finite number is written with the fewest decimal digits that read back as it.
`Binary64.shortest` finds them : for one digit, two digits and so on it tries the two
decimals with that many digits that enclose the number, and takes the first that
`Binary64.ofDecimal` reads back; of two the nearer, and the upper one on a tie.
Seventeen digits are enough, and the exact expansion stands behind the search.

`Binary64.text` writes sizes from `10 ^ -4` to below `10 ^ 16` in positional notation
and all others in scientific notation.
-/

namespace KernelIR

namespace Binary64

/-- The exponent of the first decimal digit of a positive number. -/
def leading (x : Binary64) : Int :=
  (natText (units x.magnitude * Nat.pow 10 400 / Nat.pow 2 1074)).length - 401

/-- The size of a finite number with all its decimals. -/
def expansion (x : Binary64) : Decimal :=
  ⟨units x.magnitude * Nat.pow 5 1074, -1074⟩

def readsBack (x : Binary64) (d : Decimal) : Bool :=
  ofDecimal x.negative d == x

/-- The decimal nearest to a positive number among the two with last place `place` that
enclose it, if one of them reads back. `count` is the number of digits down to that
place; the upper decimal may need one more, and is a power of ten then. -/
def withDigits? (x : Binary64) (place : Int) (count : Nat) : Option Decimal :=
  let size := units x.magnitude * Nat.pow 10 (-place).toNat
  let step := Nat.pow 2 1074 * Nat.pow 10 place.toNat
  let lower := size / step
  let below : Decimal := ⟨lower, place⟩
  let above : Decimal :=
    if lower + 1 = Nat.pow 10 count then ⟨1, place + count⟩ else ⟨lower + 1, place⟩
  if x.readsBack below && (!x.readsBack above || 2 * (size % step) < step) then some below
  else if x.readsBack above then some above
  else none

/-- The shortest decimal that reads back as the size of `x`. -/
def shortest (x : Binary64) : Decimal :=
  let first := x.leading
  ((List.range' 1 17).findSome? fun (count : Nat) =>
    x.withDigits? (first - count + 1) count).getD x.expansion

/-- The text of the size of `x`. -/
def sizeText (x : Binary64) : List Char :=
  if x.magnitude = 0 then ['0', '.', '0']
  else if x.magnitude = infinityBits then ['i', 'n', 'f']
  else
    let d := x.shortest
    if -4 ≤ d.leading ∧ d.leading < 16 then d.positional else d.scientific

/-- The text of a number. A NaN shows no sign. -/
def text (x : Binary64) : List Char :=
  if x.isNaN then ['N', 'a', 'N']
  else if x.negative then '-' :: x.sizeText
  else x.sizeText

end Binary64

end KernelIR
