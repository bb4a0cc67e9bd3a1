/-!
# Double-precision numbers

A `Binary64` is a sign and a magnitude : the 63 bits below the sign bit, read as a
natural number. Magnitudes are ordered as the sizes they stand for, so the finite ones
are those below `Binary64.infinityBits`, and those above it are NaNs.

`Binary64.units` is the size of a finite magnitude in multiples of `2 ^ -1074`, the
smallest positive number. `Binary64.equal` is numeric comparison : the two zeros agree,
and a NaN agrees with nothing, itself included.
-/

namespace KernelIR

/-- A double-precision number, by its sign and the 63 bits below it. -/
structure Binary64 where
  negative : Bool
  magnitude : Nat
  magnitude_lt : magnitude < 0x8000000000000000
deriving DecidableEq

namespace Binary64

/-- The number of magnitudes in one binade, `2 ^ 52`. -/
def binade : Nat :=
  0x10000000000000

/-- The magnitude of the infinities. -/
def infinityBits : Nat :=
  2047 * binade

theorem infinityBits_lt : infinityBits < 0x8000000000000000 := by decide

/-- The number with the given sign and magnitude, an excessive magnitude becoming infinite. -/
def ofMagnitude (negative : Bool) (magnitude : Nat) : Binary64 :=
  ⟨negative, min magnitude infinityBits,
    Nat.lt_of_le_of_lt (Nat.min_le_right _ _) infinityBits_lt⟩

/-- The number with the given 64 bits, the sign on top. -/
def ofBits (bits : Nat) : Binary64 :=
  ⟨bits / 0x8000000000000000 % 2 == 1, bits % 0x8000000000000000, Nat.mod_lt _ (by decide)⟩

def zero : Binary64 :=
  ofMagnitude false 0

def infinity (negative : Bool) : Binary64 :=
  ofMagnitude negative infinityBits

/-- The NaN that a literal stands for. -/
def nan : Binary64 :=
  ⟨false, infinityBits + binade / 2, by decide⟩

def isNaN (x : Binary64) : Bool :=
  infinityBits < x.magnitude

/-- Numeric comparison : zeros of either sign agree, and a NaN agrees with nothing. -/
def equal (x y : Binary64) : Bool :=
  !x.isNaN && !y.isNaN && (x == y || (x.magnitude == 0 && y.magnitude == 0))

/-- The size of a finite magnitude in multiples of `2 ^ -1074`. -/
def units (magnitude : Nat) : Nat :=
  if magnitude < 2 * binade then magnitude
  else (binade + magnitude % binade) * Nat.pow 2 (magnitude / binade - 1)

end Binary64

end KernelIR
