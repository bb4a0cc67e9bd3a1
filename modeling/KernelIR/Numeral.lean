/-!
# Decimal numerals

Numbers as text, as lists of characters. `natText` and `intText` write a number in
base ten; `ofDigits` reads a run of digits, and `ofDigits_natText` says that it reads
back what `natText` wrote.
-/

namespace KernelIR

/-- The digits of `n` in base ten, without leading zeros. -/
def natText (n : Nat) : List Char :=
  Nat.toDigits 10 n

/-- An integer in base ten, with a minus sign in front of a negative one. -/
def intText (i : Int) : List Char :=
  if i < 0 then '-' :: natText i.natAbs else natText i.natAbs

/-- The number that a run of digits stands for. -/
def ofDigits (cs : List Char) : Nat :=
  Nat.ofDigitChars 10 cs 0

theorem ofDigits_natText (n : Nat) : ofDigits (natText n) = n :=
  Nat.ofDigitChars_toDigits (by decide) (by decide)

theorem isDigit_of_mem_natText {n : Nat} {c : Char} (h : c ∈ natText n) : c.isDigit = true :=
  Nat.isDigit_of_mem_toDigits (by decide) (by decide) h

theorem natText_ne_nil (n : Nat) : natText n ≠ [] :=
  List.ne_nil_of_length_pos Nat.length_toDigits_pos

end KernelIR
