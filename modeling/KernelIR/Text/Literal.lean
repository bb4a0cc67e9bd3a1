import KernelIR.Constant
import KernelIR.Text.Scan

/-!
# Literals

An integer literal is an optional minus sign and digits, and must fit 64 bits. A literal
with a fraction or an exponent, or one of the words for infinities and NaN, is a
floating-point number, rounded to the nearest; its exponent is the number that the digits
stand for, as long as that is below `Scan.exponentBound` (`exponentSize_eq_ofDigits`). The
numbers of arguments and of lane elements have no leading zeros and fit 32 bits.
-/

namespace KernelIR

namespace Scan

/-- The first size that a signed number of 64 bits does not reach, `2 ^ 63`. -/
def signedBound : Nat :=
  0x8000000000000000

/-- The first number that does not fit 32 bits, `2 ^ 32`. -/
def indexBound : Nat :=
  0x100000000

/-- Reads an optional minus sign and digits. -/
def signed : Scan (Option Unit × List Char) := do
  let minus ← optional (word "-")
  let digits ← many1 Char.isDigit
  return (minus, digits)

/-- Reads an integer of 64 bits. One that does not fit stops the scan in front of it. -/
def integer : Scan Int := fun text =>
  match signed text with
  | .error stop => .error stop
  | .ok ((minus, digits), rest) =>
    let size := ofDigits digits
    match minus with
    | none => if size < signedBound then .ok (size, rest) else .error ⟨text, .overflow false⟩
    | some _ => if size ≤ signedBound then .ok (-size, rest) else .error ⟨text, .overflow true⟩

/-- Reads a number of 32 bits, a zero alone or digits that begin with another. One that
does not fit stops the scan in front of it. -/
def index : Scan Nat := fun text =>
  match text with
  | '0' :: rest => .ok (0, rest)
  | _ =>
    match many1 Char.isDigit text with
    | .error stop => .error stop
    | .ok (digits, rest) =>
      if ofDigits digits < indexBound then .ok (ofDigits digits, rest)
      else .error ⟨text, .unexpected⟩

/-- An exponent of `2 ^ 16` or more is not read any further. -/
def exponentBound : Nat :=
  0x10000

/-- Adds a digit to an exponent. -/
def exponentDigit (e : Nat) (c : Char) : Nat :=
  if e < exponentBound then 10 * e + (c.toNat - '0'.toNat) else e

/-- The size of an exponent. Digits behind one that reaches the bound do not count. -/
def exponentSize (digits : List Char) : Nat :=
  digits.foldl exponentDigit 0

theorem le_ofDigitChars (digits : List Char) (n : Nat) : n ≤ Nat.ofDigitChars 10 digits n := by
  induction digits generalizing n with
  | nil => exact Nat.le_refl n
  | cons c digits ih =>
    rw [Nat.ofDigitChars_cons]
    exact Nat.le_trans (by omega) (ih _)

theorem foldl_exponentDigit (digits : List Char) (e : Nat)
    (h : Nat.ofDigitChars 10 digits e < exponentBound) :
    digits.foldl exponentDigit e = Nat.ofDigitChars 10 digits e := by
  induction digits generalizing e with
  | nil => rfl
  | cons c digits ih =>
    have he : e < exponentBound := Nat.lt_of_le_of_lt (le_ofDigitChars _ e) h
    rw [Nat.ofDigitChars_cons] at h ⊢
    simpa only [List.foldl_cons, exponentDigit, if_pos he] using ih _ h

/-- Below the bound an exponent is the number that its digits stand for. -/
theorem exponentSize_eq_ofDigits {digits : List Char} (h : ofDigits digits < exponentBound) :
    exponentSize digits = ofDigits digits :=
  foldl_exponentDigit digits 0 h

/-- Reads an exponent of ten with its letter. -/
def exponent : Scan Int := do
  let _ ← char fun c => c == 'e' || c == 'E'
  let sign ← optional (char fun c => c == '+' || c == '-')
  let digits ← many1 Char.isDigit
  return if sign = some '-' then -(exponentSize digits : Int) else exponentSize digits

/-- Reads a point and digits, and an exponent if there is one. -/
def fraction : Scan (List Char × Int) := do
  word "."
  let digits ← many1 Char.isDigit
  let e ← optional exponent
  return (digits, e.getD 0)

/-- Reads a number with a fraction or an exponent. -/
def decimal : Scan Binary64 := do
  let minus ← optional (word "-")
  let whole ← many1 Char.isDigit
  let (digits, e) ← either fraction (do let e ← exponent; return ([], e))
  return .ofDecimal minus.isSome ⟨ofDigits (whole ++ digits), e - digits.length⟩

/-- Reads a floating-point literal. -/
def float : Scan Binary64 :=
  either (do word "NaN"; return .nan)
    (either (do word "inf"; return .infinity false)
      (either (do word "-inf"; return .infinity true) decimal))

/-- Reads one lane of a constant. -/
def constant : Scan Constant :=
  either (do let x ← float; return .float x) (do let i ← integer; return .int i)

end Scan

end KernelIR
