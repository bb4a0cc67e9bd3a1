import KernelIR.Numeral

/-!
# Types of values

A value has an element type and a number of lanes. `ValueType.text` writes a type, the
number of lanes only if it is not one, and `ValueType.ofName?` reads the name of a type
with 1 to `ValueType.maxWidth` lanes.
-/

namespace KernelIR

/-- The type of one lane. -/
inductive ScalarType where
  | i32
  | i64
  | u1
  | u32
  | f32
  | f64
deriving DecidableEq

namespace ScalarType

def all : List ScalarType :=
  [i32, i64, u1, u32, f32, f64]

def name : ScalarType → String
  | i32 => "i32"
  | i64 => "i64"
  | u1 => "u1"
  | u32 => "u32"
  | f32 => "f32"
  | f64 => "f64"

def isFloat : ScalarType → Bool
  | f32 | f64 => true
  | _ => false

theorem mem_all (t : ScalarType) : t ∈ all := by
  cases t <;> decide

end ScalarType

/-- An element type, replicated over `width` lanes. -/
structure ValueType where
  element : ScalarType
  width : Nat
deriving DecidableEq

namespace ValueType

/-- The largest number of lanes that a type name may give. -/
def maxWidth : Nat :=
  64

def text (t : ValueType) : List Char :=
  t.element.name.toList ++ if t.width = 1 then [] else 'x' :: natText t.width

/-- The number of lanes that digits give, after an optional plus sign. -/
def width? (cs : List Char) : Option Nat :=
  let digits := match cs with
    | '+' :: rest => rest
    | _ => cs
  if digits ≠ [] ∧ digits.all Char.isDigit ∧ 1 ≤ ofDigits digits ∧ ofDigits digits ≤ maxWidth then
    some (ofDigits digits)
  else
    none

/-- The type with this element type and this name, if there is one. -/
def withElement? (cs : List Char) (element : ScalarType) : Option ValueType :=
  match element.name.toList.isPrefixOf? cs with
  | some [] => some ⟨element, 1⟩
  | some ('x' :: digits) => (width? digits).map (⟨element, ·⟩)
  | _ => none

/-- The type of a name such as `i32` or `f32x4`. -/
def ofName? (cs : List Char) : Option ValueType :=
  ScalarType.all.findSome? (withElement? cs)

end ValueType

end KernelIR
