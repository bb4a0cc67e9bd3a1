import KernelIR.Binary64.Shortest
import KernelIR.ValueType

/-!
# Constants

One lane of a constant is an integer or a double-precision number. `Constant.agrees` is
the numeric comparison that printing uses to find constants with equal lanes : it never
identifies an integer with a floating-point number.
-/

namespace KernelIR

/-- One lane of a constant. -/
inductive Constant where
  | int (value : Int)
  | float (value : Binary64)
deriving DecidableEq

namespace Constant

def text : Constant → List Char
  | int i => intText i
  | float x => x.text

def agrees : Constant → Constant → Bool
  | int i, int j => i == j
  | float x, float y => x.equal y
  | _, _ => false

end Constant

/-- The lane of a value that was never written. -/
def ScalarType.zero (t : ScalarType) : Constant :=
  if t.isFloat then .float Binary64.zero else .int 0

end KernelIR
