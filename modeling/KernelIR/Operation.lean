/-!
# Operations

The operations of binary and of atomic statements, with the names they have in text.
-/

namespace KernelIR

/-- An operation on two values. -/
inductive BinaryOp where
  | add
  | sub
  | mul
  | div
  | max
  | min
  | cmpLt
  | cmpLe
  | cmpGt
  | cmpGe
  | cmpEq
  | cmpNe
deriving DecidableEq

namespace BinaryOp

def all : List BinaryOp :=
  [add, sub, mul, div, max, min, cmpLt, cmpLe, cmpGt, cmpGe, cmpEq, cmpNe]

def name : BinaryOp → String
  | add => "add"
  | sub => "sub"
  | mul => "mul"
  | div => "div"
  | max => "max"
  | min => "min"
  | cmpLt => "cmp_lt"
  | cmpLe => "cmp_le"
  | cmpGt => "cmp_gt"
  | cmpGe => "cmp_ge"
  | cmpEq => "cmp_eq"
  | cmpNe => "cmp_ne"

def ofName? (cs : List Char) : Option BinaryOp :=
  all.find? fun op => op.name.toList == cs

theorem ofName?_name (op : BinaryOp) : ofName? op.name.toList = some op := by
  cases op <;> rfl

end BinaryOp

/-- An operation that combines the contents of a slot with a value and writes the result
back. -/
inductive AtomicOp where
  | add
  | sub
  | max
  | min
  | bitAnd
  | bitOr
  | bitXor
deriving DecidableEq

namespace AtomicOp

def all : List AtomicOp :=
  [add, sub, max, min, bitAnd, bitOr, bitXor]

def name : AtomicOp → String
  | add => "add"
  | sub => "sub"
  | max => "max"
  | min => "min"
  | bitAnd => "bit_and"
  | bitOr => "bit_or"
  | bitXor => "bit_xor"

def ofName? (cs : List Char) : Option AtomicOp :=
  all.find? fun op => op.name.toList == cs

theorem ofName?_name (op : AtomicOp) : ofName? op.name.toList = some op := by
  cases op <;> rfl

end AtomicOp

end KernelIR
