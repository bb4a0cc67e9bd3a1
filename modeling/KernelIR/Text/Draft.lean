import KernelIR.Constant

/-!
# Drafts

A `Draft` is what the grammar makes of a text : statements with what is nested in them,
in which values, types and operations are still names.
-/

namespace KernelIR

/-- The name of a value, without its percent sign. -/
abbrev ValueName := List Char

/-- What stands between the keyword of a statement and its blocks or its type. -/
inductive Form where
  | alloca
  /-- One literal for all lanes. -/
  | splat (lane : Constant)
  | lanes (lanes : List Constant)
  | arg (index : Nat)
  | binary (lhs rhs : ValueName)
  | loadSlot (slot : ValueName)
  | loadLanes (lanes : List (ValueName × Nat))
  | store (slot value : ValueName)
  | atomic (slot value : ValueName)
  | print (value : ValueName)
  | branch (cond : ValueName) (trueMask falseMask : Option ValueName) (otherwise : Bool)
  | loop (mask : Option ValueName)
  | leave (cond : ValueName)
  | rangeFor (counter lower upper : ValueName)
  | structFor (counters : List ValueName) (snode : List Char)
deriving DecidableEq

/-- Whether statements of this form have a value. -/
def Form.hasValue : Form → Bool
  | alloca | splat _ | lanes _ | arg _ | binary _ _ | loadSlot _ | loadLanes _ | atomic _ _ => true
  | _ => false

/-- A statement without its blocks. -/
structure Head where
  result? : Option ValueName
  keyword : List Char
  form : Form
  annotation? : Option (List Char)
deriving DecidableEq

/-- Statements with what is nested in them. A block that is absent is an empty draft. -/
inductive Draft where
  | nil
  | cons (head : Head) (first second rest : Draft)
deriving DecidableEq

end KernelIR
