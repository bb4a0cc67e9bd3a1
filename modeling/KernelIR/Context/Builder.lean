import KernelIR.Context.Edit

/-!
# Building statement trees

A `Builder` appends statements to one block. A statement with nested blocks takes the
builders of those blocks, so a tree is written in the shape of its text; its blocks are
made and filled before the statement itself is created.
-/

namespace KernelIR

/-- A computation that appends statements to a block. -/
abbrev Builder (α : Type) := ReaderT BlockId (StateT Context (Except Misuse)) α

namespace Builder

/-- Runs a builder on a block. -/
def fill {α : Type} (b : BlockId) (body : Builder α) : Edit α :=
  body.run b

/-- Creates a statement at the end of the block. -/
def append (kind : Kind) (type? : Option ValueType) : Builder StmtId := fun b => do
  let s ← Context.createStmt kind type?
  Context.push b s
  return s

/-- Makes a block and fills it. -/
def block {α : Type} (body : Builder α) : Builder (BlockId × α) := fun _ => do
  let b ← Context.createBlock
  let a ← body.fill b
  return (b, a)

/-- The type of the value of a statement, which must exist. -/
def typeOf (s : StmtId) : Builder (Option ValueType) := fun _ c =>
  match c.stmt? s with
  | none => .error .missing
  | some stmt => .ok (stmt.type?, c)

/-! ## Values -/

def alloca (type : ValueType) : Builder StmtId :=
  append .alloca (some type)

/-- A constant with the given lanes. -/
def const (lanes : List Constant) (type : ValueType) : Builder StmtId :=
  append (.const lanes) (some type)

/-- A constant with the same integer in every lane. -/
def constInt (value : Int) (type : ValueType) : Builder StmtId :=
  const (List.replicate type.width (.int value)) type

def arg (index : Nat) (type : ValueType) : Builder StmtId :=
  append (.arg index) (some type)

def binary (op : BinaryOp) (lhs rhs : StmtId) (type : ValueType) : Builder StmtId :=
  append (.binary op lhs rhs) (some type)

/-- A load of a whole slot, at the type of the slot. -/
def load (slot : StmtId) : Builder StmtId := do
  let type? ← typeOf slot
  let width := match type? with
    | some type => type.width
    | none => 1
  append (.load ((List.range width).map (⟨slot, ·⟩))) type?

/-- A load of the given elements. -/
def loadLanes (lanes : List SlotLane) (type : ValueType) : Builder StmtId :=
  append (.load lanes) (some type)

def store (slot value : StmtId) : Builder StmtId :=
  append (.store slot value) none

/-- An atomic operation on a slot. The result has the type of `value`. -/
def atomic (op : AtomicOp) (slot value : StmtId) : Builder StmtId := do
  let type? ← typeOf value
  append (.atomic op slot value) type?

def print (value : StmtId) : Builder StmtId :=
  append (.print value) none

/-! ## Control flow -/

def ifThen {α : Type} (cond : StmtId) (body : Builder α) : Builder (α × StmtId) := do
  let (b, a) ← block body
  let s ← append (.branch cond none none (some b) none) none
  return (a, s)

def ifThenElse {α β : Type} (cond : StmtId) (body : Builder α) (otherwise : Builder β) :
    Builder (α × β × StmtId) := do
  let (b, x) ← block body
  let (d, y) ← block otherwise
  let s ← append (.branch cond none none (some b) (some d)) none
  return (x, y, s)

def loop {α : Type} (body : Builder α) : Builder (α × StmtId) := do
  let (b, a) ← block body
  let s ← append (.loop none b) none
  return (a, s)

def leave (cond : StmtId) : Builder StmtId :=
  append (.leave cond) none

def rangeFor {α : Type} (counter lower upper : StmtId) (body : Builder α) :
    Builder (α × StmtId) := do
  let (b, a) ← block body
  let s ← append (.rangeFor counter lower upper b) none
  return (a, s)

def structFor {α : Type} (counters : List StmtId) (snode : String) (body : Builder α) :
    Builder (α × StmtId) := do
  let (b, a) ← block body
  let s ← append (.structFor counters snode b) none
  return (a, s)

end Builder

end KernelIR
