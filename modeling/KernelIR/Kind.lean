import KernelIR.Constant
import KernelIR.Operation
import KernelIR.Ref

/-!
# Kinds of statements

A `Kind` says what a statement does : the operation, the statements whose values it takes
and the blocks it owns. `Kind.operands` lists the values taken in a fixed order, and an
operand is named by its position in that list; `Kind.mapOperands` rewrites operands
position by position and nothing else (`operands_mapOperands`).

A slot is the storage that an `alloca` statement declares. Loads and stores name it, and
so do the counters of loops, which write it before each iteration.
-/

namespace KernelIR

/-- One lane of a load : the element `offset` of a slot. -/
structure SlotLane where
  slot : StmtId
  offset : Nat
deriving DecidableEq

/-- What a statement does. -/
inductive Kind where
  /-- Declares a slot and fills it with zeros. -/
  | alloca
  | const (lanes : List Constant)
  /-- An argument of the kernel. -/
  | arg (index : Nat)
  | binary (op : BinaryOp) (lhs rhs : StmtId)
  | load (lanes : List SlotLane)
  | store (slot value : StmtId)
  /-- Combines the slot with the value; the result is what the slot held before. -/
  | atomic (op : AtomicOp) (slot value : StmtId)
  | print (value : StmtId)
  | branch (cond : StmtId) (trueMask falseMask : Option StmtId)
      (trueBlock falseBlock : Option BlockId)
  /-- Repeats its body until a `leave` in it takes effect. -/
  | loop (mask : Option StmtId) (body : BlockId)
  /-- Leaves the innermost `loop` if the condition is false. -/
  | leave (cond : StmtId)
  | rangeFor (counter lower upper : StmtId) (body : BlockId)
  | structFor (counters : List StmtId) (snode : String) (body : BlockId)
deriving DecidableEq

namespace Kind

/-- The word for the kind of a statement. All atomic operations share one. -/
def name : Kind → String
  | alloca => "alloca"
  | const _ => "const"
  | arg _ => "arg"
  | binary op _ _ => op.name
  | load _ => "local_load"
  | store _ _ => "local_store"
  | atomic _ _ _ => "atomic"
  | print _ => "print"
  | branch _ _ _ _ _ => "if"
  | loop _ _ => "while"
  | leave _ => "while_control"
  | rangeFor _ _ _ _ => "range_for"
  | structFor _ _ _ => "struct_for"

/-- The values that the statement takes. -/
def operands : Kind → List StmtId
  | alloca | const _ | arg _ => []
  | binary _ lhs rhs => [lhs, rhs]
  | load lanes => lanes.map SlotLane.slot
  | store slot value | atomic _ slot value => [slot, value]
  | print value => [value]
  | branch cond trueMask falseMask _ _ => cond :: (trueMask.toList ++ falseMask.toList)
  | loop mask _ => mask.toList
  | leave cond => [cond]
  | rangeFor counter lower upper _ => [counter, lower, upper]
  | structFor counters _ _ => counters

/-- Replaces the operand at each position `i`, say `v`, by `f i v`. -/
def mapOperands (f : Nat → StmtId → StmtId) : Kind → Kind
  | alloca => alloca
  | const lanes => const lanes
  | arg index => arg index
  | binary op lhs rhs => binary op (f 0 lhs) (f 1 rhs)
  | load lanes => load (lanes.mapIdx fun i lane => { lane with slot := f i lane.slot })
  | store slot value => store (f 0 slot) (f 1 value)
  | atomic op slot value => atomic op (f 0 slot) (f 1 value)
  | print value => print (f 0 value)
  | branch cond trueMask falseMask trueBlock falseBlock =>
    branch (f 0 cond) (trueMask.map (f 1))
      (falseMask.map (f (1 + trueMask.toList.length))) trueBlock falseBlock
  | loop mask body => loop (mask.map (f 0)) body
  | leave cond => leave (f 0 cond)
  | rangeFor counter lower upper body => rangeFor (f 0 counter) (f 1 lower) (f 2 upper) body
  | structFor counters snode body => structFor (counters.mapIdx f) snode body

theorem operands_mapOperands (f : Nat → StmtId → StmtId) (k : Kind) :
    (k.mapOperands f).operands = k.operands.mapIdx f := by
  cases k with
  | load lanes =>
    exact List.ext_getElem? fun i => by simp [mapOperands, operands, Function.comp_def]
  | branch cond trueMask falseMask _ _ =>
    cases trueMask <;> cases falseMask <;> simp [mapOperands, operands]
  | loop mask _ => cases mask <;> simp [mapOperands, operands]
  | _ => simp [mapOperands, operands]

/-- The block that runs if a condition holds, or the body of a loop. -/
def firstBlock? : Kind → Option BlockId
  | branch _ _ _ trueBlock _ => trueBlock
  | loop _ body | rangeFor _ _ _ body | structFor _ _ body => some body
  | _ => none

/-- The block that runs if a condition fails. -/
def secondBlock? : Kind → Option BlockId
  | branch _ _ _ _ falseBlock => falseBlock
  | _ => none

/-- The blocks that the statement owns, in the order of the text. -/
def blocks (k : Kind) : List BlockId :=
  k.firstBlock?.toList ++ k.secondBlock?.toList

/-- Whether statements may be nested in the statement. -/
def isContainer : Kind → Bool
  | branch _ _ _ _ _ | loop _ _ | rangeFor _ _ _ _ | structFor _ _ _ => true
  | _ => false

/-- Whether the statement has a value that others may take. -/
def hasValue : Kind → Bool
  | alloca | const _ | arg _ | binary _ _ _ | load _ | atomic _ _ _ => true
  | _ => false

def isAlloca : Kind → Bool
  | alloca => true
  | _ => false

/-- Whether the statement is a load whose lane `i` reads element `i` of `slot`, for every
lane. -/
def isRegularLoadOf (slot : StmtId) : Kind → Bool
  | load lanes => lanes == (List.range lanes.length).map (⟨slot, ·⟩)
  | _ => false

/-- Equality of kinds, up to the numeric comparison of constants. -/
def agrees : Kind → Kind → Bool
  | const xs, const ys => xs.length == ys.length && (xs.zip ys).all fun (x, y) => x.agrees y
  | k, l => k == l

end Kind

end KernelIR
