import Mathlib.Logic.Function.Basic
import KernelIR.Tree

/-!
# Execution

The sequential meaning of a statement tree. A `Memory` holds the latest value of each
statement and the contents of each slot that has been declared. `Tree.run` executes a
tree from a memory; what the kernel computes with is left open (`Interpretation`). An
`alloca` fills its slot with zeros each time it executes, a loop writes its counters
before each iteration, and a `leave` with a false condition ends the innermost `loop`, or
the whole execution if there is none.

A `loop` need not end, so a run has a budget, the number of times that a `loop` may begin
its body each time it is entered; a run that needs more is cut off. With a larger budget
a run shows the same and then more (`Tree.run_extends`), so a statement about
the runs of all budgets is one about the whole execution, whether it ends or not.

Masks play no part here.
-/

namespace KernelIR

/-- What the constants, arguments and operations of a kernel compute, and how often
counted loops run. Lane `i` of a result is what the function of the operation gives for
`i`. -/
structure Interpretation (V : Type) where
  /-- What a load finds outside of the elements of a slot. -/
  blank : V
  zero : ScalarType → V
  const : List Constant → Option ValueType → Nat → V
  arg : Nat → Option ValueType → Nat → V
  binary : BinaryOp → Option ValueType → List V → List V → Nat → V
  atomic : AtomicOp → List V → List V → Nat → V
  truth : List V → Bool
  /-- The values of the counter between two bounds. -/
  range : List V → List V → List (List V)
  /-- The values of the counters over a structure. -/
  tuples : String → List (Nat → List V)
  const_zero : ∀ type i, i < type.width →
    const (List.replicate type.width type.element.zero) (some type) i = zero type.element

/-- The contents of a slot and the statement that wrote them. No value depends on the
writer. -/
structure Cell (V : Type) where
  contents : List V
  writer : StmtId

/-- The latest values of the statements, and the slots declared so far. -/
structure Memory (V : Type) where
  value : StmtId → List V
  cell? : StmtId → Option (Cell V)

/-- What shows in an execution. -/
inductive Observation (V : Type) where
  | printed (value : List V)
  /-- A statement is about to execute. The memory is the one it finds. -/
  | reached (id : StmtId) (stmt : Stmt) (memory : Memory V)

/-- How an execution goes on. -/
inductive Signal where
  | normal
  /-- The innermost `loop` ends. -/
  | left
  /-- The budget of a `loop` is used up. -/
  | cut
deriving DecidableEq

/-- The end of an execution and what has shown in it. -/
structure Result (V : Type) where
  signal : Signal
  memory : Memory V
  observations : List (Observation V)

variable {V : Type}

/-- The number of lanes of the value. -/
def Stmt.width (stmt : Stmt) : Nat :=
  match stmt.type? with
  | some type => type.width
  | none => 0

/-- The first `n` lanes. -/
def firstLanes (n : Nat) (f : Nat → V) : List V :=
  (List.range n).map f

namespace Memory

def empty : Memory V :=
  ⟨fun _ => [], fun _ => none⟩

def contents (m : Memory V) (s : StmtId) : List V :=
  match m.cell? s with
  | some cell => cell.contents
  | none => []

/-- After a statement has got a value. -/
def bind (m : Memory V) (id : StmtId) (value : List V) : Memory V :=
  { m with value := Function.update m.value id value }

/-- After a slot has been declared. -/
def declare (m : Memory V) (slot : StmtId) (contents : List V) : Memory V :=
  { m with cell? := Function.update m.cell? slot (some ⟨contents, slot⟩) }

/-- After `writer` has overwritten a slot. What is not a slot stays so. -/
def write (m : Memory V) (writer slot : StmtId) (contents : List V) : Memory V :=
  { m with cell? := Function.update m.cell? slot ((m.cell? slot).map fun _ => ⟨contents, writer⟩) }

/-- After a loop has written its counters. -/
def writeAll (m : Memory V) (writer : StmtId) (slots : List StmtId) (tuple : Nat → List V) :
    Memory V :=
  (slots.zipIdx).foldl (fun m p => m.write writer p.1 (tuple p.2)) m

end Memory

namespace Result

/-- Goes on with `next`, unless the execution ended early. -/
def andThen (r : Result V) (next : Memory V → Result V) : Result V :=
  match r.signal with
  | .normal =>
    let q := next r.memory
    ⟨q.signal, q.memory, r.observations ++ q.observations⟩
  | _ => r

/-- The values printed. -/
def prints (r : Result V) : List (List V) :=
  r.observations.filterMap fun
    | .printed value => some value
    | .reached _ _ _ => none

end Result

/-- Executes the body of a `loop` until it is left, within the budget. -/
def repeatBody (body : Memory V → Result V) : Nat → Memory V → Result V
  | 0, m => ⟨.cut, m, []⟩
  | budget + 1, m =>
    let r := body m
    match r.signal with
    | .left => { r with signal := .normal }
    | _ => r.andThen (repeatBody body budget)

/-- Executes the body of a counted loop, each time after writing the counters. -/
def countBody (body : Memory V → Result V) : List (Memory V → Memory V) → Memory V → Result V
  | [], m => ⟨.normal, m, []⟩
  | count :: rest, m => (body (count m)).andThen (countBody body rest)

namespace Interpretation

variable (I : Interpretation V)

/-- What a slot of the given type holds where nothing has been written. -/
def zeros : Option ValueType → List V
  | some type => List.replicate type.width (I.zero type.element)
  | none => []

/-- The element of a slot that a lane of a load names. -/
def element (m : Memory V) (lane : SlotLane) : V :=
  ((m.contents lane.slot)[lane.offset]?).getD I.blank

/-- What the memory becomes by a statement that has no blocks. -/
def exec (id : StmtId) (stmt : Stmt) (m : Memory V) : Memory V :=
  match stmt.kind with
  | .alloca => m.declare id (I.zeros stmt.type?)
  | .const cs => m.bind id (firstLanes stmt.width (I.const cs stmt.type?))
  | .arg index => m.bind id (firstLanes stmt.width (I.arg index stmt.type?))
  | .binary op lhs rhs =>
    m.bind id (firstLanes stmt.width (I.binary op stmt.type? (m.value lhs) (m.value rhs)))
  | .load ls =>
    m.bind id (firstLanes stmt.width fun i => ((ls[i]?).map (I.element m)).getD I.blank)
  | .store slot value => m.write id slot (m.value value)
  | .atomic op slot value =>
    let old := m.contents slot
    (m.bind id (firstLanes stmt.width fun i => (old[i]?).getD I.blank)).write id slot
      (firstLanes old.length (I.atomic op old (m.value value)))
  | _ => m

/-- Executes one statement, given how its blocks are executed, with the given budget for a
`loop`. -/
def node (budget : Nat) (id : StmtId) (stmt : Stmt) (first second : Memory V → Result V)
    (m : Memory V) : Result V :=
  match stmt.kind with
  | .branch cond _ _ _ _ => if I.truth (m.value cond) then first m else second m
  | .loop _ _ => repeatBody first budget m
  | .leave cond => ⟨if I.truth (m.value cond) then .normal else .left, m, []⟩
  | .print value => ⟨.normal, m, [.printed (m.value value)]⟩
  | .rangeFor counter lower upper _ =>
    countBody first
      ((I.range (m.value lower) (m.value upper)).map fun v m => m.write id counter v) m
  | .structFor counters snode _ =>
    countBody first ((I.tuples snode).map fun tuple m => m.writeAll id counters tuple) m
  | _ => ⟨.normal, I.exec id stmt m, []⟩

end Interpretation

/-- Comes to a statement. -/
def reach (id : StmtId) (stmt : Stmt) (m : Memory V) : Result V :=
  ⟨.normal, m, [.reached id stmt m]⟩

/-- Executes the statements of a tree in order, with the given budget for each `loop`. -/
def Tree.run (I : Interpretation V) (budget : Nat) : Tree → Memory V → Result V
  | .nil, m => ⟨.normal, m, []⟩
  | .cons id stmt first second rest, m =>
    ((reach id stmt m).andThen
      (I.node budget id stmt (first.run I budget) (second.run I budget))).andThen
        (rest.run I budget)

end KernelIR
