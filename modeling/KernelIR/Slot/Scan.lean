import KernelIR.Slot.State
import KernelIR.Tree.Walk

/-!
# Walking through the statements behind a slot

`Slot.scan` follows one slot through the statements behind it, and stops at the first
load that can be rewritten, or at a statement that the analysis does not handle. At the
end of the walk `Slot.leftover?` looks for a statement that has become useless.

A loop body is walked through without any knowledge of what came before, since another
iteration may have written the slot. If that walk finds no write, and the contents in
front of the loop are known, the body is walked through again with them.
-/

namespace KernelIR

/-- Statements that the analysis of slots does not handle. -/
inductive PassError where
  | maskedIf (stmt : StmtId)
  | maskedWhile (stmt : StmtId)
  | nestedLoopVar (slot stmt : StmtId)
deriving DecidableEq

def PassError.message : PassError → String
  | maskedIf stmt => s!"{stmt}: masked `if` is not supported here"
  | maskedWhile stmt => s!"{stmt}: masked `while` is not supported here"
  | nestedLoopVar slot stmt =>
    s!"{stmt} binds alloca {slot} as a loop variable inside another loop"

/-- A change that the analysis of a slot asks for. -/
inductive Rewrite where
  /-- The load reads zeros. -/
  | zeroFold (load : StmtId) (type : ValueType)
  /-- The load reads the given value. -/
  | forward (load value : StmtId)
  | deadStore (store : StmtId)
  | deadAtomic (atomic : StmtId)
  | deadAlloca
deriving DecidableEq

/-- Why a walk ends early. -/
inductive Halt where
  | rewrite (rewrite : Rewrite)
  | violation (error : PassError)
deriving DecidableEq

/-- A slot, the type it was declared with, and the statements behind it in its block. -/
structure Slot where
  id : StmtId
  type? : Option ValueType
  following : Tree

/-- The slots declared in a tree, in pre-order. -/
def Tree.slots : Tree → List Slot
  | .nil => []
  | .cons id stmt first second rest =>
    let nested := first.slots ++ second.slots ++ rest.slots
    if stmt.kind.isAlloca then ⟨id, stmt.type?, rest⟩ :: nested else nested

namespace Slot

variable (slot : Slot)

/-- Meets a load from the slot. `st` already knows of it. Only a load of the whole slot at
the type of the slot is rewritten. -/
def scanLoad (load : StmtId) (stmt : Stmt) (st : SlotState) : Except Halt SlotState :=
  match stmt.type? with
  | none => .ok st
  | some type =>
    if slot.type? ≠ some type ∨ !stmt.kind.isRegularLoadOf slot.id then .ok st
    else if st.readsZero then .error (.rewrite (.zeroFold load type))
    else
      match st.forwardable? with
      | some value => .error (.rewrite (.forward load value))
      | none => .ok st

/-- Meets a loop, given the walk through its body. -/
def scanLoop (loop : StmtId) (binds : Bool) (body : SlotState → Except Halt SlotState)
    (st : SlotState) : Except Halt SlotState := do
  if binds ∧ st.region ≠ .outside then throw (.violation (.nestedLoopVar slot.id loop))
  if st.region = .noStores then body st
  else
    let bodyEnd ← body (.start .mayHaveStores)
    let merged := st.mergeLoop bodyEnd binds
    if st.needsRewalk bodyEnd binds then
      let _ ← body { merged with region := .noStores }
    return merged

/-- Walks through statements from the state `st` on. -/
def scan : Tree → SlotState → Except Halt SlotState
  | .nil, st => .ok st
  | .cons id stmt first second rest, st => do
    let st ← match stmt.kind with
      | .store s value => pure (if s = slot.id then st.store id value else st)
      | .atomic _ s _ => pure (if s = slot.id then st.atomic id else st)
      | .load lanes =>
        if lanes.any (·.slot == slot.id) then slot.scanLoad id stmt st.load else pure st
      | .branch _ trueMask falseMask _ _ => do
        if trueMask.isSome ∨ falseMask.isSome then throw (.violation (.maskedIf id))
        let thenState ← scan first st
        let elseState ← scan second st
        pure (st.mergeIf thenState elseState)
      | .loop mask _ => do
        if mask.isSome then throw (.violation (.maskedWhile id))
        slot.scanLoop id false (scan first) st
      | .rangeFor counter _ _ _ => slot.scanLoop id (counter == slot.id) (scan first) st
      | .structFor counters _ _ => slot.scanLoop id (counters.contains slot.id) (scan first) st
      | _ => pure st
    scan rest st

/-- Whether some statement of a tree takes the value of `s`. -/
def isTaken (root : Tree) (s : StmtId) : Bool :=
  !(root.find fun _ stmt => stmt.kind.operands.contains s).isEmpty

/-- The latest store, if nothing reads what it wrote. -/
def deadStore? (st : SlotState) : Option Rewrite :=
  if st.storeRead then none else st.lastStore?.map .deadStore

/-- The latest atomic operation, if nothing reads what it wrote or takes its value. -/
def deadAtomic? (root : Tree) (st : SlotState) : Option Rewrite :=
  match st.lastAtomic? with
  | none => none
  | some atomic =>
    if st.atomicUnread && !isTaken root atomic then some (.deadAtomic atomic) else none

/-- The slot itself, if nothing is left of it. `used` tells whether it has uses. -/
def deadAlloca? (used : Bool) (st : SlotState) : Option Rewrite :=
  if st.stored || st.loaded || used then none else some .deadAlloca

/-- What can be removed at the end of a walk. -/
def leftover? (root : Tree) (used : Bool) (st : SlotState) : Option Rewrite :=
  (deadStore? st).or ((deadAtomic? root st).or (deadAlloca? used st))

/-- Looks for a rewrite on the slot in the tree `root`. -/
def analyze (root : Tree) (used : Bool) : Except Halt Unit := do
  let st ← slot.scan slot.following (.start .outside)
  match leftover? root used st with
  | some rewrite => throw (.rewrite rewrite)
  | none => return ()

end Slot

end KernelIR
