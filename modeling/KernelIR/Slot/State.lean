import KernelIR.Ref

/-!
# What is known about a slot

While the statements behind a slot are walked through, a `SlotState` tells what has been
found out about it : whether some path has written or read it, the latest store and the
latest atomic operation, and what may be done with them. The state is a plain value.
`mergeIf` joins the states at the end of two branches, and `mergeLoop` the state in front
of a loop with the one at the end of its body.
-/

namespace KernelIR

/-- What is known about writes to the slot in the loop that is walked through. -/
inductive Region where
  | outside
  /-- A loop that may write the slot in another iteration. -/
  | mayHaveStores
  /-- A loop that is known not to write the slot. -/
  | noStores
deriving DecidableEq

/-- The knowledge about a slot at one point of a walk. -/
structure SlotState where
  /-- Some path has written the slot. -/
  stored : Bool
  /-- Some path has read the slot. -/
  loaded : Bool
  /-- The latest store, to forward or to remove. -/
  lastStore? : Option StmtId
  /-- What the latest store wrote. -/
  lastValue? : Option StmtId
  /-- The latest store is on every path and the slot still holds its value. -/
  storeHolds : Bool
  /-- What the latest store wrote may have been read. -/
  storeRead : Bool
  /-- The latest atomic operation. -/
  lastAtomic? : Option StmtId
  /-- Nothing has read what the latest atomic operation wrote. -/
  atomicUnread : Bool
  region : Region
deriving DecidableEq

namespace SlotState

/-- Nothing has happened to the slot yet. -/
def start (region : Region) : SlotState where
  stored := false
  loaded := false
  lastStore? := none
  lastValue? := none
  storeHolds := false
  storeRead := false
  lastAtomic? := none
  atomicUnread := false
  region := region

/-- After a store of `value` to the slot. -/
def store (st : SlotState) (store value : StmtId) : SlotState :=
  { st with
    stored := true
    lastStore? := some store
    lastValue? := some value
    storeHolds := true
    storeRead := false
    lastAtomic? := none
    atomicUnread := false }

/-- After an atomic operation on the slot. It reads the slot and writes a value that no
statement has. -/
def atomic (st : SlotState) (atomic : StmtId) : SlotState :=
  { st with
    stored := true
    loaded := true
    lastStore? := none
    lastValue? := none
    storeHolds := false
    storeRead := false
    lastAtomic? := some atomic
    atomicUnread := true }

/-- After a load from the slot. -/
def load (st : SlotState) : SlotState :=
  { st with
    loaded := true
    storeRead := st.storeRead || st.lastStore?.isSome
    atomicUnread := st.atomicUnread && st.lastAtomic?.isNone }

/-- The slot still holds the zeros it began with. -/
def readsZero (st : SlotState) : Bool :=
  !st.stored && st.region != .mayHaveStores

/-- The value that the slot holds. -/
def forwardable? (st : SlotState) : Option StmtId :=
  if st.storeHolds then st.lastValue? else none

/-! ## Branches -/

/-- A store that a branch brought in and that nothing has read. -/
def newStore? (before branch : SlotState) : Option StmtId :=
  if branch.lastStore? ≠ before.lastStore? ∧ !branch.storeRead then branch.lastStore? else none

/-- An atomic operation that a branch brought in and that nothing has read. -/
def newAtomic? (before branch : SlotState) : Option StmtId :=
  if branch.lastAtomic? ≠ before.lastAtomic? ∧ branch.atomicUnread then branch.lastAtomic?
  else none

/-- The latest store after two branches. It holds if both end with the same store, or with
stores of the same value; else it is at most one to remove. -/
def mergeStores (before thenState elseState merged : SlotState) : SlotState :=
  let unchanged :=
    thenState.lastStore? == before.lastStore? && elseState.lastStore? == before.lastStore?
  let read := before.storeRead || thenState.storeRead || elseState.storeRead
  if thenState.storeHolds && elseState.storeHolds &&
      (thenState.lastStore? == elseState.lastStore? ||
        thenState.lastValue? == elseState.lastValue?) then
    if unchanged then { merged with storeHolds := true, storeRead := read }
    else
      { merged with
        storeHolds := true
        lastStore? := thenState.lastStore?
        lastValue? := thenState.lastValue?
        storeRead := thenState.storeRead || elseState.storeRead }
  else if unchanged then { merged with storeHolds := false, storeRead := read }
  else
    { merged with
      storeHolds := false
      lastStore? := (newStore? before thenState).or (newStore? before elseState)
      storeRead := false }

/-- The latest atomic operation after two branches. -/
def mergeAtomics (before thenState elseState merged : SlotState) : SlotState :=
  if thenState.lastAtomic? = before.lastAtomic? ∧ elseState.lastAtomic? = before.lastAtomic? then
    { merged with atomicUnread := thenState.atomicUnread && elseState.atomicUnread }
  else
    let found := (newAtomic? before thenState).or (newAtomic? before elseState)
    { merged with lastAtomic? := found, atomicUnread := found.isSome }

/-- The state after two branches that both began in the state `before`. -/
def mergeIf (before thenState elseState : SlotState) : SlotState :=
  let merged :=
    { before with
      stored := thenState.stored || elseState.stored
      loaded := thenState.loaded || elseState.loaded }
  mergeAtomics before thenState elseState
    (if merged.stored then mergeStores before thenState elseState merged else merged)

/-! ## Loops -/

/-- The state after a loop in front of which it was `before`, and at the end of whose body
it was `body`. The body may run any number of times. `binds` tells whether the slot is a
counter of the loop, which then writes it for every iteration. -/
def mergeLoop (before body : SlotState) (binds : Bool) : SlotState :=
  let merged :=
    { before with stored := before.stored || body.stored, loaded := before.loaded || body.loaded }
  if binds then { start before.region with stored := true, loaded := true }
  else if !body.stored then if body.loaded then merged.load else merged
  else
    { merged with
      lastStore? := body.lastStore?
      lastValue? := body.lastValue?
      storeHolds := false
      storeRead := body.loaded
      lastAtomic? := body.lastAtomic?
      atomicUnread := !body.loaded }

/-- Whether a loop is worth a second walk, with the knowledge that its body only reads the
slot : the contents in front of it are known. -/
def needsRewalk (before body : SlotState) (binds : Bool) : Bool :=
  !binds && !body.stored && body.loaded && before.region != .noStores &&
    (before.readsZero || before.storeHolds)

end SlotState

end KernelIR
