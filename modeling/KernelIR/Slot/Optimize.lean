import KernelIR.Context.Edit
import KernelIR.Slot.Event

/-!
# Optimizing slots

A sweep analyzes the slots below a block in pre-order, up to the first rewrite. The
rewrite is made and a new sweep begins at the root, so that every analysis sees the tree
as it is. Slots that asked for no rewrite are finished, and later sweeps pass over them.
The work ends with a sweep that finds no rewrite, or when the allowed number of sweeps is
used up.

Every rewrite takes away a load, a store, an atomic operation or a slot, so without a
limit there are at most one more sweeps than such statements.
-/

namespace KernelIR

/-- Makes a rewrite on a slot, and reports it. -/
def Rewrite.apply (slot : StmtId) : Rewrite → Edit Event
  | zeroFold load type => do
    let lanes := List.replicate type.width type.element.zero
    let zero ← Context.createStmt (.const lanes) (some type)
    Context.insertAfter load zero
    Context.replaceAllUses load zero
    Context.erase load
    return .zeroFolded slot load zero
  | forward load value => do
    Context.replaceAllUses load value
    Context.erase load
    return .forwarded slot load value
  | deadStore store => do
    Context.erase store
    return .removedStore slot store
  | deadAtomic atomic => do
    Context.erase atomic
    return .removedAtomic slot atomic
  | deadAlloca => do
    Context.erase slot
    return .removedAlloca slot

/-- How a sweep ends, with the slots finished by then and what it reports. -/
structure Sweep where
  finished : List StmtId
  events : List Event
  /-- The slot at which the sweep ended early, and why. -/
  halt? : Option (StmtId × Halt)

/-- Analyzes slots of the tree `root` that are not finished. -/
def Context.sweep (c : Context) (root : Tree) : List Slot → List StmtId → Sweep
  | [], finished => ⟨finished, [], none⟩
  | slot :: rest, finished =>
    if slot.id ∈ finished then c.sweep root rest finished
    else
      match slot.analyze root (c.chain slot.id ≠ []) with
      | .error halt => ⟨finished, [.analyzing slot.id], some (slot.id, halt)⟩
      | .ok () =>
        let next := c.sweep root rest (slot.id :: finished)
        { next with events := .analyzing slot.id :: next.events }

/-- The state of the work between two sweeps. -/
structure Progress where
  finished : List StmtId
  events : List Event
  stats : Stats

def Progress.start : Progress :=
  ⟨[], [], .zero⟩

/-- What the work reports, and its counts or the statement that it does not handle. -/
structure Outcome where
  events : List Event
  result : Except PassError Stats

/-- Makes sweeps from `root`, at most the given number. -/
def sweeps (root : BlockId) : Nat → Progress → Edit Outcome
  | 0, p => return ⟨p.events ++ [.sweepLimit p.stats.sweeps], .ok p.stats⟩
  | bound + 1, p => do
    let c ← get
    if (c.block? root).isNone then throw .missing
    let tree := c.tree root
    let stats := { p.stats with sweeps := p.stats.sweeps + 1 }
    let sweep := c.sweep tree tree.slots p.finished
    let events := p.events ++ sweep.events
    match sweep.halt? with
    | none =>
      let stats := { stats with reachedFixpoint := true }
      return ⟨events ++ [.finished stats], .ok stats⟩
    | some (_, .violation error) => return ⟨events, .error error⟩
    | some (slot, .rewrite rewrite) =>
      let event ← rewrite.apply slot
      sweeps root bound
        ⟨sweep.finished, events ++ [event, .restarting rewrite stats.sweeps], stats.record rewrite⟩

/-- Whether a rewrite could take the statement away. -/
def Kind.isAccess : Kind → Bool
  | alloca | load _ | store _ _ | atomic _ _ _ => true
  | _ => false

/-- Optimizes the slots below a block, with the given limit of sweeps or to the end. -/
def optimizeSlots (root : BlockId) (maxSweeps? : Option Nat) : Edit Outcome := do
  let c ← get
  let accesses := (c.tree root).find fun _ stmt => stmt.kind.isAccess
  sweeps root (maxSweeps?.getD (accesses.length + 1)) .start

end KernelIR
