import KernelIR.Slot.Scan

/-!
# Events

What the optimizer reports about its work, and the counts that it keeps.
-/

namespace KernelIR

/-- How often each rewrite was made, and in how many sweeps. -/
structure Stats where
  zeroFoldedLoads : Nat
  forwardedLoads : Nat
  removedStores : Nat
  removedAtomics : Nat
  removedAllocas : Nat
  /-- The sweeps begun, the last one included, which changed nothing. -/
  sweeps : Nat
  /-- No further rewrite is possible. -/
  reachedFixpoint : Bool
deriving DecidableEq

namespace Stats

def zero : Stats :=
  ⟨0, 0, 0, 0, 0, 0, false⟩

def totalRewrites (s : Stats) : Nat :=
  s.zeroFoldedLoads + s.forwardedLoads + s.removedStores + s.removedAtomics + s.removedAllocas

def record (s : Stats) : Rewrite → Stats
  | .zeroFold _ _ => { s with zeroFoldedLoads := s.zeroFoldedLoads + 1 }
  | .forward _ _ => { s with forwardedLoads := s.forwardedLoads + 1 }
  | .deadStore _ => { s with removedStores := s.removedStores + 1 }
  | .deadAtomic _ => { s with removedAtomics := s.removedAtomics + 1 }
  | .deadAlloca => { s with removedAllocas := s.removedAllocas + 1 }

end Stats

/-- The word for a rewrite. -/
def Rewrite.name : Rewrite → String
  | zeroFold _ _ => "ZeroFold"
  | forward _ _ => "Forward"
  | deadStore _ => "DeadStore"
  | deadAtomic _ => "DeadAtomic"
  | deadAlloca => "DeadAlloca"

/-- How much detail an event is. -/
inductive Level where
  | info
  | debug
  | trace
deriving DecidableEq

def Level.name : Level → String
  | info => "INFO"
  | debug => "DEBUG"
  | trace => "TRACE"

/-- Something that the optimizer reports. -/
inductive Event where
  | analyzing (slot : StmtId)
  | zeroFolded (slot load zero : StmtId)
  | forwarded (slot load value : StmtId)
  | removedStore (slot store : StmtId)
  | removedAtomic (slot atomic : StmtId)
  | removedAlloca (slot : StmtId)
  | restarting (rewrite : Rewrite) (sweep : Nat)
  | sweepLimit (sweeps : Nat)
  | finished (stats : Stats)
  | optimized (kernel : String) (rewrites : Nat)
deriving DecidableEq

namespace Event

def level : Event → Level
  | analyzing _ => .trace
  | finished _ => .info
  | _ => .debug

def message : Event → String
  | analyzing _ => "analyzing alloca"
  | zeroFolded _ _ _ => "zero-folded load"
  | forwarded _ _ _ => "forwarded load"
  | removedStore _ _ => "removed dead store"
  | removedAtomic _ _ => "removed dead atomic"
  | removedAlloca _ => "removed dead alloca"
  | restarting _ _ => "restarting"
  | sweepLimit _ => "sweep limit reached"
  | finished _ => "local variable optimization finished"
  | optimized _ _ => "optimized kernel"

/-- The particulars of an event, by name. -/
def fields : Event → List (String × String)
  | analyzing slot => [("slot", toString slot)]
  | zeroFolded slot load zero =>
    [("slot", toString slot), ("load", toString load), ("zero", toString zero)]
  | forwarded slot load value =>
    [("slot", toString slot), ("load", toString load), ("value", toString value)]
  | removedStore slot store => [("slot", toString slot), ("store", toString store)]
  | removedAtomic slot atomic => [("slot", toString slot), ("atomic", toString atomic)]
  | removedAlloca slot => [("slot", toString slot)]
  | restarting rewrite sweep => [("rewrite", rewrite.name), ("sweep", toString sweep)]
  | sweepLimit sweeps => [("sweeps", toString sweeps)]
  | finished stats =>
    [("zero_folded", toString stats.zeroFoldedLoads), ("forwarded", toString stats.forwardedLoads),
      ("stores", toString stats.removedStores), ("atomics", toString stats.removedAtomics),
      ("allocas", toString stats.removedAllocas), ("sweeps", toString stats.sweeps)]
  | optimized kernel rewrites => [("kernel", kernel), ("rewrites", toString rewrites)]

end Event

end KernelIR
