import KernelIR.Ref

/-!
# Misuse of a context

The operations on a context demand that what they are given exists, that nothing is
listed or owned twice, and that no value is erased while it is used. A `Misuse` is the
demand that was not met. `Misuse.message?` words the ones that a caller is told about.
-/

namespace KernelIR

/-- Why an operation on a context is refused. -/
inductive Misuse where
  /-- There is no such statement, block or position. -/
  | missing
  | blockOwned (block : BlockId) (owner taker : StmtId)
  | pushListed (stmt : StmtId) (block : BlockId)
  | insertListed (stmt : StmtId) (block : BlockId)
  | anchorDetached (anchor : StmtId)
  | eraseDetached (stmt : StmtId)
  | eraseUsed (stmt : StmtId) (uses : Nat)
  /-- A constant or a load has no lanes, and so no text. -/
  | noLanes (stmt : StmtId)
deriving DecidableEq

namespace Misuse

def message? : Misuse → Option String
  | missing => none
  | blockOwned block owner taker =>
    some s!"create_stmt: {block} already belongs to {owner}; cannot reassign to {taker}"
  | pushListed stmt block =>
    some s!"push_stmt: {stmt} already belongs to {block}; erase it from the old block first"
  | insertListed stmt block =>
    some s!"insert_after: {stmt} already belongs to {block}; erase it from the old block first"
  | anchorDetached anchor => some s!"insert_after: anchor {anchor} is not in a block"
  | eraseDetached stmt => some s!"erase: {stmt} is not in a block"
  | eraseUsed stmt uses =>
    some s!"erase: {stmt} still has {uses} use(s); replace all uses before erasing it"
  | noLanes _ => none

end Misuse

end KernelIR
