import KernelIR.Kernel
import KernelIR.Tree

/-!
# The verifier

A kernel is valid if every operand is a value defined earlier in the same block or in an
enclosing one, if slots stand where slots are meant and nowhere else, and if the uses
recorded in the context are those of the operands. `Context.verify` decides this and
reports the first fault : the tree is checked for scopes and slots in pre-order, and only
then for its uses.
-/

namespace KernelIR

/-- How the recorded uses of a value and the operands disagree. -/
inductive UseFault where
  | unrecorded (user : StmtId) (index : Nat) (operand : StmtId)
  | foreignUser (value user : StmtId)
  | otherOperand (value user : StmtId) (index : Nat)
deriving DecidableEq

/-- Why a kernel is not valid. -/
inductive VerifyError where
  | brokenParentLink (stmt : StmtId) (block : BlockId)
  | brokenBlockOwner (block : BlockId) (owner : StmtId)
  | outOfScope (user : StmtId) (index : Nat) (operand : StmtId)
  | noValue (user : StmtId) (index : Nat) (operand : StmtId)
  | slotRequired (user : StmtId) (index : Nat)
  | slotAsValue (user : StmtId) (index : Nat) (slot : StmtId)
  | useChain (fault : UseFault)
deriving DecidableEq

def UseFault.message : UseFault → String
  | unrecorded user index operand =>
    s!"operand #{index} of {user} is {operand}, but {operand} does not record the use"
  | foreignUser value user => s!"{value} records a use by {user}, which is not in the kernel"
  | otherOperand value user index =>
    s!"{value} records a use as operand #{index} of {user}, which holds a different value"

def VerifyError.message : VerifyError → String
  | brokenParentLink stmt block => s!"{stmt} is listed in {block} but not parented to it"
  | brokenBlockOwner block owner => s!"{block} is owned by {owner} but not parented to it"
  | outOfScope user index operand =>
    s!"operand #{index} of {user} refers to {operand}, which is not in scope"
  | noValue user index operand =>
    s!"operand #{index} of {user} refers to {operand}, which has no value"
  | slotRequired user index => s!"operand #{index} of {user} must be an alloca"
  | slotAsValue user index slot =>
    s!"operand #{index} of {user} uses alloca {slot} as a plain value"
  | useChain fault => s!"use-chain mismatch: {fault.message}"

/-- Whether an operand is a slot. -/
inductive SlotRole where
  | required
  | allowed
  | forbidden
deriving DecidableEq

/-- The roles of the operands, in their order. -/
def Kind.roles : Kind → List SlotRole
  | load lanes => lanes.map fun _ => .required
  | store _ _ | atomic _ _ _ => [.required, .forbidden]
  | rangeFor _ _ _ _ => [.allowed, .forbidden, .forbidden]
  | structFor counters _ _ => counters.map fun _ => .allowed
  | branch _ trueMask falseMask _ _ =>
    .forbidden :: (trueMask.toList ++ falseMask.toList).map fun _ => .allowed
  | loop mask _ => mask.toList.map fun _ => .allowed
  | k => k.operands.map fun _ => .forbidden

theorem Kind.length_roles (k : Kind) : k.roles.length = k.operands.length := by
  cases k <;> simp [roles, operands]

namespace Context

variable (c : Context)

def hasValue (s : StmtId) : Bool :=
  match c.stmt? s with
  | some stmt => stmt.kind.hasValue
  | none => false

def isSlot (s : StmtId) : Bool :=
  match c.stmt? s with
  | some stmt => stmt.kind.isAlloca
  | none => false

/-- The operands of a statement. -/
def operandsOf (s : StmtId) : List StmtId :=
  match c.stmt? s with
  | some stmt => stmt.kind.operands
  | none => []

/-- Checks one operand of `user` against the values in scope. -/
def checkOperand (scope : List StmtId) (user : StmtId) (index : Nat) (operand : StmtId)
    (role : SlotRole) : Except VerifyError Unit :=
  if operand ∉ scope then .error (.outOfScope user index operand)
  else if !c.hasValue operand then .error (.noValue user index operand)
  else if role = .required ∧ !c.isSlot operand then .error (.slotRequired user index)
  else if role = .forbidden ∧ c.isSlot operand then .error (.slotAsValue user index operand)
  else .ok ()

/-- Checks operands of `user` from position `index` on. -/
def checkOperands (scope : List StmtId) (user : StmtId) :
    Nat → List (StmtId × SlotRole) → Except VerifyError Unit
  | _, [] => .ok ()
  | index, (operand, role) :: rest => do
    c.checkOperand scope user index operand role
    checkOperands scope user (index + 1) rest

/-- Checks that `owner` owns a block, if there is one, and then the block itself. -/
def checkBlock (owner : StmtId) (check : BlockId → Except VerifyError Unit) :
    Option BlockId → Except VerifyError Unit
  | none => .ok ()
  | some b => if c.owner? b = some owner then check b else .error (.brokenBlockOwner b owner)

/-- Checks scopes and slots in the statements of a block. `scope` holds the values
defined so far. -/
def checkScopes : Tree → BlockId → List StmtId → Except VerifyError Unit
  | .nil, _, _ => .ok ()
  | .cons id stmt first second rest, home, scope => do
    if stmt.block? ≠ some home then throw (.brokenParentLink id home)
    c.checkOperands scope id 0 (stmt.kind.operands.zip stmt.kind.roles)
    c.checkBlock id (fun b => checkScopes first b scope) stmt.kind.firstBlock?
    c.checkBlock id (fun b => checkScopes second b scope) stmt.kind.secondBlock?
    checkScopes rest home (if stmt.kind.hasValue then id :: scope else scope)

/-- Checks that the uses of operands of `user` are recorded, from position `index` on. -/
def checkRecorded (user : StmtId) : Nat → List StmtId → Except VerifyError Unit
  | _, [] => .ok ()
  | index, operand :: rest =>
    if ⟨operand, user, index⟩ ∈ c.uses then checkRecorded user (index + 1) rest
    else .error (.useChain (.unrecorded user index operand))

/-- Checks that recorded uses are by statements of the kernel that hold the value. -/
def checkChain (kernel : List StmtId) : List Use → Except VerifyError Unit
  | [] => .ok ()
  | u :: rest =>
    if u.user ∉ kernel then .error (.useChain (.foreignUser u.value u.user))
    else if (c.operandsOf u.user)[u.index]? ≠ some u.value then
      .error (.useChain (.otherOperand u.value u.user u.index))
    else checkChain kernel rest

/-- Checks the uses that statements make and the uses of their values. -/
def checkUses (kernel : List StmtId) : List StmtId → Except VerifyError Unit
  | [] => .ok ()
  | s :: rest => do
    c.checkRecorded s 0 (c.operandsOf s)
    c.checkChain kernel (c.chain s)
    checkUses kernel rest

/-- Checks a kernel, and reports its first fault. -/
def verify (kernel : Kernel) : Except VerifyError Unit := do
  let tree := c.tree kernel.body
  c.checkScopes tree kernel.body []
  c.checkUses tree.ids tree.ids

end Context

end KernelIR
