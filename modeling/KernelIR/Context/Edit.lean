import KernelIR.Context.Basic
import KernelIR.Context.Misuse

/-!
# Operations on a context

A context grows by `Context.createBlock` and `Context.createStmt`; `Context.push` and
`Context.insertAfter` list a statement in a block, `Context.erase` and `Context.eraseAt`
take it out again, and `Context.replaceAllUses` puts one value in the place of another.
An erased statement keeps its number and its operands, but its uses are forgotten, also
if it is listed again.

An `Edit` is a computation on a context that may be refused.
-/

namespace KernelIR

/-- A computation on a context. -/
abbrev Edit (α : Type) := StateT Context (Except Misuse) α

namespace Context

/-- Makes an empty block. -/
def createBlock : Edit BlockId := fun c =>
  .ok (⟨c.blocks.size⟩, { c with blocks := c.blocks.push ⟨[], none⟩ })

/-- Gives blocks without an owner to `taker`, one after the other. -/
def claim (taker : StmtId) : List BlockId → Context → Except Misuse Context
  | [], c => .ok c
  | b :: rest, c =>
    match c.block? b with
    | none => .error .missing
    | some block =>
      match block.owner? with
      | some owner => .error (.blockOwned b owner taker)
      | none => claim taker rest (c.modifyBlock b ({ · with owner? := some taker }))

/-- Makes a statement that no block lists, which comes to own the blocks of its kind. -/
def createStmt (kind : Kind) (type? : Option ValueType) : Edit StmtId := fun c => do
  let s : StmtId := ⟨c.stmts.size⟩
  let c ← claim s kind.blocks { c with stmts := c.stmts.push ⟨kind, type?, none⟩ }
  return (s, { c with uses := c.uses ++ kind.uses s })

/-- Lists a statement in a block at position `i`. -/
def list (c : Context) (b : BlockId) (i : Nat) (s : StmtId) : Context :=
  (c.modifyStmt s ({ · with block? := some b })).modifyBlock b
    fun block => { block with stmts := block.stmts.insertIdx i s }

/-- Lists a statement at the end of a block. -/
def push (b : BlockId) (s : StmtId) : Edit Unit := fun c =>
  match c.stmt? s with
  | none => .error .missing
  | some stmt =>
    match stmt.block? with
    | some home => .error (.pushListed s home)
    | none =>
      match c.block? b with
      | none => .error .missing
      | some block => .ok ((), c.list b block.stmts.length s)

/-- Lists a statement right after `anchor`. -/
def insertAfter (anchor s : StmtId) : Edit Unit := fun c =>
  match c.stmt? s with
  | none => .error .missing
  | some stmt =>
    match stmt.block? with
    | some home => .error (.insertListed s home)
    | none =>
      if (c.stmt? anchor).isNone then .error .missing
      else
        match c.place? anchor with
        | none => .error (.anchorDetached anchor)
        | some (b, i) => .ok ((), c.list b (i + 1) s)

/-- Takes the statement `s` at position `i` out of a block and forgets its uses. -/
def unlist (c : Context) (b : BlockId) (i : Nat) (s : StmtId) : Context :=
  let c := (c.modifyStmt s ({ · with block? := none })).modifyBlock b
    fun block => { block with stmts := block.stmts.eraseIdx i }
  { c with uses := c.uses.filter (·.user != s) }

/-- Erases the statement at position `i` of a block. Its value must not be used. -/
def eraseAt (b : BlockId) (i : Nat) : Edit Unit := fun c =>
  match (c.listed b)[i]? with
  | none => .error .missing
  | some s =>
    if c.chain s = [] then .ok ((), c.unlist b i s)
    else .error (.eraseUsed s (c.chain s).length)

/-- Erases a statement from the block that lists it. Its value must not be used. -/
def erase (s : StmtId) : Edit Unit := fun c =>
  if (c.stmt? s).isNone then .error .missing
  else
    match c.place? s with
    | none => .error (.eraseDetached s)
    | some (b, i) => eraseAt b i c

/-- Puts `new` wherever a use of `old` is recorded. The uses of `new` come first in its
chain, and those it takes over follow. -/
def replaceAllUses (old new : StmtId) : Edit Unit := fun c =>
  if old = new then .ok ((), c)
  else
    let moved := c.chain old
    let redirect (user : StmtId) (i : Nat) (v : StmtId) : StmtId :=
      if ⟨old, user, i⟩ ∈ moved then new else v
    .ok ((), {
      stmts := c.stmts.mapIdx fun u stmt =>
        { stmt with kind := stmt.kind.mapOperands (redirect ⟨u⟩) }
      blocks := c.blocks
      uses := c.uses.filter (·.value != old) ++ moved.map ({ · with value := new }) })

end Context

end KernelIR
