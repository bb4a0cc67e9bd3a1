import KernelIR.Kind

/-!
# Contexts

A `Context` holds statements and blocks, any number of trees of them side by side. A
statement knows the block that lists it and a block knows the statement that owns it;
both start without.

Who takes the value of a statement is recorded beside the operands, in one list of
`Use`s. `Context.chain` reads off the uses of one value, in the order in which they were
recorded. A value may be named before its statement exists, and then has a chain too.
-/

namespace KernelIR

/-- A statement, the type of its value, and the block that lists it. -/
structure Stmt where
  kind : Kind
  type? : Option ValueType
  block? : Option BlockId
deriving DecidableEq

/-- A list of statements, and the statement that owns it. -/
structure Block where
  stmts : List StmtId
  owner? : Option StmtId
deriving DecidableEq

/-- The value of `value` is taken by `user` as the operand at position `index`. -/
structure Use where
  value : StmtId
  user : StmtId
  index : Nat
deriving DecidableEq

/-- The uses that a statement makes of its operands. -/
def Kind.uses (k : Kind) (user : StmtId) : List Use :=
  k.operands.mapIdx fun i v => ⟨v, user, i⟩

/-- Statements, blocks and the uses of values. -/
structure Context where
  stmts : Array Stmt
  blocks : Array Block
  uses : List Use
deriving DecidableEq

namespace Context

def empty : Context :=
  ⟨#[], #[], []⟩

variable (c : Context)

def stmt? (s : StmtId) : Option Stmt :=
  c.stmts[s.index]?

def block? (b : BlockId) : Option Block :=
  c.blocks[b.index]?

/-- The uses of a value, oldest first. -/
def chain (v : StmtId) : List Use :=
  c.uses.filter (·.value == v)

/-- The statements listed in a block. -/
def listed (b : BlockId) : List StmtId :=
  match c.block? b with
  | some block => block.stmts
  | none => []

/-- The block that lists a statement. -/
def home? (s : StmtId) : Option BlockId :=
  (c.stmt? s).bind (·.block?)

/-- The statement that owns a block. -/
def owner? (b : BlockId) : Option StmtId :=
  (c.block? b).bind (·.owner?)

def type? (s : StmtId) : Option ValueType :=
  (c.stmt? s).bind (·.type?)

/-- The block that lists a statement, and the statement's position there. -/
def place? (s : StmtId) : Option (BlockId × Nat) :=
  (c.home? s).bind fun b => ((c.listed b).idxOf? s).map (b, ·)

def modifyStmt (s : StmtId) (f : Stmt → Stmt) : Context :=
  { c with stmts := c.stmts.modify s.index f }

def modifyBlock (b : BlockId) (f : Block → Block) : Context :=
  { c with blocks := c.blocks.modify b.index f }

theorem stmt?_modifyStmt (s t : StmtId) (f : Stmt → Stmt) :
    (c.modifyStmt s f).stmt? t = if s = t then (c.stmt? t).map f else c.stmt? t := by
  cases s
  cases t
  simp [modifyStmt, stmt?, Array.getElem?_modify]

theorem block?_modifyBlock (b d : BlockId) (f : Block → Block) :
    (c.modifyBlock b f).block? d = if b = d then (c.block? d).map f else c.block? d := by
  cases b
  cases d
  simp [modifyBlock, block?, Array.getElem?_modify]

end Context

end KernelIR
