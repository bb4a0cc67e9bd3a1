import KernelIR.Context.Basic

/-!
# Statement trees

A `Tree` is a list of statements with everything nested in them : a statement, the trees
of its two blocks, and the statements that follow it in its own block. `Context.tree`
reads the tree below a block out of a context. A block has one owner, so on the way down
from a block no block is met twice, and the number of blocks bounds the depth of the
tree.

`Tree.preorder` lists a statement before those nested in it, and these before those that
follow.
-/

namespace KernelIR

/-- Statements with what is nested in them. A block that is absent is an empty tree. -/
inductive Tree where
  | nil
  | cons (id : StmtId) (stmt : Stmt) (first second rest : Tree)

namespace Tree

/-- All statements of the tree, each before the statements nested in it. -/
def preorder : Tree → List (StmtId × Stmt)
  | nil => []
  | cons id stmt first second rest =>
    (id, stmt) :: (first.preorder ++ second.preorder ++ rest.preorder)

/-- The statements of the tree, by number. -/
def ids (t : Tree) : List StmtId :=
  t.preorder.map Prod.fst

/-- The statements of the tree that have a value. -/
def values (t : Tree) : List StmtId :=
  (t.preorder.filter fun p => p.2.kind.hasValue).map Prod.fst

/-- The number of statements. -/
def size : Tree → Nat
  | nil => 0
  | cons _ _ first second rest => 1 + first.size + second.size + rest.size

theorem length_preorder (t : Tree) : t.preorder.length = t.size := by
  induction t with
  | nil => rfl
  | cons _ _ _ _ _ ih₁ ih₂ ih₃ =>
    simp only [preorder, size, List.length_cons, List.length_append, ih₁, ih₂, ih₃]
    omega

end Tree

namespace Context

/-- Puts a statement in front of a tree, with the trees that `below` gives for its
blocks. -/
def graft (c : Context) (below : BlockId → Tree) (s : StmtId) (rest : Tree) : Tree :=
  match c.stmt? s with
  | none => rest
  | some stmt =>
    .cons s stmt (stmt.kind.firstBlock?.elim .nil below) (stmt.kind.secondBlock?.elim .nil below)
      rest

/-- The tree below a block, down to the given depth. -/
def treeAt (c : Context) : Nat → BlockId → Tree
  | 0, _ => .nil
  | depth + 1, b => (c.listed b).foldr (c.graft (treeAt c depth)) .nil

/-- The tree below a block. -/
def tree (c : Context) (b : BlockId) : Tree :=
  c.treeAt c.blocks.size b

/-- A statement alone, with what is nested in it. -/
def stmtTree (c : Context) (s : StmtId) : Tree :=
  c.graft c.tree s .nil

end Context

end KernelIR
