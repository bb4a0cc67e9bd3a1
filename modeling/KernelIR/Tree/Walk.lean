import KernelIR.Tree

/-!
# Walks

A walk visits the statements of a tree in pre-order and carries a state along. Each visit
decides whether the statements nested in the current one are visited too, and it may end
the walk. `Tree.find` collects the statements that pass a test (`find_eq_filter`), and
`Tree.findM` does so for a test that carries a state of its own.
-/

namespace KernelIR

/-- What a visit asks for. -/
inductive Step (β : Type) where
  | descend
  | skip
  | stop (result : β)

namespace Tree

/-- Visits the statements in pre-order until a visit stops the walk, and returns what
stopped it, and the last state. -/
def walk {σ β : Type} (visit : StmtId → Stmt → σ → Step β × σ) : Tree → σ → Option β × σ
  | nil, state => (none, state)
  | cons id stmt first second rest, state =>
    match visit id stmt state with
    | (.stop b, state) => (some b, state)
    | (.skip, state) => rest.walk visit state
    | (.descend, state) =>
      match first.walk visit state with
      | (some b, state) => (some b, state)
      | (none, state) =>
        match second.walk visit state with
        | (some b, state) => (some b, state)
        | (none, state) => rest.walk visit state

/-- The statements that pass the test, in pre-order. -/
def find (test : StmtId → Stmt → Bool) (t : Tree) : List StmtId :=
  (t.walk (β := Empty)
    (fun id stmt found => (.descend, if test id stmt then found ++ [id] else found)) []).2

theorem walk_find (test : StmtId → Stmt → Bool) (t : Tree) (found : List StmtId) :
    t.walk (β := Empty)
      (fun id stmt found => (.descend, if test id stmt then found ++ [id] else found)) found =
      (none, found ++ (t.preorder.filter fun p => test p.1 p.2).map Prod.fst) := by
  induction t generalizing found with
  | nil => simp [walk, preorder]
  | cons id stmt first second rest ih₁ ih₂ ih₃ =>
    by_cases h : test id stmt <;> simp [walk, preorder, ih₁, ih₂, ih₃, h]

theorem find_eq_filter (test : StmtId → Stmt → Bool) (t : Tree) :
    t.find test = (t.preorder.filter fun p => test p.1 p.2).map Prod.fst := by
  simp [find, walk_find]

/-- Descends everywhere, and puts a statement that passes the test behind those found so far. -/
def collecting {τ : Type} (test : StmtId → Stmt → StateM τ Bool) (id : StmtId) (stmt : Stmt) :
    List StmtId × τ → Step Empty × (List StmtId × τ)
  | (found, state) =>
    let (passes, next) := test id stmt state
    (.descend, if passes then found ++ [id] else found, next)

/-- The statements that pass the test, in pre-order. The test carries a state along. -/
def findM {τ : Type} (test : StmtId → Stmt → StateM τ Bool) (t : Tree) : StateM τ (List StmtId) :=
  fun state => (t.walk (collecting test) ([], state)).2

end Tree

end KernelIR
