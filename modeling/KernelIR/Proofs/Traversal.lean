import KernelIR.Proofs.Tree.Unfolding
import KernelIR.Tree.Walk

/-!
# What walks visit

The calls of a walk are told apart from its result by a visit that keeps a record of them
(`recording`, `Tree.calls`). They follow the pre-order of the tree (`Context.Walked`) : what is
nested in a skipped statement is left out, no call follows one that stops the walk, and each call
finds the state that the call before it left.

This holds of the walk below a block and of the walk from a statement
(`Context.walks_in_preorder`), whatever the visit answers and whatever its state is.
-/

namespace KernelIR

variable {σ β : Type}

/-- What ends a walk, if the step does. -/
def Step.result? : Step β → Option β
  | stop b => some b
  | _ => none

/-- A statement that a walk visited, with the step that the visit asked for. -/
structure Call (β : Type) where
  id : StmtId
  step : Step β

/-- The visit, and a record of its calls. -/
def recording (visit : StmtId → Stmt → σ → Step β × σ) (id : StmtId) (stmt : Stmt) :
    List (Call β) × σ → Step β × (List (Call β) × σ)
  | (calls, state) =>
    let (step, next) := visit id stmt state
    (step, (calls ++ [⟨id, step⟩], next))

/-- The calls that a walk makes, in their order. -/
def Tree.calls (visit : StmtId → Stmt → σ → Step β × σ) (t : Tree) (state : σ) : List (Call β) :=
  (t.walk (recording visit) ([], state)).2.1

namespace Context

/-- The calls are made one after the other : each is answered in the state that the call before it
left, and the last one leaves `final`. -/
inductive Answered (c : Context) (visit : StmtId → Stmt → σ → KernelIR.Step β × σ) :
    σ → List (Call β) → σ → Prop where
  | nil {state : σ} : Answered c visit state [] state
  | cons {id : StmtId} {stmt : Stmt} {step : KernelIR.Step β} {state next final : σ}
    {calls : List (Call β)} (present : c.stmt? id = some stmt)
    (visited : visit id stmt state = (step, next)) (behind : Answered c visit next calls final) :
    Answered c visit state (⟨id, step⟩ :: calls) final

/-- The statement is not nested in one that the calls skip. -/
def Unskipped (c : Context) (calls : List (Call β)) (s : StmtId) : Prop :=
  ∀ call ∈ calls, call.step = .skip → ¬c.Nested call.id s

open Classical in
/-- The statements that are not nested in one that the calls skip. -/
noncomputable def remaining (c : Context) (calls : List (Call β)) (all : List StmtId) :
    List StmtId :=
  all.filter fun s => c.Unskipped calls s

/-- The calls of a walk over the statements `all`, which begins in `state` and ends in `final`. -/
structure Walked (c : Context) (visit : StmtId → Stmt → σ → KernelIR.Step β × σ)
    (all : List StmtId) (state : σ) (calls : List (Call β)) (result : Option β) (final : σ) :
    Prop where
  answered : c.Answered visit state calls final
  /-- The statements that are not left out are called in their order. -/
  inOrder : calls.map Call.id <+: c.remaining calls all
  /-- A walk that is not stopped calls all of them. -/
  exhausts : result = none → calls.map Call.id = c.remaining calls all
  /-- No call follows one that stops. -/
  stops : calls.Pairwise fun call _ => call.step.result? = none
  returns : result = calls.findSome? fun call => call.step.result?

variable {c : Context} {visit : StmtId → Stmt → σ → KernelIR.Step β × σ} {state next final : σ}
  {calls calls' : List (Call β)} {all all' : List StmtId} {result : Option β} {id s : StmtId}
  {stmt : Stmt}

/-! ## Walks one after the other -/

theorem Answered.append {mid : σ} (h : c.Answered visit state calls mid)
    (h' : c.Answered visit mid calls' final) : c.Answered visit state (calls ++ calls') final := by
  induction h with
  | nil => exact h'
  | cons present visited _ ih => exact .cons present visited (ih h')

theorem unskipped_append :
    c.Unskipped (calls ++ calls') s ↔ c.Unskipped calls s ∧ c.Unskipped calls' s :=
  List.forall_mem_append

theorem mem_remaining : s ∈ c.remaining calls all ↔ s ∈ all ∧ c.Unskipped calls s := by
  simp [remaining]

theorem remaining_append :
    c.remaining calls (all ++ all') = c.remaining calls all ++ c.remaining calls all' :=
  List.filter_append all all'

theorem remaining_cons (h : c.Unskipped calls id) :
    c.remaining calls (id :: all) = id :: c.remaining calls all :=
  List.filter_cons_of_pos (by simpa using h)

theorem remaining_congr (h : ∀ s ∈ all, c.Unskipped calls s ↔ c.Unskipped calls' s) :
    c.remaining calls all = c.remaining calls' all :=
  List.filter_congr fun s hs => by simp [h s hs]

theorem remaining_eq_nil (h : ∀ s ∈ all, ¬c.Unskipped calls s) : c.remaining calls all = [] :=
  List.filter_eq_nil_iff.2 fun s hs => by simpa using h s hs

namespace Walked

theorem mem_all (h : c.Walked visit all state calls result final) {call : Call β}
    (hcall : call ∈ calls) : call.id ∈ all :=
  (mem_remaining.1 (h.inOrder.subset (List.mem_map_of_mem hcall))).1

/-- Calls leave nothing out that is not nested in one of their statements. -/
theorem unskipped (h : c.Walked visit all state calls result final) {w : List StmtId}
    (hapart : c.Apart all w) (hs : s ∈ w) : c.Unskipped calls s :=
  fun _ hcall _ => hapart _ (h.mem_all hcall) s hs

/-- No statement is called twice. -/
theorem nodup (h : c.Walked visit all state calls result final) (hall : all.Nodup) :
    (calls.map Call.id).Nodup :=
  (hall.filter _).sublist h.inOrder.sublist

theorem nil : c.Walked visit [] state [] none state :=
  ⟨.nil, List.nil_prefix, fun _ => rfl, .nil, rfl⟩

/-- A walk that is stopped does not come to what follows. -/
theorem stopped {r : β} (h : c.Walked visit all state calls (some r) final)
    (rest : List StmtId) : c.Walked visit (all ++ rest) state calls (some r) final where
  answered := h.answered
  inOrder := by
    rw [remaining_append]
    exact List.prefix_append_of_prefix h.inOrder
  exhausts := nofun
  stops := h.stops
  returns := h.returns

/-- A walk that is not stopped goes on with what follows. -/
theorem append {mid : σ} (h : c.Walked visit all state calls none mid)
    (h' : c.Walked visit all' mid calls' result final)
    (hapart : c.Apart all all') (hapart' : c.Apart all' all) :
    c.Walked visit (all ++ all') state (calls ++ calls') result final := by
  have hremaining : c.remaining (calls ++ calls') (all ++ all') =
      calls.map Call.id ++ c.remaining calls' all' := by
    -- the calls of either part leave out nothing of the other
    have hfirst : c.remaining (calls ++ calls') all = c.remaining calls all :=
      remaining_congr fun s hs =>
        unskipped_append.trans (and_iff_left (h'.unskipped hapart' hs))
    have hsecond : c.remaining (calls ++ calls') all' = c.remaining calls' all' :=
      remaining_congr fun s hs =>
        unskipped_append.trans (and_iff_right (h.unskipped hapart hs))
    rw [remaining_append, hfirst, hsecond, h.exhausts rfl]
  have hquiet : ∀ call ∈ calls, call.step.result? = none :=
    List.findSome?_eq_none_iff.1 h.returns.symm
  refine ⟨h.answered.append h'.answered, ?_, fun hr => ?_, ?_, ?_⟩
  · rw [hremaining, List.map_append, List.prefix_append_right_inj]
    exact h'.inOrder
  · rw [hremaining, List.map_append, h'.exhausts hr]
  · exact List.pairwise_append.2 ⟨h.stops, h'.stops, fun call hcall _ _ => hquiet call hcall⟩
  · rw [List.findSome?_append, ← h.returns, Option.none_or]
    exact h'.returns

/-- A visit that stops is the last one. -/
theorem stop {r : β} (hstmt : c.stmt? id = some stmt)
    (hvisit : visit id stmt state = (.stop r, next)) (rest : List StmtId) :
    c.Walked visit (id :: rest) state [⟨id, .stop r⟩] (some r) next where
  answered := .cons hstmt hvisit .nil
  inOrder := by
    rw [remaining_cons (by simp [Unskipped])]
    exact List.cons_prefix_cons.2 ⟨rfl, List.nil_prefix⟩
  exhausts := nofun
  stops := List.pairwise_singleton _ _
  returns := rfl

/-- A visit that does not stop is followed by others, which go through what it leaves. -/
theorem cons {step : KernelIR.Step β} {left : List StmtId} (hstmt : c.stmt? id = some stmt)
    (hvisit : visit id stmt state = (step, next)) (hstep : step.result? = none)
    (hleft : c.remaining (⟨id, step⟩ :: calls) left = id :: c.remaining calls all)
    (h : c.Walked visit all next calls result final) :
    c.Walked visit left state (⟨id, step⟩ :: calls) result final := by
  refine ⟨.cons hstmt hvisit h.answered, ?_, fun hr => ?_, ?_, ?_⟩
  · rw [hleft]
    exact List.cons_prefix_cons.2 ⟨rfl, h.inOrder⟩
  · rw [hleft, List.map_cons, h.exhausts hr]
  · exact List.pairwise_cons.2 ⟨fun _ _ => hstep, h.stops⟩
  · rw [List.findSome?_cons, hstep]
    exact h.returns

/-- A visit that descends leaves nothing out. -/
theorem descend (hstmt : c.stmt? id = some stmt) (hvisit : visit id stmt state = (.descend, next))
    (hapart : c.Apart all [id]) (h : c.Walked visit all next calls result final) :
    c.Walked visit (id :: all) state (⟨id, .descend⟩ :: calls) result final := by
  have hsame : ∀ s, c.Unskipped (⟨id, .descend⟩ :: calls) s ↔ c.Unskipped calls s := fun s => by
    simp [Unskipped]
  refine h.cons hstmt hvisit rfl ?_
  rw [remaining_cons ((hsame id).2 (h.unskipped hapart (List.mem_singleton_self id))),
    remaining_congr fun s _ => hsame s]

/-- A visit that skips a statement leaves out what is nested in it, and nothing else. -/
theorem skip {first second : List StmtId} (hstmt : c.stmt? id = some stmt)
    (hvisit : visit id stmt state = (.skip, next)) (hparts : c.Parted id first second all)
    (h : c.Walked visit all next calls result final) :
    c.Walked visit (id :: (first ++ second ++ all)) state (⟨id, .skip⟩ :: calls) result final := by
  have hskip : ∀ s, c.Unskipped (⟨id, .skip⟩ :: calls) s ↔
      ¬c.Nested id s ∧ c.Unskipped calls s := fun s => by simp [Unskipped]
  have hself : ∀ s ∈ id :: all, ¬c.Nested id s := hparts.self id (List.mem_singleton_self id)
  have habove : c.Unskipped calls id := fun call hcall _ =>
    hparts.above _ (List.mem_append_right _ (h.mem_all hcall)) id (List.mem_singleton_self id)
  refine h.cons hstmt hvisit rfl ?_
  rw [remaining_cons ((hskip id).2 ⟨hself id List.mem_cons_self, habove⟩), remaining_append,
    remaining_eq_nil fun s hs hs' => ((hskip s).1 hs').1 ((hparts.nested s).2 hs),
    List.nil_append, remaining_congr fun s hs =>
      (hskip s).trans (and_iff_right (hself s (List.mem_cons_of_mem id hs)))]

end Walked

/-! ## Walks over trees -/

variable (visit) in
/-- A walk over an unfolding goes through its statements in pre-order, and its record shows the
calls that it makes. -/
theorem exists_walked {t : Tree} {l : List StmtId} (h : c.Intact) (ht : t.Unfolds c l)
    (hn : t.ids.Nodup) (log : List (Call β)) (state : σ) :
    ∃ calls result final, t.walk visit state = (result, final) ∧
      t.walk (recording visit) (log, state) = (result, (log ++ calls, final)) ∧
      c.Walked visit t.ids state calls result final := by
  -- the walk of a part begins behind the calls of the parts before it, in the state they leave
  induction ht generalizing log state with
  | nil => exact ⟨[], none, state, rfl, by simp [Tree.walk], .nil⟩
  | @cons id stmt first second rest l present nested₁ nested₂ behind ih₁ ih₂ ih₃ =>
    have hparts := nested₁.parted h present nested₂ behind hn
    rw [Tree.ids_cons] at hn ⊢
    rw [List.nodup_cons, List.nodup_append', List.nodup_append'] at hn
    obtain ⟨-, ⟨hn₁, hn₂, -⟩, hn₃, -⟩ := hn
    rcases hvisit : visit id stmt state with ⟨step, next⟩
    cases step with
    | stop r =>
      exact ⟨_, _, _, by simp [Tree.walk, hvisit], by simp [Tree.walk, recording, hvisit],
        .stop present hvisit _⟩
    | skip =>
      obtain ⟨calls, result, final, hwalk, hrecord, hwalked⟩ :=
        ih₃ hn₃ (log ++ [⟨id, .skip⟩]) next
      exact ⟨_, _, _, by simp [Tree.walk, hvisit, hwalk],
        by simp [Tree.walk, recording, hvisit, hrecord], .skip present hvisit hparts hwalked⟩
    | descend =>
      obtain ⟨calls₁, result₁, mid₁, hwalk₁, hrecord₁, hwalked₁⟩ :=
        ih₁ hn₁ (log ++ [⟨id, .descend⟩]) next
      cases result₁ with
      | some r =>
        exact ⟨_, _, _, by simp [Tree.walk, hvisit, hwalk₁],
          by simp [Tree.walk, recording, hvisit, hrecord₁],
          .descend present hvisit hparts.above ((hwalked₁.stopped _).stopped _)⟩
      | none =>
        obtain ⟨calls₂, result₂, mid₂, hwalk₂, hrecord₂, hwalked₂⟩ :=
          ih₂ hn₂ (log ++ ⟨id, .descend⟩ :: calls₁) mid₁
        have hinner := hwalked₁.append hwalked₂ hparts.first_second hparts.second_first
        cases result₂ with
        | some r =>
          exact ⟨_, _, _, by simp [Tree.walk, hvisit, hwalk₁, hwalk₂],
            by simp [Tree.walk, recording, hvisit, hrecord₁, hrecord₂],
            .descend present hvisit hparts.above (hinner.stopped _)⟩
        | none =>
          obtain ⟨calls₃, result, final, hwalk₃, hrecord₃, hwalked₃⟩ :=
            ih₃ hn₃ (log ++ ⟨id, .descend⟩ :: (calls₁ ++ calls₂)) mid₂
          exact ⟨_, _, _, by simp [Tree.walk, hvisit, hwalk₁, hwalk₂, hwalk₃],
            by simp [Tree.walk, recording, hvisit, hrecord₁, hrecord₂, hrecord₃],
            .descend present hvisit hparts.above
              (hinner.append hwalked₃ hparts.blocks_rest hparts.rest_blocks)⟩

/-- The walk goes through the statements `l` and what is nested in them, each at most once : the
tree is what they unfold to, and the calls are those of a walk over it in pre-order. -/
structure Traverses (c : Context) (visit : StmtId → Stmt → σ → KernelIR.Step β × σ) (state : σ)
    (l : List StmtId) (t : Tree) : Prop where
  unfolds : t.Unfolds c l
  once : ((t.calls visit state).map Call.id).Nodup
  walked : c.Walked visit t.ids state (t.calls visit state) (t.walk visit state).1
    (t.walk visit state).2

theorem traverses {t : Tree} {l : List StmtId} (h : c.Intact) (ht : t.Unfolds c l)
    (hn : t.ids.Nodup) : c.Traverses visit state l t := by
  obtain ⟨calls, result, final, hwalk, hrecord, hwalked⟩ := exists_walked visit h ht hn [] state
  have hcalls : t.calls visit state = calls := by simp [Tree.calls, hrecord]
  refine ⟨ht, ?_, ?_⟩
  · rw [hcalls]
    exact hwalked.nodup hn
  · rw [hcalls, hwalk]
    exact hwalked

end Context

/-! ## Finding statements -/

section Find

variable {τ : Type}

theorem filterAuxM_append {m : Type → Type} [Monad m] [LawfulMonad m] {α : Type}
    (test : α → m Bool) (l l' acc : List α) :
    (l ++ l').filterAuxM test acc = l.filterAuxM test acc >>= l'.filterAuxM test := by
  induction l generalizing acc with
  | nil => simp [List.filterAuxM]
  | cons a l ih => simp [List.filterAuxM, ih]

namespace Tree

/-- The walk collects what a filter collects, in the same states of the test. -/
theorem walk_collecting (test : StmtId → Stmt → StateM τ Bool) (t : Tree)
    (found : List (StmtId × Stmt)) (state : τ) :
    t.walk (collecting test) (found.reverse.map Prod.fst, state) =
      match t.preorder.filterAuxM (fun p => test p.1 p.2) found state with
      | (found, state) => (none, found.reverse.map Prod.fst, state) := by
  induction t generalizing found state with
  | nil => rfl
  | cons id stmt first second rest ih₁ ih₂ ih₃ =>
    obtain ⟨passes, next, h⟩ : ∃ passes next, test id stmt state = (passes, next) := ⟨_, _, rfl⟩
    have hvisit : collecting test id stmt (found.reverse.map Prod.fst, state) =
        (.descend, (bif passes then (id, stmt) :: found else found).reverse.map Prod.fst,
          next) := by
      cases passes <;> simp [collecting, h]
    obtain ⟨found₁, state₁, h₁⟩ : ∃ found₁ state₁, first.preorder.filterAuxM
        (fun p => test p.1 p.2) (bif passes then (id, stmt) :: found else found) next =
          (found₁, state₁) := ⟨_, _, rfl⟩
    obtain ⟨found₂, state₂, h₂⟩ : ∃ found₂ state₂, second.preorder.filterAuxM
        (fun p => test p.1 p.2) found₁ state₁ = (found₂, state₂) := ⟨_, _, rfl⟩
    rw [preorder, List.filterAuxM]
    simp only [filterAuxM_append, walk, bind, StateT.bind, h, hvisit, ih₁, h₁, ih₂, h₂, ih₃]

theorem findM_eq_filterM (test : StmtId → Stmt → StateM τ Bool) (t : Tree) :
    t.findM test = List.map Prod.fst <$> t.preorder.filterM fun p => test p.1 p.2 := by
  funext state
  have hwalk := walk_collecting test t [] state
  rw [List.reverse_nil, List.map_nil] at hwalk
  rw [findM, hwalk]
  rfl

end Tree

end Find

/-! ## Walks below a block and from a statement -/

namespace Context

variable {c : Context}

/-- The walk below a block and the walk from a statement go through the statements there in
pre-order, whatever the visit answers : all that is nested in a skipped statement is left out, and
nothing is visited after the first visit that stops, whose result is returned. What is found below
a block is what passes the test, in pre-order. -/
theorem walks_in_preorder (h : c.Reachable) (visit : StmtId → Stmt → σ → KernelIR.Step β × σ)
    (state : σ) :
    (∀ b, c.FiniteBelow b → c.Traverses visit state (c.listed b) (c.tree b) ∧
      (∀ test : StmtId → Stmt → Bool, (c.tree b).find test =
        ((c.tree b).preorder.filter fun p => test p.1 p.2).map Prod.fst) ∧
      ∀ (τ : Type) (test : StmtId → Stmt → StateM τ Bool), (c.tree b).findM test =
        List.map Prod.fst <$> (c.tree b).preorder.filterM fun p => test p.1 p.2) ∧
    ∀ s stmt, c.stmt? s = some stmt → (∀ d ∈ stmt.kind.blocks, c.FiniteBelow d) →
      c.Traverses visit state [s] (c.stmtTree s) := by
  have hi := h.intact
  refine ⟨fun b hf => ⟨?_, fun test => ?_, fun τ test => ?_⟩, fun s stmt hs hf => ?_⟩
  · exact traverses hi (unfolds_tree hi hf) (nodup_ids_treeAt hi hf _)
  · exact Tree.find_eq_filter test (c.tree b)
  · exact Tree.findM_eq_filterM test (c.tree b)
  · exact traverses hi (unfolds_stmtTree hi hs hf) (nodup_ids_stmtTree hi hs hf)

/-- Skips the first branch that it meets, and stops at the first statement that prints. -/
def printBehindBranch (id : StmtId) (stmt : Stmt) (branches : Nat) : KernelIR.Step StmtId × Nat :=
  match stmt.kind with
  | .branch _ _ _ _ _ => (if branches = 0 then .skip else .descend, branches + 1)
  | .print _ => (.stop id, branches)
  | _ => (.descend, branches)

/-- Of the two statements that print, the one in the first branch is left out, and the one in the
second is the last one that is visited. -/
theorem walks_in_preorder_guarding : guarding.Reachable ∧ guarding.FiniteBelow ⟨0⟩ ∧
    guarding.Traverses printBehindBranch 0 [⟨0⟩, ⟨2⟩, ⟨5⟩] (guarding.tree ⟨0⟩) ∧
    guarding.Traverses printBehindBranch 1 [⟨2⟩] (guarding.stmtTree ⟨2⟩) ∧
    (guarding.tree ⟨0⟩).ids = [⟨0⟩, ⟨2⟩, ⟨1⟩, ⟨5⟩, ⟨3⟩, ⟨4⟩] ∧
    ((guarding.tree ⟨0⟩).calls printBehindBranch 0).map Call.id = [⟨0⟩, ⟨2⟩, ⟨5⟩, ⟨3⟩, ⟨4⟩] ∧
    (guarding.tree ⟨0⟩).walk printBehindBranch 0 = (some ⟨4⟩, 2) ∧
    (guarding.tree ⟨0⟩).find (fun _ stmt => stmt.kind.name = "print") = [⟨1⟩, ⟨4⟩] := by
  have hfinite := finiteBelow_guarding ⟨0⟩
  obtain ⟨hblock, hfind, -⟩ :=
    (walks_in_preorder reachable_guarding printBehindBranch 0).1 ⟨0⟩ hfinite
  have hstmt := (walks_in_preorder reachable_guarding printBehindBranch 1).2 ⟨2⟩ _ rfl
    fun d _ => finiteBelow_guarding d
  refine ⟨reachable_guarding, hfinite, hblock, hstmt, rfl, rfl, rfl, ?_⟩
  rw [hfind]
  rfl

end Context

end KernelIR
