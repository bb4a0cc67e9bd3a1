import KernelIR.Proofs.Sweep
import KernelIR.Proofs.Text.Resolve

/-!
# The end of the optimizer

Every rewrite takes an access out of the tree (`Work.Step.count_lt`), so without a limit
the optimizer goes on until a sweep finds nothing or meets a statement that is not handled
(`Kept.optimizeSlots_none`).
-/

namespace KernelIR

namespace Tree

variable (q : Kind → Bool)

/-- The number of statements whose kind passes a test. -/
def count (t : Tree) : Nat :=
  t.preorder.countP fun p => q p.2.kind

theorem length_find (t : Tree) : (t.find fun _ stmt => q stmt.kind).length = t.count q := by
  rw [find_eq_filter, List.length_map, count, List.countP_eq_length_filter]

@[simp] theorem count_nil : nil.count q = 0 := rfl

theorem count_cons (id : StmtId) (stmt : Stmt) (first second rest : Tree) :
    (cons id stmt first second rest).count q =
      (if q stmt.kind then 1 else 0) + first.count q + second.count q + rest.count q := by
  simp only [count, preorder, List.countP_cons, List.countP_append]
  omega

variable {q}

/-- Replacing values changes no count of kinds of statements. -/
theorem count_replace (hq : ∀ f k, q (Kind.mapOperands f k) = q k) (old new : StmtId) (t : Tree) :
    (t.replace old new).count q = t.count q := by
  simp [count, replace, preorder_mapStmts, List.countP_map, Function.comp_def, Stmt.mapKind,
    Kind.replace, hq]

theorem count_insertAfter (anchor new : StmtId) {newStmt : Stmt} (h : q newStmt.kind = false)
    (t : Tree) : (t.insertAfter anchor new newStmt).count q = t.count q := by
  induction t with
  | nil => rfl
  | cons id stmt first second rest ih₁ ih₂ ih₃ =>
    rw [insertAfter, count_cons, count_cons, ih₁, ih₂]
    by_cases hid : id = anchor
    · simp [hid, count_cons, h, ih₃]
    · simp [hid, ih₃]

theorem count_remove_le (d : StmtId) (t : Tree) : (t.remove d).count q ≤ t.count q := by
  induction t with
  | nil => exact Nat.le_refl _
  | cons id stmt first second rest ih₁ ih₂ ih₃ =>
    rw [remove]
    split <;> simp only [count_cons] <;> omega

/-- Removing a counted statement lowers the count. -/
theorem count_remove_lt {d : StmtId} {stmt : Stmt} (hstmt : q stmt.kind = true) {t : Tree}
    (h : (d, stmt) ∈ t.preorder) : (t.remove d).count q < t.count q := by
  induction t with
  | nil => cases h
  | cons id u first second rest ih₁ ih₂ ih₃ =>
    have hle₁ := @count_remove_le q d first
    have hle₂ := @count_remove_le q d second
    have hle₃ := @count_remove_le q d rest
    simp only [preorder, List.mem_cons, List.mem_append, Prod.mk.injEq] at h
    rw [remove]
    by_cases hid : id = d
    · rw [if_pos hid, count_cons]
      rcases h with ⟨-, rfl⟩ | (h | h) | h
      · simp only [hstmt, if_true]
        omega
      · have := ih₁ h
        omega
      · have := ih₂ h
        omega
      · have := ih₃ h
        omega
    · rw [if_neg hid, count_cons, count_cons]
      rcases h with ⟨rfl, -⟩ | (h | h) | h
      · exact absurd rfl hid
      · have := ih₁ h
        omega
      · have := ih₂ h
        omega
      · have := ih₃ h
        omega

end Tree

/-- A rewrite that is allowed takes an access out of the tree. -/
theorem Context.Allows.count_isAccess_lt {c : Context} {t : Tree} {slot : Slot} {rewrite : Rewrite}
    (h : c.Allows t slot rewrite) (fresh : StmtId) (block? : Option BlockId) :
    (rewrite.onTree slot.id fresh block? t).count Kind.isAccess < t.count Kind.isAccess := by
  have hload : ∀ {s stmt} {t : Tree} (new : StmtId), slot.action stmt.kind = .load →
      (s, stmt) ∈ t.preorder →
      ((t.replace s new).remove s).count Kind.isAccess < t.count Kind.isAccess := by
    intro s stmt t new ha hm
    obtain ⟨lanes, hkind, -⟩ := Slot.action_eq_load ha
    have hm' : (s, stmt.mapKind (Kind.replace s new)) ∈ (t.replace s new).preorder := by
      rw [Tree.replace, Tree.preorder_mapStmts]
      exact List.mem_map_of_mem hm
    rw [← Tree.count_replace Kind.isAccess_mapOperands s new t]
    exact Tree.count_remove_lt
      (by rw [Stmt.mapKind, Kind.replace, Kind.isAccess_mapOperands, hkind]; rfl) hm'
  cases h with
  | zeroFold hm ha =>
    refine Nat.lt_of_lt_of_eq (hload fresh ha (Tree.mem_preorder_insertAfter.2 (.inl hm))) ?_
    exact Tree.count_insertAfter _ _ rfl t
  | forward hp ha => exact hload _ ha (Tree.mem_preorder_of_mem_sites hp)
  | deadStore hm ha =>
    exact Tree.count_remove_lt (by rw [Slot.action_eq_store ha]; rfl) hm
  | deadAtomic hm ha =>
    obtain ⟨op, v, hkind⟩ := Slot.action_eq_atomic ha
    exact Tree.count_remove_lt (by rw [hkind]; rfl) hm
  | deadAlloca hm hkind => exact Tree.count_remove_lt (by rw [hkind]; rfl) hm

namespace Work

variable {root : BlockId} {w w' : Work} {strict : Bool}

/-- A sweep that makes a rewrite takes an access out. -/
theorem Step.count_lt (h : Step root w w') (hw : w.context.Kept strict root) :
    (w'.context.tree root).count Kind.isAccess < (w.context.tree root).count Kind.isAccess := by
  obtain ⟨-, slot, rewrite, hmakes⟩ := h.makes hw
  rw [hmakes.tree]
  exact hmakes.allows.count_isAccess_lt _ _

/-- How sweeps end without a limit. -/
inductive Settles (root : BlockId) (w : Work) : Except PassError Stats → Prop where
  | fixpoint (h : (w.sweep root).halt? = none) : Settles root w (.ok w.final)
  | violation {s : StmtId} {error : PassError}
    (h : (w.sweep root).halt? = some (s, .violation error)) : Settles root w (.error error)

end Work

namespace Context

variable {root : BlockId} {strict : Bool}

/-- With more sweeps than there are accesses the optimizer does not come to the limit. -/
theorem Kept.sweeps_settle {w : Work} (h : w.context.Kept strict root) {bound : Nat}
    (hbound : (w.context.tree root).count Kind.isAccess < bound) :
    ∃ outcome w', KernelIR.sweeps root bound w.progress w.context = .ok (outcome, w'.context) ∧
      w.Reaches root w' ∧ w'.Settles root outcome.result := by
  induction bound generalizing w with
  | zero => omega
  | succ bound ih =>
    rw [Work.sweeps_succ h.present]
    cases hhalt : (w.sweep root).halt? with
    | none => exact ⟨_, w, rfl, .refl, .fixpoint hhalt⟩
    | some p =>
      obtain ⟨s, rewrite | error⟩ := p
      · obtain ⟨-, event, c', happly, hkept, -⟩ := Work.makes_of_halt h hhalt
        have hstep : Work.Step root w ⟨w.advance root rewrite event, c'⟩ := .mk hhalt happly
        have hlt := hstep.count_lt h
        obtain ⟨outcome, w', hrun, hreach, hends⟩ :=
          ih (w := ⟨w.advance root rewrite event, c'⟩) hkept
            (Nat.lt_of_lt_of_le hlt (Nat.le_of_lt_succ hbound))
        refine ⟨outcome, w', ?_, .head hstep hreach, hends⟩
        simpa only [happly] using hrun
      · exact ⟨_, w, rfl, .refl, .violation hhalt⟩

/-- Without a limit the pass ends by itself, on work that settles. -/
theorem Kept.optimizeSlots_none {c : Context} (h : c.Kept strict root) :
    ∃ outcome w, KernelIR.optimizeSlots root none c = .ok (outcome, w.context) ∧
      (Work.start c).Reaches root w ∧ w.Settles root outcome.result :=
  Kept.sweeps_settle (w := .start c) h (by
    rw [Tree.length_find Kind.isAccess]
    exact Nat.lt_succ_self _)

end Context

end KernelIR
