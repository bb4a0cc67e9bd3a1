import KernelIR.Proofs.Context.Uses
import KernelIR.Proofs.Tree.Edit

/-!
# Replacing all uses

`Context.replaceAllUses` follows the recorded uses of a value and never looks at a statement that
does not use it. Where the recorded uses are those of the statements that have not been erased,
this comes to the same as a scan of all statements that puts the new value wherever the old one
is an operand (`Recorded.stmts_redirected`). The chain of the old value is moved behind the chain
of the new one, and the recorded uses are again those of the statements
(`replaceAllUses_of_recorded`).
-/

namespace KernelIR

/-- The kind, with one and the same value at all operands. -/
def Kind.payload (k : Kind) : Kind :=
  k.rename fun _ => ⟨0⟩

@[simp] theorem Kind.payload_replace (old new : StmtId) (k : Kind) :
    (k.replace old new).payload = k.payload := by
  unfold payload replace rename
  rw [mapOperands_mapOperands]

/-- Puts `new` in the place of every operand `old`, unless the statement is `gone`. -/
def Stmt.substitute (gone : List StmtId) (old new s : StmtId) (stmt : Stmt) : Stmt :=
  if s ∈ gone then stmt else stmt.mapKind (Kind.replace old new)

namespace Stmt

variable (gone : List StmtId) (old new s : StmtId) (stmt : Stmt)

@[simp] theorem type?_substitute : (stmt.substitute gone old new s).type? = stmt.type? := by
  unfold substitute
  split <;> rfl

@[simp] theorem block?_substitute : (stmt.substitute gone old new s).block? = stmt.block? := by
  unfold substitute
  split <;> rfl

@[simp] theorem payload_substitute :
    (stmt.substitute gone old new s).kind.payload = stmt.kind.payload := by
  unfold substitute
  split
  · rfl
  · exact Kind.payload_replace old new stmt.kind

/-- An operand is the replaced value at every statement that was never erased, and stays at the
others. -/
theorem operands_substitute (i : Nat) :
    (stmt.substitute gone old new s).kind.operands[i]? =
      stmt.kind.operands[i]?.map fun v => if v = old ∧ s ∉ gone then new else v := by
  unfold substitute
  split
  · next hgone => simp [hgone]
  · next hgone => simp [hgone, mapKind, Kind.replace, Kind.operands_mapOperands]

end Stmt

namespace Context

variable {c c' : Context} {gone : List StmtId} {old new : StmtId}

/-- `c'` is `c` with `new` for `old` in all statements that are not `gone`. -/
structure Substituted (c c' : Context) (gone : List StmtId) (old new : StmtId) : Prop where
  size : c'.stmts.size = c.stmts.size
  stmt : ∀ s, c'.stmt? s = (c.stmt? s).map (Stmt.substitute gone old new s)
  operand : ∀ s stmt stmt', c.stmt? s = some stmt → c'.stmt? s = some stmt' → ∀ i : Nat,
    stmt'.kind.operands[i]? =
      stmt.kind.operands[i]?.map fun v => if v = old ∧ s ∉ gone then new else v
  rest : ∀ s stmt stmt', c.stmt? s = some stmt → c'.stmt? s = some stmt' →
    stmt'.type? = stmt.type? ∧ stmt'.block? = stmt.block? ∧ stmt'.kind.payload = stmt.kind.payload
  blocks : c'.blocks = c.blocks
  chainOld : c'.chain old = []
  chainNew : c'.chain new = c.chain new ++ (c.chain old).map ({ · with value := new })
  chainOther : ∀ v, v ≠ old → v ≠ new → c'.chain v = c.chain v

/-! ## The scan -/

/-- At an operand, a use of the old value is recorded just if the operand is the old value and
the user is not gone. -/
theorem Recorded.redirect_of_holds (h : c.Recorded gone) {s v : StmtId} {i : Nat}
    (hv : c.Holds ⟨v, s, i⟩) :
    c.redirect old new s i v = if v = old ∧ s ∉ gone then new else v := by
  have hiff : (⟨old, s, i⟩ : Use) ∈ c.chain old ↔ v = old ∧ s ∉ gone := by
    rw [mem_chain]
    constructor
    · rintro ⟨hmem, -⟩
      exact ⟨hv.value_unique (h.held _ hmem), h.forgotten _ hmem⟩
    · rintro ⟨rfl, hs⟩
      exact ⟨h.recorded _ hv hs, rfl⟩
  rw [redirect]
  simp only [hiff]

/-- Where all uses are recorded, redirecting them substitutes the value in every statement. -/
theorem Recorded.stmts_redirected (h : c.Recorded gone) (old new s : StmtId) :
    (c.redirected old new).stmt? s = (c.stmt? s).map (Stmt.substitute gone old new s) := by
  rw [stmt?_redirected]
  cases hs : c.stmt? s with
  | none => rfl
  | some stmt =>
    have hkind : stmt.kind.mapOperands (c.redirect old new s) =
        stmt.kind.mapOperands fun _ v => if v = old ∧ s ∉ gone then new else v :=
      Kind.mapOperands_congr fun i v hv => h.redirect_of_holds ⟨stmt, hs, hv⟩
    simp only [Option.map_some, hkind, Stmt.substitute]
    split
    · next hgone =>
      have hid : (stmt.kind.mapOperands fun _ v => v) = stmt.kind := stmt.kind.rename_id
      simp [hgone, hid]
    · next hgone => simp [hgone, Stmt.mapKind, Kind.replace]

/-! ## Chains -/

/-- The chain of the old value is appended to the chain of the new one, in the order it had. -/
theorem chain_redirected (hne : old ≠ new) (v : StmtId) :
    (c.redirected old new).chain v =
      if v = old then []
      else if v = new then c.chain new ++ (c.chain old).map ({ · with value := new })
      else c.chain v := by
  have hstay : (c.uses.filter (·.value != old)).filter (·.value == v) =
      if v = old then [] else c.chain v := by
    rw [List.filter_filter]
    split
    · next heq => simp [heq]
    · next hv =>
      refine List.filter_congr fun u _ => ?_
      by_cases hu : u.value = v
      · simp [hu, hv]
      · simp [hu]
  have hmoved : ((c.chain old).map ({ · with value := new })).filter (·.value == v) =
      if v = new then (c.chain old).map ({ · with value := new }) else [] := by
    split
    · next heq => simp [heq]
    · next hv => simp [Ne.symm hv]
  change (c.uses.filter (·.value != old) ++ _).filter (·.value == v) = _
  rw [List.filter_append, hstay, hmoved]
  by_cases hold : v = old
  · simp [hold, hne]
  · by_cases hnew : v = new
    · simp [hnew, hne.symm]
    · simp [hold, hnew]

/-- If the recorded uses are those of the statements that have not been erased, then replacing all
uses of a value by another value puts this at each operand that was the old value in a statement
that has not been erased, and changes no other operand and nothing else of any statement. The old
value has no uses left, the new one has its former uses and then those of the old one, in their
order, and the uses of every other value are as before. The recorded uses are again those of the
statements that have not been erased. -/
theorem replaceAllUses_of_recorded (h : c.Recorded gone) (hne : old ≠ new) :
    ∃ c', replaceAllUses old new c = .ok ((), c') ∧ c.Substituted c' gone old new ∧
      c'.Recorded gone := by
  have hstmt := h.stmts_redirected old new
  have hsubst : ∀ {s stmt stmt'}, c.stmt? s = some stmt →
      (c.redirected old new).stmt? s = some stmt' → stmt' = stmt.substitute gone old new s := by
    intro s stmt stmt' hs hs'
    rw [hstmt, hs] at hs'
    exact (Option.some.inj hs').symm
  refine ⟨_, replaceAllUses_of_ne hne, ?_, h.redirected hne⟩
  constructor
  case size => simp [redirected]
  case stmt => exact hstmt
  case operand =>
    intro s stmt stmt' hs hs' i
    rw [hsubst hs hs', Stmt.operands_substitute]
  case rest =>
    intro s stmt stmt' hs hs'
    simp [hsubst hs hs']
  case blocks => rfl
  case chainOld => rw [chain_redirected hne, if_pos rfl]
  case chainNew => rw [chain_redirected hne, if_neg hne.symm, if_pos rfl]
  case chainOther =>
    intro v hold hnew
    rw [chain_redirected hne, if_neg hold, if_neg hnew]

/-- A value that a branch takes as its condition and as one of its masks, that is added to another
value, and that was printed by a statement which has been erased and listed again. -/
def sharing : Context where
  stmts := #[⟨.arg 0, some ⟨.u1, 1⟩, some ⟨0⟩⟩, ⟨.arg 1, some ⟨.u1, 1⟩, some ⟨0⟩⟩,
    ⟨.branch ⟨0⟩ none (some ⟨0⟩) none none, none, none⟩,
    ⟨.binary .add ⟨0⟩ ⟨1⟩, some ⟨.u1, 1⟩, none⟩, ⟨.print ⟨0⟩, none, some ⟨0⟩⟩]
  blocks := #[⟨[⟨0⟩, ⟨1⟩, ⟨4⟩], none⟩]
  uses := [⟨⟨0⟩, ⟨2⟩, 0⟩, ⟨⟨0⟩, ⟨2⟩, 1⟩, ⟨⟨0⟩, ⟨3⟩, 0⟩, ⟨⟨1⟩, ⟨3⟩, 1⟩]

theorem history_sharing : sharing.History [⟨4⟩] := by
  have h₁ := History.empty.createBlock (show createBlock .empty = .ok (⟨0⟩, _) from rfl)
  have h₂ := h₁.createStmt (show createStmt (.arg 0) (some ⟨.u1, 1⟩) _ = .ok (⟨0⟩, _) from rfl)
  have h₃ := h₂.createStmt (show createStmt (.arg 1) (some ⟨.u1, 1⟩) _ = .ok (⟨1⟩, _) from rfl)
  have h₄ := h₃.createStmt
    (show createStmt (.branch ⟨0⟩ none (some ⟨0⟩) none none) none _ = .ok (⟨2⟩, _) from rfl)
  have h₅ := h₄.createStmt
    (show createStmt (.binary .add ⟨0⟩ ⟨1⟩) (some ⟨.u1, 1⟩) _ = .ok (⟨3⟩, _) from rfl)
  have h₆ := h₅.createStmt (show createStmt (.print ⟨0⟩) none _ = .ok (⟨4⟩, _) from rfl)
  have h₇ := h₆.push (show push ⟨0⟩ ⟨0⟩ _ = .ok ((), _) from rfl)
  have h₈ := h₇.push (show push ⟨0⟩ ⟨1⟩ _ = .ok ((), _) from rfl)
  have h₉ := h₈.push (show push ⟨0⟩ ⟨4⟩ _ = .ok ((), _) from rfl)
  have h₁₀ := h₉.erase (show erase ⟨4⟩ _ = .ok ((), _) from rfl)
  exact h₁₀.push (show push ⟨0⟩ ⟨4⟩ _ = .ok ((), sharing) from rfl)

/-- The other value takes the place of the shared one three times, and comes to be added to
itself. The statement that was erased still takes the shared value. -/
theorem replaceAllUses_sharing : sharing.Recorded [⟨4⟩] ∧
    ∃ c', replaceAllUses ⟨0⟩ ⟨1⟩ sharing = .ok ((), c') ∧ c'.chain ⟨0⟩ = [] ∧
      c'.chain ⟨1⟩ = [⟨⟨1⟩, ⟨3⟩, 1⟩, ⟨⟨1⟩, ⟨2⟩, 0⟩, ⟨⟨1⟩, ⟨2⟩, 1⟩, ⟨⟨1⟩, ⟨3⟩, 0⟩] ∧
      (c'.stmt? ⟨2⟩).map Stmt.kind = some (.branch ⟨1⟩ none (some ⟨1⟩) none none) ∧
      (c'.stmt? ⟨3⟩).map Stmt.kind = some (.binary .add ⟨1⟩ ⟨1⟩) ∧
      (c'.stmt? ⟨4⟩).map Stmt.kind = some (.print ⟨0⟩) ∧ c'.Recorded [⟨4⟩] := by
  have h := history_sharing.recorded
  obtain ⟨c', hrun, hsubst, hrec⟩ := replaceAllUses_of_recorded h (show ⟨0⟩ ≠ ⟨1⟩ by decide)
  refine ⟨h, c', hrun, hsubst.chainOld, hsubst.chainNew, ?_, ?_, ?_, hrec⟩
  all_goals
    rw [hsubst.stmt]
    rfl

end Context

end KernelIR
