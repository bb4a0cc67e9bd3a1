import KernelIR.Proofs.Context.Intact

/-!
# Recorded uses

A use is recorded when its user is created, given to another value when this takes the place
of the operand, and forgotten when the user is erased. So a recorded use is always held by its
user, none is recorded twice, and a statement that was never erased has all its uses recorded
(`Context.Recorded`); one that was erased has none left, also if it is listed again. Every
history of operations keeps this (`Context.History.recorded`).
-/

namespace KernelIR

namespace Kind

/-- A statement records each of its operand positions once. -/
theorem nodup_uses (k : Kind) (user : StmtId) : (k.uses user).Nodup := by
  refine .of_map Use.index ?_
  have : (k.uses user).map Use.index = List.range k.operands.length :=
    List.ext_getElem? fun i => by
      by_cases hi : i < k.operands.length <;> simp [uses, hi]
  rw [this]
  exact List.nodup_range

end Kind

namespace Context

variable {c c' : Context} {gone : List StmtId}

/-- The statement `user` takes the value that a use records. -/
def Holds (c : Context) (u : Use) : Prop :=
  ∃ stmt, c.stmt? u.user = some stmt ∧ stmt.kind.operands[u.index]? = some u.value

/-- A user holds one value at each position. -/
theorem Holds.value_unique {v w user : StmtId} {i : Nat} (hv : c.Holds ⟨v, user, i⟩)
    (hw : c.Holds ⟨w, user, i⟩) : v = w := by
  obtain ⟨stmt, hs, hv⟩ := hv
  obtain ⟨stmt', hs', hw⟩ := hw
  obtain rfl : stmt = stmt' := Option.some.inj (hs.symm.trans hs')
  exact Option.some.inj (hv.symm.trans hw)

/-- The chain of a value is the part of all recorded uses that take the value. -/
theorem mem_chain {v : StmtId} {u : Use} : u ∈ c.chain v ↔ u ∈ c.uses ∧ u.value = v := by
  simp [chain]

/-- The recorded uses are those that statements make which are not `gone`, each once. -/
structure Recorded (c : Context) (gone : List StmtId) : Prop where
  held : ∀ u ∈ c.uses, c.Holds u
  nodup : c.uses.Nodup
  recorded : ∀ u, c.Holds u → u.user ∉ gone → u ∈ c.uses
  forgotten : ∀ u ∈ c.uses, u.user ∉ gone
  existed : ∀ s ∈ gone, (c.stmt? s).isSome = true

/-- Operations that do not touch operands keep what is held. -/
theorem holds_congr (h : ∀ s, (c'.stmt? s).map Stmt.kind = (c.stmt? s).map Stmt.kind) (u : Use) :
    c'.Holds u ↔ c.Holds u := by
  have hkind : ∀ {d : Context}, d.Holds u ↔
      ∃ k, (d.stmt? u.user).map Stmt.kind = some k ∧ k.operands[u.index]? = some u.value := by
    intro d
    constructor
    · rintro ⟨stmt, hs, hop⟩
      exact ⟨_, by rw [hs]; rfl, hop⟩
    · rintro ⟨k, hk, hop⟩
      obtain ⟨stmt, hs, rfl⟩ := Option.map_eq_some_iff.1 hk
      exact ⟨stmt, hs, hop⟩
  rw [hkind, hkind, h]

theorem kind_list (b : BlockId) (i : Nat) (s t : StmtId) :
    ((c.list b i s).stmt? t).map Stmt.kind = (c.stmt? t).map Stmt.kind := by
  rw [stmt?_list]
  split <;> simp [Function.comp_def]

theorem kind_unlist (b : BlockId) (i : Nat) (s t : StmtId) :
    ((c.unlist b i s).stmt? t).map Stmt.kind = (c.stmt? t).map Stmt.kind := by
  rw [stmt?_unlist]
  split <;> simp [Function.comp_def]

theorem isSome_stmt?_of_kind (h : ∀ s, (c'.stmt? s).map Stmt.kind = (c.stmt? s).map Stmt.kind)
    (s : StmtId) : (c'.stmt? s).isSome = (c.stmt? s).isSome := by
  simpa using congrArg Option.isSome (h s)

namespace Recorded

theorem empty : Context.empty.Recorded [] where
  held _ hu := by cases hu
  nodup := .nil
  recorded u := by
    rintro ⟨stmt, hs, -⟩
    simp [stmt?, Context.empty] at hs
  forgotten _ hu := by cases hu
  existed _ hs := by cases hs

/-- The same statements with the same operands and uses. -/
theorem congr (h : c.Recorded gone)
    (hkind : ∀ s, (c'.stmt? s).map Stmt.kind = (c.stmt? s).map Stmt.kind)
    (huses : c'.uses = c.uses) : c'.Recorded gone where
  held u hu := (holds_congr hkind u).2 (h.held u (huses ▸ hu))
  nodup := huses ▸ h.nodup
  recorded u hu hgone := huses ▸ h.recorded u ((holds_congr hkind u).1 hu) hgone
  forgotten u hu := h.forgotten u (huses ▸ hu)
  existed s hs := (isSome_stmt?_of_kind hkind s).trans (h.existed s hs)

theorem created (h : c.Recorded gone) {kind : Kind} {type? : Option ValueType} {s : StmtId}
    (hc : Created c kind type? s c') : c'.Recorded gone := by
  have hnone : c.stmt? s = none := by simp [hc.id_eq, stmt?]
  have hold : ∀ {t}, (c.stmt? t).isSome = true → t ≠ s := by
    rintro t ht rfl
    simp [hnone] at ht
  have husers : ∀ u ∈ c.uses, u.user ≠ s := by
    intro u hu
    obtain ⟨stmt, hs, -⟩ := h.held u hu
    exact hold (by simp [hs])
  have hholds : ∀ u, c'.Holds u ↔ u ∈ kind.uses s ∨ u.user ≠ s ∧ c.Holds u := by
    intro u
    simp only [Holds, hc.stmt?, Kind.mem_uses]
    by_cases heq : u.user = s
    · simp [heq]
    · simp [heq]
  refine ⟨fun u hu => ?_, ?_, fun u hu hgone => ?_, fun u hu hgone => ?_, fun t ht => ?_⟩
  · rw [hc.uses, List.mem_append] at hu
    rw [hholds]
    exact hu.symm.imp_right fun hu => ⟨husers u hu, h.held u hu⟩
  · rw [hc.uses]
    refine List.nodup_append.2 ⟨h.nodup, kind.nodup_uses s, fun u hu v hv heq => ?_⟩
    exact husers u hu (heq ▸ (Kind.mem_uses.1 hv).1)
  · rw [hc.uses, List.mem_append]
    exact ((hholds u).1 hu).symm.imp_left fun hu => h.recorded u hu.2 hgone
  · rw [hc.uses, List.mem_append] at hu
    rcases hu with hu | hu
    · exact h.forgotten u hu hgone
    · exact hold (h.existed _ hgone) (Kind.mem_uses.1 hu).1
  · rw [hc.stmt?, if_neg (hold (h.existed t ht))]
    exact h.existed t ht

/-- Taking a statement out of its block drops its recorded uses and no others, and it counts as
gone. -/
theorem unlist (h : c.Recorded gone) {b : BlockId} {i : Nat} {s : StmtId}
    (hs : (c.stmt? s).isSome = true) : (c.unlist b i s).Recorded (s :: gone) where
  held u hu := (holds_congr (kind_unlist b i s) u).2 (h.held u (List.mem_filter.1 hu).1)
  nodup := h.nodup.filter _
  recorded u hu hgone := by
    rw [List.mem_cons, not_or] at hgone
    exact List.mem_filter.2
      ⟨h.recorded u ((holds_congr (kind_unlist b i s) u).1 hu) hgone.2, by simpa using hgone.1⟩
  forgotten u hu hgone := by
    obtain ⟨hu, hne⟩ := List.mem_filter.1 hu
    rcases List.mem_cons.1 hgone with rfl | hgone
    · simp at hne
    · exact h.forgotten u hu hgone
  existed t ht := by
    rw [isSome_stmt?_of_kind (kind_unlist b i s)]
    rcases List.mem_cons.1 ht with rfl | ht
    · exact hs
    · exact h.existed t ht

/-- Redirecting the uses of a value keeps them recorded, under the new value. -/
theorem redirected (h : c.Recorded gone) {old new : StmtId} (hne : old ≠ new) :
    (c.redirected old new).Recorded gone := by
  have hchain : ∀ user i, (⟨old, user, i⟩ : Use) ∈ c.chain old ↔
    (⟨old, user, i⟩ : Use) ∈ c.uses := by
    simp [chain]
  have hholds : ∀ {u : Use}, (c.redirected old new).Holds u ↔
      ∃ v, c.Holds ⟨v, u.user, u.index⟩ ∧ u.value = c.redirect old new u.user u.index v := by
    intro u
    simp only [Holds, stmt?_redirected, Option.map_eq_some_iff]
    constructor
    · rintro ⟨-, ⟨stmt, hs, rfl⟩, hop⟩
      rw [Kind.operands_mapOperands, List.getElem?_mapIdx, Option.map_eq_some_iff] at hop
      obtain ⟨v, hv, hval⟩ := hop
      exact ⟨v, ⟨stmt, hs, hv⟩, hval.symm⟩
    · rintro ⟨v, ⟨stmt, hs, hv⟩, hval⟩
      refine ⟨_, ⟨stmt, hs, rfl⟩, ?_⟩
      rw [Kind.operands_mapOperands, List.getElem?_mapIdx, hv, hval]
      rfl
  have hmoved : ∀ {u}, u ∈ (c.chain old).map ({ · with value := new }) →
      u.value = new ∧ (⟨old, u.user, u.index⟩ : Use) ∈ c.uses := by
    rintro u hu
    obtain ⟨w, hw, rfl⟩ := List.mem_map.1 hu
    obtain ⟨hmem, heq⟩ := List.mem_filter.1 hw
    obtain rfl : w.value = old := by simpa using heq
    exact ⟨rfl, hmem⟩
  refine ⟨fun u hu => hholds.2 ?_, ?_, fun u hu hgone => ?_, fun u hu => ?_, fun s hs => ?_⟩
  · rcases List.mem_append.1 hu with hu | hu
    · obtain ⟨hu, hval⟩ := List.mem_filter.1 hu
      refine ⟨u.value, h.held u hu, ?_⟩
      rw [redirect, if_neg]
      rw [hchain]
      intro hmem
      have := (h.held u hu).value_unique (h.held _ hmem)
      simp [this] at hval
    · obtain ⟨hval, hmem⟩ := hmoved hu
      exact ⟨old, h.held _ hmem, by rw [redirect, if_pos ((hchain _ _).2 hmem), hval]⟩
  · refine List.nodup_append.2 ⟨h.nodup.filter _, ?_, fun u hu v hv heq => ?_⟩
    · refine List.Nodup.map_on (fun u hu v hv heq => ?_) (h.nodup.filter _)
      have hu := (List.mem_filter.1 hu).2
      have hv := (List.mem_filter.1 hv).2
      simp only [beq_iff_eq] at hu hv
      cases u
      cases v
      simp_all
    · subst heq
      obtain ⟨hval, hmem⟩ := hmoved hv
      exact hne ((h.held _ hmem).value_unique (hval ▸ h.held u (List.mem_filter.1 hu).1))
  · obtain ⟨v, hv, hval⟩ := hholds.1 hu
    have hmem := h.recorded _ hv hgone
    refine List.mem_append.2 ?_
    by_cases heq : v = old
    · subst heq
      rw [redirect, if_pos ((hchain _ _).2 hmem)] at hval
      exact .inr (List.mem_map.2 ⟨_, (hchain _ _).2 hmem, by rw [← hval]⟩)
    · rw [redirect, if_neg fun hold =>
        heq (hv.value_unique (h.held _ ((hchain _ _).1 hold)))] at hval
      subst hval
      exact .inl (List.mem_filter.2 ⟨hmem, by simpa using heq⟩)
  · rcases List.mem_append.1 hu with hu | hu
    · exact h.forgotten u (List.mem_filter.1 hu).1
    · exact h.forgotten ⟨old, u.user, u.index⟩ (hmoved hu).2
  · rw [stmt?_redirected, Option.isSome_map]
    exact h.existed s hs

end Recorded

/-! ## Histories -/

/-- The context can be made from the empty one by operations that were not refused. They have
erased the statements of the list. -/
inductive History : Context → List StmtId → Prop where
  | empty : History .empty []
  | createBlock {c c' gone b} (h : History c gone) (hc : createBlock c = .ok (b, c')) :
    History c' gone
  | createStmt {c c' gone kind type? s} (h : History c gone)
    (hc : createStmt kind type? c = .ok (s, c')) : History c' gone
  | push {c c' gone b s} (h : History c gone) (hc : push b s c = .ok ((), c')) : History c' gone
  | insertAfter {c c' gone anchor s} (h : History c gone)
    (hc : insertAfter anchor s c = .ok ((), c')) : History c' gone
  | erase {c c' gone s} (h : History c gone) (hc : erase s c = .ok ((), c')) :
    History c' (s :: gone)
  | eraseAt {c c' gone b i s} (h : History c gone) (hs : (c.listed b)[i]? = some s)
    (hc : eraseAt b i c = .ok ((), c')) : History c' (s :: gone)
  | replaceAllUses {c c' gone old new} (h : History c gone)
    (hc : replaceAllUses old new c = .ok ((), c')) : History c' gone

namespace History

theorem reachable (h : c.History gone) : c.Reachable := by
  induction h with
  | empty => exact .refl
  | createBlock _ hc ih => exact ih.tail (.createBlock hc)
  | createStmt _ hc ih => exact ih.tail (.createStmt hc)
  | push _ hc ih => exact ih.tail (.push hc)
  | insertAfter _ hc ih => exact ih.tail (.insertAfter hc)
  | erase _ hc ih => exact ih.tail (.erase hc)
  | eraseAt _ _ hc ih => exact ih.tail (.eraseAt hc)
  | replaceAllUses _ hc ih => exact ih.tail (.replaceAllUses hc)

theorem isSome_of_listed (h : c.History gone) {b : BlockId} {s : StmtId} (hs : s ∈ c.listed b) :
    (c.stmt? s).isSome = true := by
  obtain ⟨stmt, hstmt, -⟩ := Option.bind_eq_some_iff.1 (h.reachable.intact.home hs)
  simp [hstmt]

/-- Along every history the chains hold the operands of what was never erased, and nothing else. -/
theorem recorded (h : c.History gone) : c.Recorded gone := by
  induction h with
  | empty => exact .empty
  | createBlock _ hc ih =>
    obtain ⟨-, rfl⟩ := createBlock_eq_ok hc
    exact ih.congr (fun _ => rfl) rfl
  | createStmt _ hc ih => exact ih.created (createStmt_eq_ok hc)
  | push _ hc ih =>
    obtain ⟨stmt, block, -, -, -, rfl⟩ := push_eq_ok hc
    exact ih.congr (kind_list _ _ _) rfl
  | insertAfter _ hc ih =>
    obtain ⟨stmt, b, i, -, -, -, rfl⟩ := insertAfter_eq_ok hc
    exact ih.congr (kind_list _ _ _) rfl
  | erase hh hc ih =>
    obtain ⟨b, i, hp, -, rfl⟩ := erase_eq_ok hc
    exact ih.unlist (hh.isSome_of_listed (List.mem_of_getElem? (place?_eq_some hp).2))
  | eraseAt hh hs hc ih =>
    obtain ⟨t, ht, -, rfl⟩ := eraseAt_eq_ok hc
    obtain rfl := Option.some.inj (hs.symm.trans ht)
    exact ih.unlist (hh.isSome_of_listed (List.mem_of_getElem? hs))
  | replaceAllUses _ hc ih =>
    rcases replaceAllUses_eq_ok hc with rfl | ⟨hne, rfl⟩
    · exact ih
    · exact ih.redirected hne

end History

/-- In every context that operations lead to, a use that is recorded in the chain of a value is
by a statement that holds this value, and each operand of a statement that has not been erased
is recorded once. An erased statement has no uses, also if it has been listed again. -/
theorem count_chain_of_history (h : c.History gone) :
    (∀ v, ∀ u ∈ c.chain v, ∃ stmt, c.stmt? u.user = some stmt ∧
      stmt.kind.operands[u.index]? = some v) ∧
    ∀ s stmt i v, c.stmt? s = some stmt → stmt.kind.operands[i]? = some v →
      (c.chain v).count ⟨v, s, i⟩ = if s ∈ gone then 0 else 1 := by
  have hrec := h.recorded
  refine ⟨fun v u hu => ?_, fun s stmt i v hs hv => ?_⟩
  · obtain ⟨hmem, heq⟩ := List.mem_filter.1 hu
    obtain rfl : u.value = v := by simpa using heq
    exact hrec.held u hmem
  · split
    · next hgone =>
      refine List.count_eq_zero.2 fun hmem => ?_
      exact hrec.forgotten _ (List.mem_filter.1 hmem).1 hgone
    · next hgone =>
      refine List.count_eq_one_of_mem (hrec.nodup.filter _) (List.mem_filter.2 ⟨?_, by simp⟩)
      exact hrec.recorded _ ⟨stmt, hs, hv⟩ hgone

/-- A value and a statement that prints it. -/
def printing : Context where
  stmts := #[⟨.arg 0, some ⟨.i32, 1⟩, some ⟨0⟩⟩, ⟨.print ⟨0⟩, none, some ⟨0⟩⟩]
  blocks := #[⟨[⟨0⟩, ⟨1⟩], none⟩]
  uses := [⟨⟨0⟩, ⟨1⟩, 0⟩]

theorem history_printing : printing.History [] := by
  have h₁ := History.empty.createBlock (show createBlock .empty = .ok (⟨0⟩, _) from rfl)
  have h₂ := h₁.createStmt (show createStmt (.arg 0) (some ⟨.i32, 1⟩) _ = .ok (⟨0⟩, _) from rfl)
  have h₃ := h₂.push (show push ⟨0⟩ ⟨0⟩ _ = .ok ((), _) from rfl)
  have h₄ := h₃.createStmt (show createStmt (.print ⟨0⟩) none _ = .ok (⟨1⟩, _) from rfl)
  exact h₄.push (show push ⟨0⟩ ⟨1⟩ _ = .ok ((), printing) from rfl)

/-- The printed value has one use. -/
theorem count_chain_printing : printing.History [] ∧
    (printing.chain ⟨0⟩).count ⟨⟨0⟩, ⟨1⟩, 0⟩ = 1 :=
  ⟨history_printing, (count_chain_of_history history_printing).2 ⟨1⟩ _ 0 ⟨0⟩ rfl rfl⟩

/-- If the print statement is erased and listed again then it is attached and takes a value,
and the value has no uses. -/
theorem exists_unrecorded_use : ∃ c : Context, c.Reachable ∧ ∃ stmt, c.stmt? ⟨1⟩ = some stmt ∧
    stmt.block? = some ⟨0⟩ ∧ stmt.kind.operands[0]? = some ⟨0⟩ ∧ c.chain ⟨0⟩ = [] := by
  have h₁ := history_printing.erase (show erase ⟨1⟩ _ = .ok ((), _) from rfl)
  have h₂ := h₁.push (show push ⟨0⟩ ⟨1⟩ _ = .ok ((), _) from rfl)
  exact ⟨_, h₂.reachable, _, rfl, rfl, rfl, rfl⟩

end Context

end KernelIR
