import KernelIR.Proofs.Independence
import KernelIR.Proofs.Verdict

/-!
# The parser and the verifier agree on scopes

Names are resolved by a list of visible names, and scopes are checked by a list of visible values.
Both come to the same : wherever a kernel is parsed, its statements see their operands
(`Context.Tidy.written`), and what sees an operand can only be told that it is a slot and should
not be one, or the other way round (`Operand.check_of_mem_scope`). The uses that were recorded on
the way are those of the kernel (`Context.Tidy.checkUses_eq_ok`), whatever texts were parsed
before it, and also if these were lost halfway. So of all faults the verifier only finds misplaced
slots in a kernel that was parsed (`verify_of_parseKernel`).
-/

namespace KernelIR

namespace VerifyError

/-- A slot stands where none is meant, or none where one is meant. -/
inductive MisplacesSlot : VerifyError → Prop where
  | slotRequired (user : StmtId) (index : Nat) : MisplacesSlot (.slotRequired user index)
  | slotAsValue (user : StmtId) (index : Nat) (slot : StmtId) :
    MisplacesSlot (.slotAsValue user index slot)

end VerifyError

/-- An operand that is visible and has a value can only be refused for what it is. -/
theorem Operand.check_of_mem_scope {c : Context} {o : Operand} (hscope : o.value ∈ o.site.scope)
    (hvalue : c.hasValue o.value = true) {e : VerifyError} (h : o.check c = .error e) :
    e.MisplacesSlot := by
  rw [check, Context.checkOperand, if_neg (not_not.2 hscope), hvalue, if_neg (by simp)] at h
  split at h
  · cases h
    exact .slotRequired _ _
  · split at h
    · cases h
      exact .slotAsValue _ _ _
    · cases h

namespace Context

variable {c c' : Context} {text : List Char} {kernel : Kernel}

/-- What visible operands are refused for is that slots are misplaced. -/
theorem checkScopes_of_visible {root : BlockId} (h : c.Intact)
    (hvisible : ∀ p ∈ (c.tree root).sites [], ∀ v ∈ p.stmt.kind.operands, v ∈ p.scope)
    {e : VerifyError} (hcheck : c.checkScopes (c.tree root) root [] = .error e) :
    e.MisplacesSlot := by
  rw [checkScopes_eq_forM_operands h] at hcheck
  obtain ⟨before, o, after, heq, -, ho⟩ := forM_eq_error hcheck
  obtain ⟨-, hsite, hop, -⟩ := stmt?_of_mem_operands (show o ∈ (c.tree root).operands by simp [heq])
  have hscope : o.value ∈ o.site.scope := hvisible _ hsite _ (List.mem_of_getElem? hop)
  exact Operand.check_of_mem_scope hscope (hasValue_of_mem_scope hsite _ hscope) ho

namespace Tidy

/-- The uses of the values of a parsed kernel are those that its statements make. -/
theorem checkUses_eq_ok (h : c.Tidy)
    (hparse : KernelIR.parseKernel text c = .ok (.ok kernel, c')) :
    c'.checkUses (c'.tree kernel.body).ids (c'.tree kernel.body).ids = .ok () := by
  obtain ⟨-, hnumbered, hsize⟩ := h.numbered hparse
  have htidy := (h.parseKernel hparse).1
  have hrecorded := htidy.history.recorded
  have hseparate : c'.Separate (.since c.stmts.size c.blocks.size) :=
    ((grows_parseKernel hparse).1.confined (Nat.le_refl _) (Nat.le_refl _) h.separate_since).1
  have hids : ∀ s, s ∈ (c'.tree kernel.body).ids ↔
      c.stmts.size ≤ s.index ∧ (c'.stmt? s).isSome = true := fun s => by
    rw [hnumbered.mem_ids_iff, isSome_stmt?_iff, hsize]
  refine Context.checkUses_eq_ok.2 fun s hs => ⟨fun u hu => ?_, fun u hu => ?_⟩
  · obtain ⟨i, hi, rfl⟩ := List.mem_mapIdx.1 hu
    obtain ⟨stmt, hstmt⟩ := Option.isSome_iff_exists.1 ((hids s).1 hs).2
    refine hrecorded.recorded _ ⟨stmt, hstmt, ?_⟩ List.not_mem_nil
    simp only [operandsOf_of_stmt? hstmt] at hi ⊢
    exact List.getElem?_eq_getElem hi
  · -- a use of a new value is by a new statement, and these are all in the kernel
    obtain ⟨hmem, rfl⟩ := mem_chain.1 hu
    obtain ⟨stmt, huser, hop⟩ := hrecorded.held u hmem
    have hnew : c.stmts.size ≤ u.user.index := (hseparate.used u hmem).1 ((hids u.value).1 hs).1
    exact ⟨(hids u.user).2 ⟨hnew, by simp [huser]⟩, by rwa [operandsOf_of_stmt? huser]⟩

/-- The scopes of a parsed kernel decide about it. -/
theorem verify_eq_checkScopes (h : c.Tidy)
    (hparse : KernelIR.parseKernel text c = .ok (.ok kernel, c')) :
    c'.verify kernel = c'.checkScopes (c'.tree kernel.body) kernel.body [] := by
  unfold verify
  simp only [h.checkUses_eq_ok hparse]
  cases c'.checkScopes (c'.tree kernel.body) kernel.body [] <;> rfl

end Tidy

end Context

/-- In a context that only parsing has filled, a kernel that is parsed is valid but for slots that
stand where values are meant, or values where slots are. -/
theorem verify_of_parseKernel {c c' : Context} (h : Parsed c) {text : List Char} {kernel : Kernel}
    (hparse : parseKernel text c = .ok (.ok kernel, c')) : c'.verify kernel = .ok () ∨
      (∃ user index, c'.verify kernel = .error (.slotRequired user index)) ∨
      ∃ user index slot, c'.verify kernel = .error (.slotAsValue user index slot) := by
  have htidy := h.tidy
  have hintact := (htidy.parseKernel hparse).1.reachable.intact
  rw [htidy.verify_eq_checkScopes hparse]
  cases hscopes : c'.checkScopes (c'.tree kernel.body) kernel.body [] with
  | ok => exact .inl rfl
  | error e =>
    have hvisible : ∀ p ∈ (c'.tree kernel.body).sites [], ∀ v ∈ p.stmt.kind.operands,
        v ∈ p.scope := fun p hp => ((htidy.written hparse).2 p hp).visible
    cases Context.checkScopes_of_visible hintact hvisible hscopes with
    | slotRequired user index => exact .inr (.inl ⟨user, index, rfl⟩)
    | slotAsValue user index slot => exact .inr (.inr ⟨user, index, slot, rfl⟩)

namespace PrintedSlot

/-- A text that is given up behind its first statement. -/
def lost : List Char :=
  "kernel @l \x7b %v = arg 0 : i32 print %w \x7d".toList

/-- A kernel that prints a slot in a loop, under a name that the lost text bound too. -/
def text : List Char :=
  "kernel @k \x7b %v = alloca : i32 while \x7b print %v \x7d \x7d".toList

/-- What the lost text leaves behind. -/
def before : Context where
  stmts := #[⟨.arg 0, some ⟨.i32, 1⟩, some ⟨0⟩⟩]
  blocks := #[⟨[⟨0⟩], none⟩]
  uses := []

/-- What the kernel is parsed to. -/
def after : Context where
  stmts := before.stmts ++ #[⟨.alloca, some ⟨.i32, 1⟩, some ⟨1⟩⟩, ⟨.print ⟨1⟩, none, some ⟨2⟩⟩,
    ⟨.loop none ⟨2⟩, none, some ⟨1⟩⟩]
  blocks := before.blocks ++ #[⟨[⟨1⟩, ⟨3⟩], none⟩, ⟨[⟨2⟩], some ⟨3⟩⟩]
  uses := [⟨⟨1⟩, ⟨2⟩, 0⟩]

theorem parsed : Parsed before := by
  have hlost : parseKernel lost .empty =
      .ok (.error (.unresolved (.undefinedValue ['w'])), before) := by decide +kernel
  exact Parsed.empty.parse hlost

end PrintedSlot

open PrintedSlot in
/-- The slot is all that is wrong with the kernel, behind a text that was lost. -/
theorem verify_of_parseKernel_printedSlot : Parsed before ∧
    parseKernel text before = .ok (.ok ⟨"k", ⟨1⟩⟩, after) ∧
    after.verify ⟨"k", ⟨1⟩⟩ = .error (.slotAsValue ⟨2⟩ 0 ⟨1⟩) := by
  have hparse : parseKernel text before = .ok (.ok ⟨"k", ⟨1⟩⟩, after) := by decide +kernel
  have hverify : after.verify ⟨"k", ⟨1⟩⟩ = .error (.slotAsValue ⟨2⟩ 0 ⟨1⟩) := by decide +kernel
  rcases verify_of_parseKernel parsed hparse with hok | ⟨user, i, herror⟩ | ⟨user, i, slot, herror⟩
  · cases hverify.symm.trans hok
  · cases hverify.symm.trans herror
  · exact ⟨parsed, hparse, hverify⟩

end KernelIR
