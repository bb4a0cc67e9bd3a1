import KernelIR.Proofs.RoundTrip

/-!
# The numbers of parsed statements

Statements get their numbers one after the other when they are parsed, and what is nested in a
statement gets them before it. So the numbers in a parsed tree only tell where its statements
stand (`Draft.numbered_of_build`), and trees that are alike and begin with the same number have
the same numbers (`Tree.Like.ids_eq`).

What is parsed first is all that there is in its context : every statement stands in the tree, and
its uses are recorded. So there the verifier only finds faults in the operands
(`verify_eq_ok_iff_fits`).
-/

namespace KernelIR

namespace Tree

/-- The statements are numbered from `n` on, those nested in a statement before it. -/
def Numbered : Tree → Nat → Prop
  | nil, _ => True
  | cons id _ first second rest, n =>
    first.Numbered n ∧ second.Numbered (n + first.size) ∧
      id.index = n + first.size + second.size ∧ rest.Numbered (n + first.size + second.size + 1)

variable {L : List Constant → List Constant → Prop} {Q : StmtId → StmtId → Prop} {t t' : Tree}
    {n : Nat}

theorem numbered_nil (n : Nat) : nil.Numbered n :=
  trivial

/-- All numbers are given. -/
theorem Numbered.mem_ids_iff (h : t.Numbered n) {s : StmtId} :
    s ∈ t.ids ↔ n ≤ s.index ∧ s.index < n + t.size := by
  induction t generalizing n with
  | nil => simp [size]
  | cons id stmt first second rest ih₁ ih₂ ih₃ =>
    obtain ⟨h₁, h₂, hid, h₃⟩ := h
    have heq : s = id ↔ s.index = id.index := by
      cases s
      cases id
      simp
    rw [ids_cons, List.mem_cons, List.mem_append, List.mem_append, ih₁ h₁, ih₂ h₂, ih₃ h₃,
      heq, size]
    omega

theorem Like.size_eq (h : t.Like L Q t') : t.size = t'.size := by
  rw [← length_preorder, ← length_preorder]
  simpa [ids] using h.length_ids

/-- Where a statement stands decides about its number. -/
theorem Like.ids_eq (h : t.Like L Q t') (hn : t.Numbered n) (hn' : t'.Numbered n) :
    t.ids = t'.ids := by
  induction h generalizing n with
  | nil => rfl
  | @cons id id' _ _ _ _ _ _ _ _ _ _ _ nested₁ nested₂ _ ih₁ ih₂ ih₃ =>
    obtain ⟨h₁, h₂, hid, h₃⟩ := hn
    obtain ⟨h₁', h₂', hid', h₃'⟩ := hn'
    rw [← nested₁.size_eq] at h₂' hid' h₃'
    rw [← nested₂.size_eq] at hid' h₃'
    have heq : id = id' := congrArg StmtId.mk (hid.trans hid'.symm)
    rw [ids_cons, ids_cons, heq, ih₁ h₁ h₁', ih₂ h₂ h₂', ih₃ h₃ h₃']

/-- Trees that are alike and have the same numbers name the same operands. -/
theorem Like.eq_of_ids_eq (h : t.Like L (fun v v' => (v, v') ∈ t.pairs t') t')
    (hids : t.ids = t'.ids) : t.Like L (· = ·) t' := by
  refine h.mono (fun _ _ h => h) fun v v' hv => ?_
  rw [pairs, ← hids, List.zip_eq_zipWith, List.zipWith_self] at hv
  obtain ⟨w, -, heq⟩ := List.mem_map.1 hv
  obtain ⟨rfl, rfl⟩ := Prod.mk.inj heq
  rfl

end Tree

namespace Draft

/-- If what is built of drafts is numbered from the next number on, then so are the trees in the
blocks of a statement, one after the other. -/
theorem BuildsBlocks.numbered {first second : Draft} {names : Names} {n m n₁ m₁ : Nat}
    {shape : Shape}
    {kind : Kind} {t₁ t₂ : Tree} (h : BuildsBlocks first second names n m shape kind t₁ t₂ n₁ m₁)
    (hbuild : ∀ draft ∈ [first, second], ∀ b n m v, draft.build names b n m = .ok v →
      v.1.Numbered n ∧ v.2.1 = n + v.1.size) :
    t₁.Numbered n ∧ t₂.Numbered (n + t₁.size) ∧ n₁ = n + t₁.size + t₂.size := by
  cases h with
  | plain => exact ⟨Tree.numbered_nil _, Tree.numbered_nil _, rfl⟩
  | body _ hfirst | ifThen _ hfirst =>
    obtain ⟨h₁, hn₁⟩ := hbuild first (by simp) _ _ _ _ hfirst
    exact ⟨h₁, Tree.numbered_nil _, hn₁⟩
  | ifThenElse _ hfirst hsecond =>
    obtain ⟨h₁, hn₁⟩ := hbuild first (by simp) _ _ _ _ hfirst
    obtain ⟨h₂, hn₂⟩ := hbuild second (by simp) _ _ _ _ hsecond
    rw [hn₁] at h₂ hn₂
    exact ⟨h₁, h₂, hn₂⟩

/-- The tree of a draft is numbered from the next number on. -/
theorem numbered_of_build {draft : Draft} {names : Names} {b : BlockId} {n m : Nat}
    {v : Tree × Nat × Nat} (h : draft.build names b n m = .ok v) :
    v.1.Numbered n ∧ v.2.1 = n + v.1.size := by
  induction draft generalizing names b n m v with
  | nil =>
    obtain rfl := Except.ok.inj h
    exact ⟨trivial, rfl⟩
  | cons head first second rest ih₁ ih₂ ih₃ =>
    obtain ⟨type?, shape, kind, t₁, t₂, n₁, m₁, names', v₃, -, hblocks, -, hrest, rfl⟩ :=
      build_cons_eq_ok_iff.1 h
    obtain ⟨h₁, h₂, rfl⟩ := hblocks.numbered fun draft hd b n m v hbuild => by
      rcases List.mem_pair.1 hd with rfl | rfl
      · exact ih₁ hbuild
      · exact ih₂ hbuild
    obtain ⟨h₃, hnext⟩ := ih₃ hrest
    refine ⟨⟨h₁, h₂, rfl, h₃⟩, ?_⟩
    simp only [hnext, Tree.size]
    omega

end Draft

/-- A kernel that is parsed has just the new statements, numbered in order. -/
theorem Context.Tidy.numbered {c c' : Context} (h : c.Tidy) {text : List Char} {kernel : Kernel}
    (hparse : KernelIR.parseKernel text c = .ok (.ok kernel, c')) :
    kernel.body = ⟨c.blocks.size⟩ ∧ (c'.tree kernel.body).Numbered c.stmts.size ∧
      c'.stmts.size = c.stmts.size + (c'.tree kernel.body).size := by
  obtain ⟨name, draft, m, -, hbuild, rfl⟩ := h.parseKernel_eq_ok_iff.1 ⟨c', hparse, rfl, rfl⟩
  obtain ⟨hnumbered, hsize⟩ := Draft.numbered_of_build hbuild
  exact ⟨rfl, hnumbered, hsize⟩

/-! ## The first kernel of a context -/

section First

variable {text : List Char} {kernel : Kernel} {c : Context}
  (hparse : parseKernel text .empty = .ok (.ok kernel, c))
include hparse

theorem numbered_of_parseKernel : kernel.body = ⟨0⟩ ∧ (c.tree kernel.body).Numbered 0 ∧
    c.stmts.size = (c.tree kernel.body).size := by
  obtain ⟨hbody, hnumbered, hsize⟩ := Context.Tidy.empty.numbered hparse
  exact ⟨hbody, hnumbered, hsize.trans (Nat.zero_add _)⟩

theorem mem_tree_of_stmt? {s : StmtId} {stmt : Stmt} (hs : c.stmt? s = some stmt) :
    (s, stmt) ∈ (c.tree kernel.body).preorder := by
  obtain ⟨-, hnumbered, hsize⟩ := numbered_of_parseKernel hparse
  have hlt : s.index < c.stmts.size := Context.isSome_stmt?_iff.1 (by simp [hs])
  have hmem : s ∈ (c.tree kernel.body).ids := hnumbered.mem_ids_iff.2 ⟨Nat.zero_le _, by omega⟩
  obtain ⟨u, hu⟩ := Tree.mem_ids.1 hmem
  obtain rfl := Option.some.inj (hs.symm.trans (Context.stmt?_of_mem_treeAt hu))
  exact hu

/-- The first kernel of a context is valid if its statements see their operands, with slots where
they are meant. -/
theorem verify_eq_ok_iff_fits : c.verify kernel = .ok () ↔
    ∀ p ∈ (c.tree kernel.body).sites [], p.Fits c.isSlot := by
  have htidy := (Context.Tidy.empty.parseKernel hparse).1
  have hrecorded := htidy.history.recorded
  rw [Context.verify_eq_ok_iff htidy.reachable.intact]
  refine ⟨fun h => h.fits, fun hfits => ⟨hfits, fun p hp u hu => ?_, fun u hu _ => ?_⟩⟩
  · obtain ⟨huser, hop⟩ := Kind.mem_uses.1 hu
    exact hrecorded.recorded u ⟨p.2, huser ▸ Context.stmt?_of_mem_treeAt hp, hop⟩ List.not_mem_nil
  · obtain ⟨stmt, hs, hop⟩ := hrecorded.held u hu
    exact ⟨stmt, mem_tree_of_stmt? hparse hs, Kind.mem_uses.2 ⟨rfl, hop⟩⟩

end First

end KernelIR
