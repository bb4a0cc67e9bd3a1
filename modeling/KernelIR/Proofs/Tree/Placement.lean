import Mathlib.Data.Finset.Card
import KernelIR.Proofs.Tree.Scope

/-!
# Where statements stand

If no block below `root` lies below itself, the tree below `root` goes all the way down
(`Context.tree_eq`) : it holds just the statements listed in `root` or in a block below it
(`Context.mem_ids_tree_iff`).

What a statement of the tree sees can be told from the place where it stands
(`Context.mem_scope_iff_earlier`) : the values defined earlier in its block, and those
defined in an enclosing block earlier than the statement that leads to it
(`Context.Earlier`).
-/

namespace KernelIR

namespace Context

variable {c : Context} {root b d : BlockId} {s u v : StmtId}

/-! ## Trees that go all the way down -/

/-- The numbers of the blocks that are `b` or lie below it. -/
noncomputable def blocksBelow (c : Context) (b : BlockId) : Finset Nat :=
  @Finset.filter _ (fun i => Relation.ReflTransGen c.Nests ⟨i⟩ b) (Classical.decPred _)
    (Finset.range c.blocks.size)

theorem mem_blocksBelow {i : Nat} : i ∈ c.blocksBelow b ↔
    i < c.blocks.size ∧ Relation.ReflTransGen c.Nests ⟨i⟩ b := by
  simp [blocksBelow]

theorem mem_blocksBelow_self (h : s ∈ c.listed b) : b.index ∈ c.blocksBelow b :=
  mem_blocksBelow.2 ⟨isSome_block?_iff.1 (isSome_block?_of_mem_listed h), .refl⟩

/-- A block nested in another has fewer blocks below it, which bounds the depth of the tree. -/
theorem card_blocksBelow_lt (hf : c.FiniteBelow b) (h : c.Nests d b) :
    (c.blocksBelow d).card < (c.blocksBelow b).card := by
  obtain ⟨s, stmt, hs, -⟩ := id h
  have hsub : c.blocksBelow d ⊆ c.blocksBelow b := fun i hi => by
    obtain ⟨hlt, hid⟩ := mem_blocksBelow.1 hi
    exact mem_blocksBelow.2 ⟨hlt, hid.tail h⟩
  refine Finset.card_lt_card ((Finset.ssubset_iff_of_subset hsub).2
    ⟨b.index, mem_blocksBelow_self hs, fun hb => ?_⟩)
  exact hf.not_nests (mem_blocksBelow.1 hb).2 h

theorem card_blocksBelow_le (c : Context) (b : BlockId) :
    (c.blocksBelow b).card ≤ c.blocks.size := by
  rw [← Finset.card_range c.blocks.size]
  exact Finset.card_le_card fun i hi => Finset.mem_range.2 (mem_blocksBelow.1 hi).1

theorem graft_congr {f g : BlockId → Tree} (h : ∀ stmt, c.stmt? s = some stmt →
    ∀ d ∈ stmt.kind.blocks, f d = g d) (rest : Tree) : c.graft f s rest = c.graft g s rest := by
  unfold graft
  cases hs : c.stmt? s with
  | none => rfl
  | some stmt =>
    have hblocks := h stmt hs
    cases h₁ : stmt.kind.firstBlock? <;> cases h₂ : stmt.kind.secondBlock? <;>
      simp_all [Kind.blocks]

/-- More depth than there are blocks below `b` does not change the tree. -/
theorem treeAt_eq_treeAt (hf : c.FiniteBelow b) {n m : Nat} (hn : (c.blocksBelow b).card ≤ n)
    (hm : (c.blocksBelow b).card ≤ m) : c.treeAt n b = c.treeAt m b := by
  have hacc : Acc c.Nests b := hf
  induction hacc generalizing n m with
  | intro b _ ih =>
    have hsucc : ∀ {k}, (c.blocksBelow b).card ≤ k → c.listed b ≠ [] → ∃ k', k = k' + 1 := by
      intro k hk hne
      obtain ⟨s, hs⟩ := List.exists_mem_of_ne_nil _ hne
      have := Finset.card_pos.2 ⟨_, mem_blocksBelow_self hs⟩
      exact Nat.exists_eq_succ_of_ne_zero (by omega)
    by_cases hnil : c.listed b = []
    · cases n <;> cases m <;> simp [treeAt, hnil]
    · obtain ⟨n, rfl⟩ := hsucc hn hnil
      obtain ⟨m, rfl⟩ := hsucc hm hnil
      rw [treeAt, treeAt]
      refine List.foldr_ext _ _ _ fun s hs rest => graft_congr (fun stmt hstmt d hd => ?_) rest
      have hnests : c.Nests d b := ⟨s, stmt, hs, hstmt, hd⟩
      have hlt := card_blocksBelow_lt hf hnests
      exact ih d hnests (hf.inv hnests) (by omega) (by omega)

/-- The tree below a block consists of the statements listed there with the trees below their
blocks. -/
theorem tree_eq (hf : c.FiniteBelow b) :
    c.tree b = (c.listed b).foldr (c.graft c.tree) .nil :=
  treeAt_eq_treeAt hf (card_blocksBelow_le c b) (Nat.le_succ_of_le (card_blocksBelow_le c b))

theorem FiniteBelow.of_below (hf : c.FiniteBelow root) (h : Relation.ReflTransGen c.Nests b root) :
    c.FiniteBelow b := by
  induction h with
  | refl => exact hf
  | tail _ hn ih => exact ih (hf.inv hn)

/-- The statement is listed in `root` or in a block below it. -/
def Below (c : Context) (root : BlockId) (s : StmtId) : Prop :=
  ∃ b, s ∈ c.listed b ∧ Relation.ReflTransGen c.Nests b root

theorem ids_tree (hf : c.FiniteBelow b) :
    (c.tree b).ids = (c.listed b).flatMap (c.branchIds c.blocks.size) :=
  tree_eq hf ▸ ids_treeAt_succ c.blocks.size b

theorem ids_tree_subset (hf : c.FiniteBelow root) (h : Relation.ReflTransGen c.Nests b root) :
    (c.tree b).ids ⊆ (c.tree root).ids := by
  induction h with
  | refl => exact List.Subset.refl _
  | @tail d root _ hn ih =>
    refine List.Subset.trans (ih (hf.inv hn)) fun s hs => ?_
    obtain ⟨t, stmt, ht, hstmt, hd⟩ := hn
    rw [ids_tree hf]
    refine List.mem_flatMap.2 ⟨t, ht, ?_⟩
    rw [branchIds, hstmt]
    exact List.mem_cons_of_mem t (List.mem_flatMap.2 ⟨d, hd, hs⟩)

theorem Intact.exists_stmt? (h : c.Intact) (hs : s ∈ c.listed b) :
    ∃ stmt, c.stmt? s = some stmt ∧ stmt.block? = some b :=
  Option.bind_eq_some_iff.1 (h.home hs)

/-- The statements of the tree are the ones placed below its root. -/
theorem mem_ids_tree_iff (h : c.Intact) (hf : c.FiniteBelow root) :
    s ∈ (c.tree root).ids ↔ c.Below root s := by
  constructor
  · intro hs
    obtain ⟨b, hb, hbelow⟩ := exists_home_of_mem_ids h hs
    exact ⟨b, h.listed hb, hbelow⟩
  · rintro ⟨b, hs, hbelow⟩
    refine ids_tree_subset hf hbelow ?_
    obtain ⟨stmt, hstmt, -⟩ := h.exists_stmt? hs
    rw [ids_tree (hf.of_below hbelow)]
    exact List.mem_flatMap.2 ⟨s, hs, by simp [branchIds, hstmt]⟩

/-- They stand there as the context has them. -/
theorem mem_preorder_tree_iff (h : c.Intact) (hf : c.FiniteBelow root) {stmt : Stmt} :
    (s, stmt) ∈ (c.tree root).preorder ↔ c.Below root s ∧ c.stmt? s = some stmt := by
  rw [← mem_ids_tree_iff h hf]
  constructor
  · exact fun hm => ⟨Tree.mem_ids_of_mem_preorder hm, stmt?_of_mem_treeAt hm⟩
  · rintro ⟨hs, hstmt⟩
    obtain ⟨stmt', hm⟩ := Tree.mem_ids.1 hs
    rwa [← Option.some.inj ((stmt?_of_mem_treeAt hm).symm.trans hstmt)]

/-! ## What a statement sees -/

/-- The statement `v` stands earlier than `u` in the same block, or in an enclosing block
below `root` earlier than the statement that `u` is nested in. -/
inductive Earlier (c : Context) (root : BlockId) (v : StmtId) : StmtId → Prop where
  | here {b : BlockId} {u : StmtId} (h : [v, u].Sublist (c.listed b)) : Earlier c root v u
  | outer {b : BlockId} {u a : StmtId} (home : c.home? u = some b) (inner : b ≠ root)
    (owner : c.owner? b = some a) (h : Earlier c root v a) : Earlier c root v u

/-- Standing earlier at a place: earlier in its own block, or earlier than what owns the block. -/
theorem Intact.earlier_iff (h : c.Intact) (hu : u ∈ c.listed b) : c.Earlier root v u ↔
    [v, u].Sublist (c.listed b) ∨ b ≠ root ∧ ∃ a, c.owner? b = some a ∧ c.Earlier root v a := by
  have hhome := h.home hu
  constructor
  · rintro (hsub | ⟨hb, inner, owner, he⟩)
    · have hmem := h.home (hsub.subset (List.mem_cons_of_mem v (List.mem_singleton_self u)))
      obtain rfl := Option.some.inj (hmem.symm.trans hhome)
      exact .inl hsub
    · obtain rfl := Option.some.inj (hb.symm.trans hhome)
      exact .inr ⟨inner, _, owner, he⟩
  · rintro (hsub | ⟨inner, a, owner, he⟩)
    · exact .here hsub
    · exact .outer hhome inner owner he

/-- In a list without repetitions, what stands in front of `u` is what precedes it. -/
theorem pair_sublist_iff {pre l : List StmtId} (h : (pre ++ u :: l).Nodup) :
    [v, u].Sublist (pre ++ u :: l) ↔ v ∈ pre := by
  have hu : u ∉ l := (List.nodup_cons.1 (List.nodup_append.1 h).2.1).1
  constructor
  · intro hsub
    obtain ⟨front, back, heq, hfront, hback⟩ := List.sublist_append_iff.1 hsub
    cases front with
    | nil =>
      obtain rfl : [v, u] = back := heq
      refine absurd ?_ hu
      rcases List.sublist_cons_iff.1 hback with hl | ⟨r, hr, hl⟩
      · exact hl.subset (by simp)
      · obtain ⟨-, rfl⟩ := List.cons.inj hr
        exact hl.subset (by simp)
    | cons w front =>
      obtain rfl : v = w := (List.cons.inj heq).1
      exact hfront.subset List.mem_cons_self
  · intro hv
    exact (List.singleton_sublist.2 hv).append (List.singleton_sublist.2 List.mem_cons_self)

/-- What the statements below a block see, if the first of them sees what it should. -/
theorem mem_scope_of_below (h : c.Intact) (hf : c.FiniteBelow root)
    (hb : Relation.ReflTransGen c.Nests b root) {scope : List StmtId}
    (hscope : ∀ v, v ∈ scope ↔ c.hasValue v = true ∧ b ≠ root ∧
      ∃ a, c.owner? b = some a ∧ c.Earlier root v a) {p : Site}
    (hp : p ∈ (c.tree b).sites scope) (v : StmtId) :
    v ∈ p.scope ↔ c.hasValue v = true ∧ c.Earlier root v p.id := by
  have hacc : Acc c.Nests b := hf.of_below hb
  induction hacc generalizing scope with
  | intro b _ ih =>
    have hfb := hf.of_below hb
    rw [tree_eq hfb] at hp
    -- `pre` is what has been passed in the block
    have key : ∀ (l pre : List StmtId) (scope' : List StmtId), c.listed b = pre ++ l →
        (∀ v, v ∈ scope' ↔ v ∈ scope ∨ v ∈ pre ∧ c.hasValue v = true) →
        p ∈ (l.foldr (c.graft c.tree) .nil).sites scope' →
        (v ∈ p.scope ↔ c.hasValue v = true ∧ c.Earlier root v p.id) := by
      intro l
      induction l with
      | nil =>
        intro pre scope' _ _ hp
        cases hp
      | cons s l ihl =>
        intro pre scope' hl hscope' hp
        have hs : s ∈ c.listed b := by simp [hl]
        have hnodup := hl ▸ h.nodup b
        obtain ⟨stmt, hstmt, -⟩ := h.exists_stmt? hs
        have hsees : ∀ v, v ∈ scope' ↔ c.hasValue v = true ∧ c.Earlier root v s := by
          intro v
          rw [h.earlier_iff hs, hscope', hscope, hl, pair_sublist_iff hnodup]
          constructor
          · rintro (⟨hv, houter⟩ | ⟨hpre, hv⟩)
            · exact ⟨hv, .inr houter⟩
            · exact ⟨hv, .inl hpre⟩
          · rintro ⟨hv, hpre | houter⟩
            · exact .inr ⟨hpre, hv⟩
            · exact .inl ⟨hv, houter⟩
        have hnested : ∀ d ∈ stmt.kind.blocks, p ∈ (c.tree d).sites scope' →
            (v ∈ p.scope ↔ c.hasValue v = true ∧ c.Earlier root v p.id) := by
          intro d hd hp
          have hnests : c.Nests d b := ⟨s, stmt, hs, hstmt, hd⟩
          refine ih d hnests (.head hnests hb) (fun v => ?_) hp
          have hroot : d ≠ root := fun heq => hfb.not_nests hb (heq ▸ hnests)
          have howner := h.owner hstmt hd
          rw [hsees, howner]
          simp [hroot]
        rw [List.foldr_cons, graft, hstmt] at hp
        simp only [Tree.sites, List.mem_cons, List.mem_append] at hp
        rcases hp with rfl | (hp | hp) | hp
        · exact hsees v
        · cases h₁ : stmt.kind.firstBlock? with
          | none =>
            rw [h₁] at hp
            cases hp
          | some d =>
            rw [h₁] at hp
            exact hnested d (by simp [Kind.blocks, h₁]) hp
        · cases h₂ : stmt.kind.secondBlock? with
          | none =>
            rw [h₂] at hp
            cases hp
          | some d =>
            rw [h₂] at hp
            exact hnested d (by simp [Kind.blocks, h₂]) hp
        · refine ihl (pre ++ [s]) _ (by simp [hl]) (fun w => ?_) hp
          rw [Tree.mem_scopeAfter, hscope', ← hasValue_of_stmt? hstmt]
          simp only [List.mem_append, List.mem_singleton]
          constructor
          · rintro ((hw | hw) | ⟨rfl, hw⟩) <;> tauto
          · rintro (hw | ⟨hw | rfl, hv⟩) <;> tauto
    exact key _ [] scope rfl (by simp) hp

/-- A statement of a kernel sees the values that are defined earlier. -/
theorem mem_scope_iff_earlier (h : c.Intact) (hf : c.FiniteBelow root) {p : Site}
    (hp : p ∈ (c.tree root).sites []) :
    v ∈ p.scope ↔ c.hasValue v = true ∧ c.Earlier root v p.id :=
  mem_scope_of_below h hf .refl (by simp) hp v

end Context

end KernelIR
