import KernelIR.Proofs.Context.Listing
import KernelIR.Proofs.Tree.Placement
import KernelIR.Proofs.Verifier

/-!
# Erasing statements of a valid kernel

Erasing a statement takes it out of its block and forgets the uses that it makes. What is nested in
it (`Context.Nested`) is left where it is : it stands in the kernel no longer
(`Intact.below_unlist`), but its uses are still recorded. So the kernel stays valid just if
nothing that is nested in the statement takes a value from outside (`Context.SelfContained`). In
particular, a statement without blocks may always be erased if its value has no uses.
-/

namespace KernelIR

namespace Context

variable {c : Context} {root b d : BlockId} {s u v : StmtId} {i : Nat}

/-- The statement `u` stands in a block of `s`, or in one that is nested there. -/
def Nested (c : Context) (s u : StmtId) : Prop :=
  ∃ d, c.owner? d = some s ∧ c.Below d u

/-- What is nested in `s` takes only values that are nested in `s` as well. -/
def SelfContained (c : Context) (s : StmtId) : Prop :=
  ∀ u stmt v, c.Nested s u → c.stmt? u = some stmt → v ∈ stmt.kind.operands → c.Nested s v

/-! ## What stands where -/

/-- A block of the erased statement, which leads back to it. -/
theorem Intact.nests_of_owner? (h : c.Intact) (hi : (c.listed b)[i]? = some s)
    (hd : c.owner? d = some s) : c.Nests d b := by
  obtain ⟨stmt, hs, hblocks⟩ := h.owned hd
  exact ⟨s, stmt, List.mem_of_getElem? hi, hs, hblocks⟩

/-- No statement is nested in itself. -/
theorem Intact.not_nested_of_finite (h : c.Intact)
    (hf : ∀ d, c.owner? d = some s → c.FiniteBelow d) : ¬c.Nested s s := by
  rintro ⟨d, hd, e, hs, hpath⟩
  obtain ⟨stmt, hstmt, hblock⟩ := h.owned hd
  exact ((hf d hd).of_below hpath).not_nests hpath ⟨s, stmt, hs, hstmt, hblock⟩

theorem Intact.not_nested_self (h : c.Intact) (hf : c.FiniteBelow b) (hs : s ∈ c.listed b) :
    ¬c.Nested s s := by
  obtain ⟨i, hi⟩ := List.getElem?_of_mem hs
  exact h.not_nested_of_finite fun d hd => hf.inv (h.nests_of_owner? hi hd)

section Unlist

variable (h : c.Intact) (hf : c.FiniteBelow root) (hs : c.Below root s)
  (hi : (c.listed b)[i]? = some s)
include h hs hi

/-- The block of the erased statement lies in the kernel. -/
theorem Intact.path_home : Relation.ReflTransGen c.Nests b root := by
  obtain ⟨e, hse, he⟩ := hs
  have hhome := h.home (List.mem_of_getElem? hi)
  rwa [Option.some.inj ((h.home hse).symm.trans hhome)] at he

include hf in
/-- On a way to the root that is left there is no block of the erased statement. -/
theorem Intact.not_path_of_path_unlist {e : BlockId} (hd : c.owner? d = some s)
    (hpath : Relation.ReflTransGen (c.unlist b i s).Nests e root) :
    ¬Relation.ReflTransGen c.Nests e d := by
  induction hpath using Relation.ReflTransGen.head_induction_on with
  | refl =>
    have hb := h.path_home hs hi
    exact fun hrest => (hf.of_below hb).not_nests (hb.trans hrest) (h.nests_of_owner? hi hd)
  | head hstep _ ih =>
    intro hrest
    obtain ⟨hn, howner⟩ := (nests_unlist h hi).1 hstep
    rcases Relation.ReflTransGen.cases_head hrest with rfl | ⟨f, hnf, hrest⟩
    · exact howner hd
    · obtain rfl := h.nests_unique hnf hn
      exact ih hrest

omit hs in
/-- A way to the root is left if there is no block of the erased statement on it. -/
theorem Intact.path_unlist {e : BlockId} (hpath : Relation.ReflTransGen c.Nests e root)
    (hfree : ∀ f, Relation.ReflTransGen c.Nests e f → c.owner? f ≠ some s) :
    Relation.ReflTransGen (c.unlist b i s).Nests e root := by
  induction hpath using Relation.ReflTransGen.head_induction_on with
  | refl => exact .refl
  | head hstep _ ih =>
    have hstep' := (nests_unlist h hi).2 ⟨hstep, hfree _ .refl⟩
    exact .head hstep' (ih fun f hef => hfree f (.head hstep hef))

include hf in
/-- Only the statement and what is nested in it stand in the kernel no longer. -/
theorem Intact.below_unlist :
    (c.unlist b i s).Below root u ↔ c.Below root u ∧ u ≠ s ∧ ¬c.Nested s u := by
  have hlisted : ∀ e, u ∈ (c.unlist b i s).listed e ↔ u ∈ c.listed e ∧ u ≠ s := by
    simp [listed_unlist_eq_filter h hi]
  constructor
  · rintro ⟨e, hu, hpath⟩
    obtain ⟨hu, hne⟩ := (hlisted e).1 hu
    have hpath' : Relation.ReflTransGen c.Nests e root :=
      Relation.ReflTransGen.mono (fun _ _ hn => ((nests_unlist h hi).1 hn).1) _ _ hpath
    refine ⟨⟨e, hu, hpath'⟩, hne, ?_⟩
    rintro ⟨d, hd, e', hu', hnested⟩
    obtain rfl : e = e' := Option.some.inj ((h.home hu).symm.trans (h.home hu'))
    exact h.not_path_of_path_unlist hf hs hi hd hpath hnested
  · rintro ⟨⟨e, hu, hpath⟩, hne, hnot⟩
    refine ⟨e, (hlisted e).2 ⟨hu, hne⟩, h.path_unlist hi hpath fun f hef howner => ?_⟩
    exact hnot ⟨f, howner, e, hu, hef⟩

end Unlist

/-! ## What stays valid -/

section Valid

variable (h : c.Intact) (hf : c.FiniteBelow root) (hs : c.Below root s)
  (hi : (c.listed b)[i]? = some s)
include h hf hs hi

theorem Intact.mem_preorder_unlist {stmt : Stmt} :
    (u, stmt) ∈ ((c.unlist b i s).tree root).preorder ↔
      (u, stmt) ∈ (c.tree root).preorder ∧ u ≠ s ∧ ¬c.Nested s u := by
  have hfin : (c.unlist b i s).FiniteBelow root :=
    hf.of_nests fun _ _ hn => ((nests_unlist h hi).1 hn).1
  rw [mem_preorder_tree_iff (h.unlist hi) hfin, mem_preorder_tree_iff h hf,
    h.below_unlist hf hs hi, stmt?_unlist]
  constructor
  · rintro ⟨⟨hb, hne, hnot⟩, hstmt⟩
    rw [if_neg (Ne.symm hne)] at hstmt
    exact ⟨⟨hb, hstmt⟩, hne, hnot⟩
  · rintro ⟨⟨hb, hstmt⟩, hne, hnot⟩
    exact ⟨⟨hb, hne, hnot⟩, by rw [if_neg (Ne.symm hne), hstmt]⟩

omit hf in
/-- What is nested in a statement of the kernel stands in the kernel as well. -/
theorem Intact.below_of_nested (hu : c.Nested s u) : c.Below root u := by
  obtain ⟨d, hd, e, hue, hpath⟩ := hu
  exact ⟨e, hue, hpath.trans (.head (h.nests_of_owner? hi hd) (h.path_home hs hi))⟩

variable (hvalid : c.Valid (c.tree root)) (hunused : c.chain s = [])
include hvalid hunused

/-- A value that is used in the statement, but stands outside of it, has a use by a statement that
stands in the kernel no longer. -/
theorem Valid.selfContained_of_unlist
    (hvalid' : (c.unlist b i s).Valid ((c.unlist b i s).tree root)) : c.SelfContained s := by
  intro u stmt v hu hstmt hv
  by_contra hout
  have hm := (mem_preorder_tree_iff h hf).2 ⟨h.below_of_nested hs hi hu, hstmt⟩
  have hus : u ≠ s := by
    rintro rfl
    exact h.not_nested_self (hf.of_below (h.path_home hs hi)) (List.mem_of_getElem? hi) hu
  have hvs : v ≠ s := by
    rintro rfl
    exact (hvalid.chain_eq_nil_iff ((mem_ids_tree_iff h hf).2 hs)).1 hunused _ hm hv
  obtain ⟨j, hj⟩ := List.getElem?_of_mem hv
  have huse : (⟨v, u, j⟩ : Use) ∈ (c.unlist b i s).uses :=
    List.mem_filter.2 ⟨hvalid.recorded _ hm _ (Kind.mem_uses.2 ⟨rfl, hj⟩), by simpa using hus⟩
  obtain ⟨w, hw, -⟩ := (hvalid.on fun _ => true).exists_of_mem_operands hm hv
  have hw' := (h.mem_preorder_unlist hf hs hi).2 ⟨hw, hvs, hout⟩
  obtain ⟨stmt', hm', -⟩ := hvalid'.held _ huse (Tree.mem_ids_of_mem_preorder hw')
  exact ((h.mem_preorder_unlist hf hs hi).1 hm').2.2 hu

theorem Valid.unlist_of_selfContained (hself : c.SelfContained s) :
    (c.unlist b i s).Valid ((c.unlist b i s).tree root) where
  fits := by
    rw [tree_unlist h hi, isSlot_unlist]
    have hids := (mem_ids_tree_iff h hf).2 hs
    exact Tree.fits_remove hvalid.fits ((hvalid.chain_eq_nil_iff hids).1 hunused)
  recorded p hm a ha := by
    obtain ⟨hm, hne, -⟩ := (h.mem_preorder_unlist hf hs hi).1 hm
    refine List.mem_filter.2 ⟨hvalid.recorded _ hm a ha, ?_⟩
    rw [(Kind.mem_uses.1 ha).1]
    simpa using hne
  held a ha hvalue := by
    obtain ⟨ha, huser⟩ := List.mem_filter.1 ha
    obtain ⟨w, hw⟩ := Tree.mem_ids.1 hvalue
    obtain ⟨hw, -, hout⟩ := (h.mem_preorder_unlist hf hs hi).1 hw
    obtain ⟨stmt, hm, hop⟩ := hvalid.held a ha (Tree.mem_ids_of_mem_preorder hw)
    refine ⟨stmt, (h.mem_preorder_unlist hf hs hi).2 ⟨hm, by simpa using huser, fun hin => ?_⟩, hop⟩
    have hstmt := ((mem_preorder_tree_iff h hf).1 hm).2
    exact hout (hself _ stmt _ hin hstmt (List.mem_of_getElem? (Kind.mem_uses.1 hop).2))

end Valid

/-- Nothing is nested in a statement without blocks. -/
theorem Intact.selfContained_of_blocks (h : c.Intact)
    (hblocks : ∀ stmt, c.stmt? s = some stmt → stmt.kind.blocks = []) : c.SelfContained s := by
  rintro u stmt v ⟨d, hd, -⟩
  obtain ⟨owner, hs, hmem⟩ := h.owned hd
  simp [hblocks owner hs] at hmem

/-! ## Erasing -/

/-- A statement of a verified kernel whose value has no uses can be erased, and the kernel is
verified afterwards just if what is nested in the statement takes no value from outside. It is if
the statement has no blocks. -/
theorem verify_of_erase (h : c.Reachable) (kernel : Kernel) (hf : c.FiniteBelow kernel.body)
    (hverify : c.verify kernel = .ok ()) (hs : s ∈ (c.tree kernel.body).ids)
    (hunused : c.chain s = []) :
    ∃ c', erase s c = .ok ((), c') ∧ (c'.verify kernel = .ok () ↔ c.SelfContained s) ∧
      ((∀ stmt, c.stmt? s = some stmt → stmt.kind.blocks = []) → c'.verify kernel = .ok ()) := by
  have hintact := h.intact
  have hbelow := (mem_ids_tree_iff hintact hf).1 hs
  obtain ⟨b, hsb, -⟩ := id hbelow
  obtain ⟨i, hp⟩ := hintact.place?_of_listed hsb
  have hi := (place?_eq_some hp).2
  obtain ⟨stmt, hstmt, -⟩ := hintact.exists_stmt? hsb
  have hvalid := (verify_eq_ok_iff hintact kernel).1 hverify
  have hiff : (c.unlist b i s).verify kernel = .ok () ↔ c.SelfContained s := by
    rw [verify_eq_ok_iff (hintact.unlist hi)]
    exact ⟨Valid.selfContained_of_unlist hintact hf hbelow hi hvalid hunused,
      Valid.unlist_of_selfContained hintact hf hbelow hi hvalid hunused⟩
  refine ⟨c.unlist b i s, ?_, hiff, fun hblocks => ?_⟩
  · simp [erase, hstmt, hp, eraseAt, hi, hunused]
  · exact hiff.2 (hintact.selfContained_of_blocks hblocks)

/-- A branch that prints its condition, and a branch that prints a value of its own. -/
def guarding : Context where
  stmts := #[⟨.arg 0, some ⟨.u1, 1⟩, some ⟨0⟩⟩, ⟨.print ⟨0⟩, none, some ⟨1⟩⟩,
    ⟨.branch ⟨0⟩ none none (some ⟨1⟩) none, none, some ⟨0⟩⟩,
    ⟨.arg 1, some ⟨.i32, 1⟩, some ⟨2⟩⟩, ⟨.print ⟨3⟩, none, some ⟨2⟩⟩,
    ⟨.branch ⟨0⟩ none none (some ⟨2⟩) none, none, some ⟨0⟩⟩]
  blocks := #[⟨[⟨0⟩, ⟨2⟩, ⟨5⟩], none⟩, ⟨[⟨1⟩], some ⟨2⟩⟩, ⟨[⟨3⟩, ⟨4⟩], some ⟨5⟩⟩]
  uses := [⟨⟨0⟩, ⟨1⟩, 0⟩, ⟨⟨0⟩, ⟨2⟩, 0⟩, ⟨⟨3⟩, ⟨4⟩, 0⟩, ⟨⟨0⟩, ⟨5⟩, 0⟩]

theorem reachable_guarding : guarding.Reachable := by
  have h₁ := History.empty.createBlock (show createBlock .empty = .ok (⟨0⟩, _) from rfl)
  have h₂ := h₁.createBlock (show createBlock _ = .ok (⟨1⟩, _) from rfl)
  have h₃ := h₂.createBlock (show createBlock _ = .ok (⟨2⟩, _) from rfl)
  have h₄ := h₃.createStmt (show createStmt (.arg 0) (some ⟨.u1, 1⟩) _ = .ok (⟨0⟩, _) from rfl)
  have h₅ := h₄.push (show push ⟨0⟩ ⟨0⟩ _ = .ok ((), _) from rfl)
  have h₆ := h₅.createStmt (show createStmt (.print ⟨0⟩) none _ = .ok (⟨1⟩, _) from rfl)
  have h₇ := h₆.push (show push ⟨1⟩ ⟨1⟩ _ = .ok ((), _) from rfl)
  have h₈ := h₇.createStmt
    (show createStmt (.branch ⟨0⟩ none none (some ⟨1⟩) none) none _ = .ok (⟨2⟩, _) from rfl)
  have h₉ := h₈.push (show push ⟨0⟩ ⟨2⟩ _ = .ok ((), _) from rfl)
  have h₁₀ := h₉.createStmt (show createStmt (.arg 1) (some ⟨.i32, 1⟩) _ = .ok (⟨3⟩, _) from rfl)
  have h₁₁ := h₁₀.push (show push ⟨2⟩ ⟨3⟩ _ = .ok ((), _) from rfl)
  have h₁₂ := h₁₁.createStmt (show createStmt (.print ⟨3⟩) none _ = .ok (⟨4⟩, _) from rfl)
  have h₁₃ := h₁₂.push (show push ⟨2⟩ ⟨4⟩ _ = .ok ((), _) from rfl)
  have h₁₄ := h₁₃.createStmt
    (show createStmt (.branch ⟨0⟩ none none (some ⟨2⟩) none) none _ = .ok (⟨5⟩, _) from rfl)
  exact (h₁₄.push (show push ⟨0⟩ ⟨5⟩ _ = .ok ((), guarding) from rfl)).reachable

theorem finiteBelow_guarding (b : BlockId) : guarding.FiniteBelow b := by
  refine finiteBelow_of_rank (fun b => 2 - b.index) ?_ b
  rintro d b ⟨s, stmt, hs, hstmt, hd⟩
  have hhome := reachable_guarding.intact.home hs
  have howner := reachable_guarding.intact.owner hstmt hd
  obtain ⟨_ | _ | _ | i⟩ := d
  · cases howner
  · obtain rfl : (⟨2⟩ : StmtId) = s := Option.some.inj howner
    obtain rfl : (⟨0⟩ : BlockId) = b := Option.some.inj hhome
    decide
  · obtain rfl : (⟨5⟩ : StmtId) = s := Option.some.inj howner
    obtain rfl : (⟨0⟩ : BlockId) = b := Option.some.inj hhome
    decide
  · cases howner

/-- What is nested in the second branch is its value and the statement that prints it. -/
theorem selfContained_guarding : guarding.SelfContained ⟨5⟩ := by
  have hblock : ∀ d, guarding.owner? d = some ⟨5⟩ → d = ⟨2⟩ := by
    rintro ⟨_ | _ | _ | i⟩ hd
    all_goals first | rfl | cases hd
  have hids : (guarding.tree ⟨2⟩).ids = [⟨3⟩, ⟨4⟩] := rfl
  have hmem : ∀ u, guarding.Nested ⟨5⟩ u ↔ u = ⟨3⟩ ∨ u = ⟨4⟩ := by
    intro u
    have hbelow := mem_ids_tree_iff (s := u) reachable_guarding.intact (finiteBelow_guarding ⟨2⟩)
    rw [hids, List.mem_cons, List.mem_singleton] at hbelow
    rw [hbelow]
    exact ⟨fun ⟨d, hd, hu⟩ => hblock d hd ▸ hu, fun hu => ⟨⟨2⟩, rfl, hu⟩⟩
  intro u stmt v hu hstmt hv
  rw [hmem] at hu ⊢
  rcases hu with rfl | rfl
  · obtain rfl := Option.some.inj hstmt
    cases hv
  · obtain rfl := Option.some.inj hstmt
    exact .inl (List.mem_singleton.1 hv)

/-- The branch that prints a value of its own can be erased, and the kernel stays verified. -/
theorem verify_of_erase_guarding : guarding.Reachable ∧ guarding.FiniteBelow ⟨0⟩ ∧
    guarding.verify ⟨"k", ⟨0⟩⟩ = .ok () ∧ ⟨5⟩ ∈ (guarding.tree ⟨0⟩).ids ∧
    guarding.chain ⟨5⟩ = [] ∧
    ∃ c', erase ⟨5⟩ guarding = .ok ((), c') ∧ c'.verify ⟨"k", ⟨0⟩⟩ = .ok () := by
  have hids : (⟨5⟩ : StmtId) ∈ (guarding.tree ⟨0⟩).ids := by decide
  obtain ⟨c', herase, hiff, -⟩ := verify_of_erase reachable_guarding ⟨"k", ⟨0⟩⟩
    (finiteBelow_guarding _) rfl hids rfl
  exact ⟨reachable_guarding, finiteBelow_guarding _, rfl, hids, rfl, c', herase,
    hiff.2 selfContained_guarding⟩

/-- If the branch that prints its condition is erased, then the condition still has a use by the
statement that prints it, which stands in the kernel no longer. -/
theorem exists_verify_erase_error : ∃ (c c' : Context) (kernel : Kernel) (s : StmtId),
    c.Reachable ∧ c.FiniteBelow kernel.body ∧ c.verify kernel = .ok () ∧
    s ∈ (c.tree kernel.body).ids ∧ c.chain s = [] ∧ erase s c = .ok ((), c') ∧
    c'.verify kernel = .error (.useChain (.foreignUser ⟨0⟩ ⟨1⟩)) :=
  ⟨guarding, _, ⟨"k", ⟨0⟩⟩, ⟨2⟩, reachable_guarding, finiteBelow_guarding _, rfl, by decide, rfl,
    rfl, rfl⟩

end Context

end KernelIR
