import KernelIR.Proofs.Tree.Scope

/-!
# What the verifier decides

A context is valid for a tree (`Context.Valid`) if every site of the tree fits, every
operand of its statements is recorded as a use, and every recorded use of one of its
values is by a statement of the tree that holds the value. On an intact context the
verifier accepts a kernel just if the context is valid for its tree
(`Context.verify_eq_ok_iff`).

Three changes keep a context valid : an unused statement is taken out (`ValidOn.unlist`), a
constant is put behind another statement (`ValidOn.list`), and the uses of one value are
given to a value that is visible wherever the first one is used (`ValidOn.redirected`). This
holds as well if the recorded uses are only looked at for some kinds of statements
(`Context.ValidOn`) : a statement that is still to be made may have been named before, by
one that stands nowhere.
-/

namespace KernelIR

namespace Context

variable {c c' : Context} {t : Tree}

/-- The statements of the tree see their operands, and the recorded uses are those of the
operands. -/
structure Valid (c : Context) (t : Tree) : Prop where
  fits : ∀ p ∈ t.sites [], p.Fits c.isSlot
  recorded : ∀ p ∈ t.preorder, ∀ u ∈ p.2.kind.uses p.1, u ∈ c.uses
  held : ∀ u ∈ c.uses, u.value ∈ t.ids →
    ∃ stmt, (u.user, stmt) ∈ t.preorder ∧ u ∈ stmt.kind.uses u.user

/-! ## The checks -/

theorem bind_eq_ok {ε : Type} {x : Except ε Unit} {f : Unit → Except ε Unit} :
    (x >>= f) = .ok () ↔ x = .ok () ∧ f () = .ok () := by
  cases x <;> simp [bind, Except.bind]

theorem checkOperand_eq_ok {scope : List StmtId} {user operand : StmtId} {i : Nat}
    {role : SlotRole} : c.checkOperand scope user i operand role = .ok () ↔
      operand ∈ scope ∧ c.hasValue operand = true ∧ role.Allows (c.isSlot operand) := by
  unfold checkOperand SlotRole.Allows
  by_cases h : operand ∈ scope <;> cases c.hasValue operand <;> cases c.isSlot operand <;>
    cases role <;> simp [h]

theorem checkOperands_eq_ok {scope : List StmtId} {user : StmtId} {i : Nat}
    {l : List (StmtId × SlotRole)} : c.checkOperands scope user i l = .ok () ↔
      ∀ q ∈ l, q.1 ∈ scope ∧ c.hasValue q.1 = true ∧ q.2.Allows (c.isSlot q.1) := by
  induction l generalizing i with
  | nil => simp [checkOperands]
  | cons q l ih => simp [checkOperands, bind_eq_ok, checkOperand_eq_ok, ih]

theorem checkRecorded_eq_ok {user : StmtId} {i : Nat} {l : List StmtId} :
    c.checkRecorded user i l = .ok () ↔
      ∀ j v, l[j]? = some v → (⟨v, user, i + j⟩ : Use) ∈ c.uses := by
  induction l generalizing i with
  | nil => simp [checkRecorded]
  | cons w l ih =>
    rw [checkRecorded]
    constructor
    · intro h
      split at h
      · next hw =>
        rintro (_ | j) v hv
        · obtain rfl : w = v := by simpa using hv
          simpa using hw
        · have := ih.1 h j v (by simpa using hv)
          rwa [Nat.add_assoc, Nat.add_comm 1 j] at this
      · cases h
    · intro h
      rw [if_pos (by simpa using h 0 w (by simp)), ih]
      intro j v hv
      rw [Nat.add_assoc, Nat.add_comm 1 j]
      exact h (j + 1) v (by simpa using hv)

theorem checkChain_eq_ok {kernel : List StmtId} {l : List Use} :
    c.checkChain kernel l = .ok () ↔
      ∀ u ∈ l, u.user ∈ kernel ∧ (c.operandsOf u.user)[u.index]? = some u.value := by
  induction l with
  | nil => simp [checkChain]
  | cons u l ih =>
    rw [checkChain]
    by_cases h₁ : u.user ∈ kernel <;>
      by_cases h₂ : (c.operandsOf u.user)[u.index]? = some u.value <;> simp [h₁, h₂, ih]

theorem checkUses_eq_ok {kernel l : List StmtId} : c.checkUses kernel l = .ok () ↔
    ∀ s ∈ l, (∀ u ∈ (c.operandsOf s).mapIdx fun i v => ⟨v, s, i⟩, u ∈ c.uses) ∧
      ∀ u ∈ c.chain s, u.user ∈ kernel ∧ (c.operandsOf u.user)[u.index]? = some u.value := by
  induction l with
  | nil => simp [checkUses]
  | cons s l ih =>
    have hrec : (∀ j v, (c.operandsOf s)[j]? = some v → (⟨v, s, 0 + j⟩ : Use) ∈ c.uses) ↔
        ∀ u ∈ (c.operandsOf s).mapIdx fun i v => ⟨v, s, i⟩, u ∈ c.uses := by
      simp only [List.mem_mapIdx, Nat.zero_add]
      constructor
      · rintro h u ⟨j, hj, rfl⟩
        exact h j _ (List.getElem?_eq_getElem hj)
      · intro h j v hv
        obtain ⟨hj, rfl⟩ := List.getElem?_eq_some_iff.1 hv
        exact h _ ⟨j, hj, rfl⟩
    simp only [checkUses, bind_eq_ok, checkRecorded_eq_ok, checkChain_eq_ok, hrec, ih,
      List.mem_cons, forall_eq_or_imp, and_assoc]

/-- Checks the operands at a site. -/
def checkSite (c : Context) (p : Site) : Except VerifyError Unit :=
  c.checkOperands p.scope p.id 0 (p.stmt.kind.operands.zip p.stmt.kind.roles)

theorem checkSite_eq_ok {p : Site} (h : ∀ v ∈ p.scope, c.hasValue v = true) :
    c.checkSite p = .ok () ↔ p.Fits c.isSlot := by
  rw [checkSite, checkOperands_eq_ok]
  exact forall₂_congr fun q _ => ⟨fun hq => ⟨hq.1, hq.2.2⟩, fun hq => ⟨hq.1, h _ hq.1, hq.2⟩⟩

/-- The verifier finds the placement of an intact context in order, so the check of scopes
is about the operands at the sites of the tree, one site after the other. -/
theorem checkScopes_eq_forM (h : c.Intact) (n : Nat) (b : BlockId) (scope : List StmtId) :
    c.checkScopes (c.treeAt n b) b scope = forM ((c.treeAt n b).sites scope) c.checkSite := by
  induction n generalizing b scope with
  | zero => rfl
  | succ n ih =>
    rw [treeAt]
    have hl : ∀ s ∈ c.listed b, c.home? s = some b := fun s hs => h.home hs
    generalize c.listed b = l at hl
    induction l generalizing scope with
    | nil => rfl
    | cons s l ihl =>
      have ihl := fun scope => ihl scope fun t ht => hl t (List.mem_cons_of_mem s ht)
      rw [List.foldr_cons, graft]
      cases hs : c.stmt? s with
      | none => exact ihl scope
      | some stmt =>
        have hhome : stmt.block? = some b :=
          (home?_of_stmt? hs).symm.trans (hl s List.mem_cons_self)
        have hnested : ∀ {d? : Option BlockId}, (∀ d, d? = some d → d ∈ stmt.kind.blocks) →
            c.checkBlock s (fun d => c.checkScopes (d?.elim .nil (c.treeAt n)) d scope) d? =
              forM ((d?.elim .nil (c.treeAt n)).sites scope) c.checkSite := by
          intro d? hd
          cases d? with
          | none => rfl
          | some d =>
            rw [checkBlock, if_pos (h.owner hs (hd d rfl))]
            exact ih d scope
        rw [checkScopes, if_neg (by simp [hhome])]
        simp only [Tree.sites, List.forM_cons, List.forM_append, bind_assoc]
        rw [hnested (by simp +contextual [Kind.blocks]),
          hnested (by simp +contextual [Kind.blocks])]
        simp only [ihl]
        rfl

theorem forM_eq_ok {α ε : Type} {f : α → Except ε Unit} {l : List α} :
    forM l f = .ok () ↔ ∀ a ∈ l, f a = .ok () := by
  induction l with
  | nil => simp [pure, Except.pure]
  | cons a l ih => simp [List.forM_cons, bind_eq_ok, ih]

/-- Only values get into the scope of a site. -/
theorem hasValue_of_mem_scope {n : Nat} {b : BlockId} {p : Site}
    (hp : p ∈ (c.treeAt n b).sites []) : ∀ v ∈ p.scope, c.hasValue v = true := by
  intro v hv
  rcases Tree.mem_scope_of_mem_sites hp hv with hnil | ⟨stmt, hm, hvalue⟩
  · cases hnil
  · rwa [hasValue_of_stmt? (stmt?_of_mem_treeAt hm)]

theorem checkScopes_eq_ok_iff (h : c.Intact) {n : Nat} {b : BlockId} :
    c.checkScopes (c.treeAt n b) b [] = .ok () ↔
      ∀ p ∈ (c.treeAt n b).sites [], p.Fits c.isSlot := by
  rw [checkScopes_eq_forM h, forM_eq_ok]
  exact forall₂_congr fun p hp => checkSite_eq_ok (hasValue_of_mem_scope hp)

/-- The verifier decides validity. -/
theorem verify_eq_ok_iff (h : c.Intact) (kernel : Kernel) :
    c.verify kernel = .ok () ↔ c.Valid (c.tree kernel.body) := by
  have hstmt : ∀ {s stmt}, (s, stmt) ∈ (c.tree kernel.body).preorder → c.stmt? s = some stmt :=
    fun hm => stmt?_of_mem_treeAt hm
  unfold verify
  rw [bind_eq_ok, checkUses_eq_ok, tree, checkScopes_eq_ok_iff h, ← tree]
  constructor
  · rintro ⟨hfits, huses⟩
    refine ⟨hfits, fun p hp u hu => ?_, fun u hu hv => ?_⟩
    · refine (huses p.1 (Tree.mem_ids.2 ⟨p.2, hp⟩)).1 u ?_
      rwa [operandsOf_of_stmt? (hstmt hp)]
    · obtain ⟨huser, hop⟩ := (huses u.value hv).2 u (by simp [chain, hu])
      obtain ⟨stmt, hm⟩ := Tree.mem_ids.1 huser
      refine ⟨stmt, hm, Kind.mem_uses.2 ⟨rfl, ?_⟩⟩
      rwa [operandsOf_of_stmt? (hstmt hm)] at hop
  · rintro ⟨hfits, hrec, hheld⟩
    refine ⟨hfits, fun s hs => ⟨fun u hu => ?_, fun u hu => ?_⟩⟩
    · obtain ⟨stmt, hm⟩ := Tree.mem_ids.1 hs
      rw [operandsOf_of_stmt? (hstmt hm)] at hu
      exact hrec _ hm u hu
    · obtain ⟨hused, heq⟩ := List.mem_filter.1 hu
      obtain rfl : u.value = s := by simpa using heq
      obtain ⟨stmt, hm, hop⟩ := hheld u hused hs
      rw [operandsOf_of_stmt? (hstmt hm)]
      exact ⟨Tree.mem_ids.2 ⟨stmt, hm⟩, (Kind.mem_uses.1 hop).2⟩

/-! ## Changes that keep a context valid -/

theorem isSlot_eq_getD (s : StmtId) :
    c.isSlot s = ((c.stmt? s).map fun stmt => stmt.kind.isAlloca).getD false := by
  unfold isSlot
  cases c.stmt? s <;> rfl

theorem isSlot_unlist (b : BlockId) (i : Nat) (s : StmtId) :
    (c.unlist b i s).isSlot = c.isSlot := by
  funext t
  rw [isSlot_eq_getD, isSlot_eq_getD, stmt?_unlist]
  split <;> simp [Function.comp_def]

theorem isSlot_list (b : BlockId) (i : Nat) (s : StmtId) : (c.list b i s).isSlot = c.isSlot := by
  funext t
  rw [isSlot_eq_getD, isSlot_eq_getD, stmt?_list]
  split <;> simp [Function.comp_def]

theorem isSlot_redirected (old new : StmtId) : (c.redirected old new).isSlot = c.isSlot := by
  funext t
  rw [isSlot_eq_getD, isSlot_eq_getD, stmt?_redirected]
  simp [Function.comp_def]

/-- The context is valid for the tree, but for recorded uses of statements whose kind does not pass
the test `q`. -/
structure ValidOn (q : Kind → Bool) (c : Context) (t : Tree) : Prop where
  fits : ∀ p ∈ t.sites [], p.Fits c.isSlot
  recorded : ∀ p ∈ t.preorder, ∀ u ∈ p.2.kind.uses p.1, u ∈ c.uses
  held : ∀ u ∈ c.uses, ∀ w, (u.value, w) ∈ t.preorder → q w.kind = true →
    ∃ stmt, (u.user, stmt) ∈ t.preorder ∧ u ∈ stmt.kind.uses u.user

variable {q : Kind → Bool}

theorem Valid.on (h : c.Valid t) (q : Kind → Bool) : c.ValidOn q t :=
  ⟨h.fits, h.recorded, fun u hu _ hw _ => h.held u hu (Tree.mem_ids_of_mem_preorder hw)⟩

theorem ValidOn.valid (h : c.ValidOn (fun _ => true) t) : c.Valid t :=
  ⟨h.fits, h.recorded, fun u hu hv =>
    have ⟨w, hw⟩ := Tree.mem_ids.1 hv
    h.held u hu w hw rfl⟩

namespace ValidOn

/-- Only values of the tree are used in it. -/
theorem exists_of_mem_operands (h : c.ValidOn q t) {p : StmtId × Stmt} (hp : p ∈ t.preorder)
    {v : StmtId} (hv : v ∈ p.2.kind.operands) :
    ∃ u, (v, u) ∈ t.preorder ∧ u.kind.hasValue = true := by
  obtain ⟨r, hr, -, hrs⟩ := Tree.exists_site_of_mem_preorder hp []
  rcases Tree.mem_scope_of_mem_sites hr ((h.fits r hr).mem_scope (hrs ▸ hv)) with hnil | hu
  · cases hnil
  · exact hu

/-- What is not used in the tree has no recorded uses. -/
theorem chain_eq_nil_iff (h : c.ValidOn q t) {s : StmtId} {w : Stmt} (hs : (s, w) ∈ t.preorder)
    (hq : q w.kind = true) : c.chain s = [] ↔ ∀ p ∈ t.preorder, s ∉ p.2.kind.operands := by
  constructor
  · intro hnil p hp hop
    obtain ⟨i, hi, hget⟩ := List.mem_iff_getElem.1 hop
    have hu := h.recorded p hp ⟨s, p.1, i⟩
      (Kind.mem_uses.2 ⟨rfl, by rw [List.getElem?_eq_getElem hi, hget]⟩)
    have : (⟨s, p.1, i⟩ : Use) ∈ c.chain s := List.mem_filter.2 ⟨hu, by simp⟩
    simp [hnil] at this
  · intro hfree
    refine List.eq_nil_iff_forall_not_mem.2 fun u hu => ?_
    obtain ⟨hmem, heq⟩ := List.mem_filter.1 hu
    obtain rfl : u.value = s := by simpa using heq
    obtain ⟨stmt, hm, hop⟩ := h.held u hmem w hs hq
    exact hfree _ hm (List.mem_of_getElem? (Kind.mem_uses.1 hop).2)

/-- A statement that no statement of the tree takes as an operand may be taken out. -/
theorem unlist (h : c.ValidOn q t) (ht : t.Shaped) {s : StmtId}
    (hblocks : ∀ stmt, (s, stmt) ∈ t.preorder → stmt.kind.blocks = [])
    (hfree : ∀ p ∈ t.preorder, s ∉ p.2.kind.operands) (b : BlockId) (i : Nat) :
    (c.unlist b i s).ValidOn q (t.remove s) where
  fits p hp := by
    rw [isSlot_unlist]
    exact Tree.fits_remove h.fits hfree p hp
  recorded p hp u hu := by
    rw [Tree.preorder_remove ht hblocks] at hp
    obtain ⟨hp, hne⟩ := List.mem_filter.1 hp
    refine List.mem_filter.2 ⟨h.recorded p hp u hu, ?_⟩
    rwa [(Kind.mem_uses.1 hu).1]
  held u hu w hw hq := by
    obtain ⟨hu, hne⟩ := List.mem_filter.1 hu
    rw [Tree.preorder_remove ht hblocks] at hw ⊢
    obtain ⟨stmt, hm, hop⟩ := h.held u hu w (List.mem_filter.1 hw).1 hq
    exact ⟨stmt, List.mem_filter.2 ⟨hm, hne⟩, hop⟩

/-- A constant that has no uses yet, if its uses count, may be put behind another statement. -/
theorem list (h : c.ValidOn q t) {anchor s : StmtId} {stmt : Stmt}
    (hvalue : stmt.kind.hasValue = true) (hops : stmt.kind.operands = [])
    (hunused : q stmt.kind = true → ∀ u ∈ c.uses, u.value ≠ s) (b : BlockId) (i : Nat) :
    (c.list b i s).ValidOn q (t.insertAfter anchor s stmt) where
  fits p hp := by
    rw [isSlot_list]
    rcases Tree.exists_site_of_insertAfter hvalue (List.Subset.refl []) (by simp) hp with
      ⟨-, hs⟩ | ⟨r, hr, -, hs, hsub, -⟩
    · intro o ho
      simp [hs, hops] at ho
    · intro o ho
      obtain ⟨hscope, hrole⟩ := h.fits r hr o (by rwa [hs])
      exact ⟨hsub hscope, hrole⟩
  recorded p hp u hu := by
    rcases Tree.mem_preorder_insertAfter.1 hp with hp | ⟨-, rfl⟩
    · exact h.recorded p hp u hu
    · simp [Kind.uses, hops] at hu
  held u hu w hw hq := by
    rcases Tree.mem_preorder_insertAfter.1 hw with hw | ⟨-, heq⟩
    · obtain ⟨user, hm, hop⟩ := h.held u hu w hw hq
      exact ⟨user, Tree.mem_preorder_insertAfter.2 (.inl hm), hop⟩
    · obtain ⟨hs, rfl⟩ := Prod.mk.inj heq
      exact (hunused hq u hu hs).elim

section Redirect

variable {old : StmtId} {w : Stmt} (hold : (old, w) ∈ t.preorder) (hq : q w.kind = true)
include hold hq

/-- In the tree, the recorded uses of a value are its occurrences as an operand. -/
theorem redirect_eq (h : c.ValidOn q t) (hnodup : t.ids.Nodup) (new : StmtId) {p : StmtId × Stmt}
    (hp : p ∈ t.preorder) {i : Nat} {v : StmtId} (hv : p.2.kind.operands[i]? = some v) :
    c.redirect old new p.1 i v = if v = old then new else v := by
  unfold redirect
  by_cases heq : v = old
  · subst heq
    have hmem : (⟨v, p.1, i⟩ : Use) ∈ c.chain v :=
      List.mem_filter.2 ⟨h.recorded p hp _ (Kind.mem_uses.2 ⟨rfl, hv⟩), by simp⟩
    rw [if_pos hmem, if_pos rfl]
  · rw [if_neg heq, if_neg]
    intro hmem
    obtain ⟨stmt, hm, hop⟩ := h.held _ (List.mem_filter.1 hmem).1 w hold hq
    obtain rfl : stmt = p.2 := Tree.stmt_unique hnodup hm hp
    have := (Kind.mem_uses.1 hop).2
    exact heq (Option.some.inj (hv.symm.trans this))

/-- A value that is visible wherever `old` is used may take its place. -/
theorem redirected (h : c.ValidOn q t) (hkind : ∀ f k, q (Kind.mapOperands f k) = q k)
    (hslot : c.isSlot old = false) {new : StmtId} (hnew : c.isSlot new = false)
    (hvisible : ∀ p ∈ t.sites [], old ∈ p.stmt.kind.operands → new ∈ p.scope) :
    (c.redirected old new).ValidOn q (t.replace old new) where
  fits p hp := by
    rw [isSlot_redirected]
    rw [Tree.sites_replace, List.mem_map] at hp
    obtain ⟨r, hr, rfl⟩ := hp
    exact (h.fits r hr).replace hslot hnew (hvisible r hr)
  recorded p hp u hu := by
    rw [Tree.replace, Tree.preorder_mapStmts, List.mem_map] at hp
    obtain ⟨r, hr, rfl⟩ := hp
    obtain ⟨huser, hop⟩ := Kind.mem_uses.1 hu
    simp only [Stmt.mapKind, Kind.operands_replace, List.getElem?_map,
      Option.map_eq_some_iff] at hop
    obtain ⟨v, hv, hval⟩ := hop
    have hmem := h.recorded r hr ⟨v, u.user, u.index⟩ (Kind.mem_uses.2 ⟨huser, hv⟩)
    refine List.mem_append.2 ?_
    split at hval
    · next heq =>
      subst heq
      refine .inr (List.mem_map.2 ⟨_, List.mem_filter.2 ⟨hmem, by simp⟩, ?_⟩)
      rw [hval]
    · next hne =>
      subst hval
      exact .inl (List.mem_filter.2 ⟨hmem, by simpa using hne⟩)
  held u hu x hx hqx := by
    have huse : ∀ a ∈ c.uses, ∀ y, (a.value, y) ∈ t.preorder → q y.kind = true →
        ∃ stmt, (a.user, stmt) ∈ (t.replace old new).preorder ∧
          stmt.kind.operands[a.index]? = some (if a.value = old then new else a.value) := by
      intro a ha y hy hqy
      obtain ⟨stmt, hm, hop⟩ := h.held a ha y hy hqy
      refine ⟨stmt.mapKind (Kind.replace old new), ?_, ?_⟩
      · rw [Tree.replace, Tree.preorder_mapStmts]
        exact List.mem_map_of_mem hm
      · simp [Stmt.mapKind, Kind.operands_replace, (Kind.mem_uses.1 hop).2]
    rcases List.mem_append.1 hu with hu | hu
    · obtain ⟨hu, hne⟩ := List.mem_filter.1 hu
      obtain ⟨y, hy, hqy⟩ : ∃ y, (u.value, y) ∈ t.preorder ∧ q y.kind = true := by
        rw [Tree.replace, Tree.preorder_mapStmts, List.mem_map] at hx
        obtain ⟨⟨v, y⟩, hy, heq⟩ := hx
        obtain ⟨rfl, rfl⟩ := Prod.mk.inj heq
        exact ⟨y, hy, by rwa [Stmt.mapKind, Kind.replace, hkind] at hqx⟩
      obtain ⟨stmt, hm, hop⟩ := huse u hu y hy hqy
      rw [if_neg (by simpa using hne)] at hop
      exact ⟨stmt, hm, Kind.mem_uses.2 ⟨rfl, hop⟩⟩
    · obtain ⟨a, ha, rfl⟩ := List.mem_map.1 hu
      obtain ⟨hmem, heq⟩ := List.mem_filter.1 ha
      obtain rfl : a.value = old := by simpa using heq
      obtain ⟨stmt, hm, hop⟩ := huse a hmem w hold hq
      rw [if_pos rfl] at hop
      exact ⟨stmt, hm, Kind.mem_uses.2 ⟨rfl, hop⟩⟩

end Redirect

theorem treeAt_redirected {n : Nat} {b : BlockId} (h : c.ValidOn q (c.treeAt n b))
    (hnodup : (c.treeAt n b).ids.Nodup) {old : StmtId} {w : Stmt}
    (hold : (old, w) ∈ (c.treeAt n b).preorder) (hq : q w.kind = true) (new : StmtId) :
    (c.redirected old new).treeAt n b = (c.treeAt n b).replace old new := by
  rw [Context.treeAt_redirected]
  refine Tree.mapStmts_congr fun p hp => ?_
  simp only [Stmt.mapKind, Kind.replace]
  congr 1
  exact Kind.mapOperands_congr fun i v hv => h.redirect_eq hold hq hnodup new hp hv

end ValidOn

theorem Valid.chain_eq_nil_iff (h : c.Valid t) {s : StmtId} (hs : s ∈ t.ids) :
    c.chain s = [] ↔ ∀ p ∈ t.preorder, s ∉ p.2.kind.operands := by
  obtain ⟨w, hw⟩ := Tree.mem_ids.1 hs
  exact (h.on fun _ => true).chain_eq_nil_iff hw rfl

end Context

end KernelIR
