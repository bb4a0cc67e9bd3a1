import KernelIR.Proofs.Tree.Placement
import KernelIR.Proofs.Verifier

/-!
# The verdict of the verifier

What the verifier demands, said of places in the context : operands are defined earlier
(`Context.WellScoped`), slots stand where slots are meant and nowhere else
(`Context.SlotsPlaced`), and the recorded uses are those of the operands
(`Context.UsesAgree`). The verifier accepts a kernel just if all three hold
(`verify_verdict`). If one of the first two fails it reports the first operand that offends,
in pre-order and in the order of the operands; a fault of the uses is only reported
if both hold.
-/

namespace KernelIR

/-! ## The demands -/

/-- The operand at this position has to be a slot. -/
def Kind.NeedsSlot (k : Kind) (i : Nat) : Prop :=
  match k with
  | .load _ => True
  | .store _ _ | .atomic _ _ _ => i = 0
  | _ => False

/-- The operand at this position may be a slot : the lanes of loads, the pointers of stores and
atomic operations, the counters of loops, and masks. -/
def Kind.MayTakeSlot (k : Kind) (i : Nat) : Prop :=
  match k with
  | .load _ | .structFor _ _ _ | .loop _ _ => True
  | .store _ _ | .atomic _ _ _ | .rangeFor _ _ _ _ => i = 0
  | .branch _ _ _ _ _ => i ≠ 0
  | _ => False

namespace Context

variable (c : Context) (root : BlockId)

/-- The operand is a value that is defined earlier. -/
def Sees (u v : StmtId) : Prop :=
  c.hasValue v = true ∧ c.Earlier root v u

/-- The operand at position `i` is a slot if it has to be one, and only if it may be one. -/
def InPlace (k : Kind) (i : Nat) (v : StmtId) : Prop :=
  (k.NeedsSlot i → c.isSlot v = true) ∧ (c.isSlot v = true → k.MayTakeSlot i)

/-- Every operand below `root` is a value that is defined earlier. -/
def WellScoped : Prop :=
  ∀ s (stmt : Stmt) (i : Nat) v, c.Below root s → c.stmt? s = some stmt →
    stmt.kind.operands[i]? = some v →
    c.Sees root s v

/-- Below `root` slots stand where slots are meant and nowhere else. -/
def SlotsPlaced : Prop :=
  ∀ s (stmt : Stmt) (i : Nat) v, c.Below root s → c.stmt? s = some stmt →
    stmt.kind.operands[i]? = some v →
    c.InPlace stmt.kind i v

/-- Below `root` the operands are recorded as uses, and the recorded uses are operands of
statements below `root`. -/
def UsesAgree : Prop :=
  ∀ s (stmt : Stmt), c.Below root s → c.stmt? s = some stmt →
    (∀ (i : Nat) v, stmt.kind.operands[i]? = some v → ⟨v, s, i⟩ ∈ c.chain v) ∧
      ∀ u ∈ c.chain s, c.Below root u.user ∧ ∃ user, c.stmt? u.user = some user ∧
        user.kind.operands[u.index]? = some s

/-- The operand of a statement at a position is not what it should be. -/
def Offends (q : StmtId × Nat) : Prop :=
  ∃ stmt v, c.stmt? q.1 = some stmt ∧ stmt.kind.operands[q.2]? = some v ∧
    ¬(c.Sees root q.1 v ∧ c.InPlace stmt.kind q.2 v)

end Context

/-- The operand positions of a tree, in pre-order and in the order of the operands. -/
def Tree.positions (t : Tree) : List (StmtId × Nat) :=
  t.preorder.flatMap fun p => (List.range p.2.kind.operands.length).map (p.1, ·)

/-- The operand position that an error is about. -/
def VerifyError.position? : VerifyError → Option (StmtId × Nat)
  | outOfScope user index _ | noValue user index _ | slotRequired user index
  | slotAsValue user index _ => some (user, index)
  | _ => none

/-! ## Roles and places -/

theorem Kind.role_iff {k : Kind} {i : Nat} {role : SlotRole} (h : k.roles[i]? = some role) :
    (role = .required ↔ k.NeedsSlot i) ∧ (role = .forbidden ↔ ¬k.MayTakeSlot i) := by
  have hconst : ∀ {α : Type} {l : List α} {r : SlotRole} {j : Nat},
      (l.map fun _ => r)[j]? = some role → role = r := by
    intro α l r j hr
    rw [List.getElem?_map] at hr
    obtain ⟨-, -, rfl⟩ := Option.map_eq_some_iff.1 hr
    rfl
  cases k with
  | load lanes => simp [hconst h, NeedsSlot, MayTakeSlot]
  | structFor counters => simp [hconst h, NeedsSlot, MayTakeSlot]
  | loop mask => simp [hconst h, NeedsSlot, MayTakeSlot]
  | branch =>
    cases i with
    | zero =>
      obtain rfl : SlotRole.forbidden = role := by simpa [roles] using h
      simp [NeedsSlot, MayTakeSlot]
    | succ i =>
      obtain rfl := hconst (j := i) h
      simp [NeedsSlot, MayTakeSlot]
  | store | atomic | rangeFor =>
    rcases i with _ | _ | _ | i <;> simp [roles] at h <;> subst h <;> simp [NeedsSlot, MayTakeSlot]
  | _ => simp [hconst h, NeedsSlot, MayTakeSlot]
/-! ## One check after the other -/

section Checks

variable {ε α β : Type}

theorem forM_flatMap (f : β → Except ε Unit) (g : α → List β) (l : List α) :
    forM (l.flatMap g) f = forM l fun a => forM (g a) f := by
  induction l with
  | nil => rfl
  | cons a l ih => simp [List.flatMap_cons, List.forM_append, List.forM_cons, ih]

/-- A list of checks fails with the first check that fails. -/
theorem forM_eq_error {f : α → Except ε Unit} {l : List α} {e : ε} (h : forM l f = .error e) :
    ∃ before a after, l = before ++ a :: after ∧ (∀ x ∈ before, f x = .ok ()) ∧
      f a = .error e := by
  induction l with
  | nil => cases h
  | cons a l ih =>
    cases ha : f a with
    | error e' =>
      have heq : e' = e := by simpa [List.forM_cons, ha, bind, Except.bind] using h
      exact ⟨[], a, l, rfl, by simp, heq ▸ ha⟩
    | ok =>
      have hrest : forM l f = .error e := by
        simpa [List.forM_cons, ha, bind, Except.bind] using h
      obtain ⟨before, b, after, rfl, hbefore, hb⟩ := ih hrest
      exact ⟨a :: before, b, after, rfl, by simpa [ha] using hbefore, hb⟩

end Checks

/-! ## The operands of a tree -/

/-- An operand with its role and its position, at the site of the statement that takes it. -/
structure Operand where
  site : Site
  value : StmtId
  role : SlotRole
  index : Nat

namespace Operand

/-- The position of the operand. -/
def position (o : Operand) : StmtId × Nat :=
  (o.site.id, o.index)

/-- Checks the operand. -/
def check (c : Context) (o : Operand) : Except VerifyError Unit :=
  c.checkOperand o.site.scope o.site.id o.index o.value o.role

/-- The operand is one of the statement at its site, at its position and in its role. -/
def Genuine (o : Operand) : Prop :=
  o.site.stmt.kind.operands[o.index]? = some o.value ∧
    o.site.stmt.kind.roles[o.index]? = some o.role

/-- An error about an operand names its position. -/
theorem position?_of_check {c : Context} {o : Operand} {e : VerifyError}
    (h : o.check c = .error e) : e.position? = some o.position := by
  unfold check Context.checkOperand at h
  split at h
  · cases h; rfl
  split at h
  · cases h; rfl
  split at h
  · cases h; rfl
  split at h
  · cases h; rfl
  · cases h

end Operand

/-- The operands at a site. -/
def Site.operands (p : Site) : List Operand :=
  (p.stmt.kind.operands.zip p.stmt.kind.roles).zipIdx.map fun q => ⟨p, q.1.1, q.1.2, q.2⟩

/-- The operands of the statements of a tree, in pre-order and in their own order. -/
def Tree.operands (t : Tree) : List Operand :=
  (t.sites []).flatMap Site.operands

theorem Site.genuine_of_mem {p : Site} {o : Operand} (h : o ∈ p.operands) :
    o.site = p ∧ o.Genuine := by
  obtain ⟨q, hq, rfl⟩ := List.mem_map.1 h
  have hget := List.mem_zipIdx_iff_getElem?.1 hq
  obtain ⟨hop, hrole⟩ := List.getElem?_zip_eq_some.1 hget
  exact ⟨rfl, hop, hrole⟩

theorem Site.positions_eq (p : Site) : p.operands.map Operand.position =
    (List.range p.stmt.kind.operands.length).map (p.id, ·) := by
  have hlen : (p.stmt.kind.operands.zip p.stmt.kind.roles).length =
      p.stmt.kind.operands.length := by
    rw [List.length_zip, Kind.length_roles, Nat.min_self]
  have hidx := List.zipIdx_map_snd 0 (p.stmt.kind.operands.zip p.stmt.kind.roles)
  rw [hlen, ← List.range_eq_range'] at hidx
  rw [← hidx, operands, List.map_map, List.map_map]
  rfl

theorem Tree.positions_eq (t : Tree) : t.positions = t.operands.map Operand.position := by
  rw [positions, operands, ← map_sites t [], List.flatMap_map, List.map_flatMap]
  exact List.flatMap_congr fun p _ => (Site.positions_eq p).symm

namespace Context

variable {c : Context} {root b : BlockId}

theorem checkOperands_eq_forM (p : Site) (i : Nat) (l : List (StmtId × SlotRole)) :
    c.checkOperands p.scope p.id i l =
      forM ((l.zipIdx i).map fun q => (⟨p, q.1.1, q.1.2, q.2⟩ : Operand)) (Operand.check c) := by
  induction l generalizing i with
  | nil => rfl
  | cons q l ih =>
    rw [checkOperands, ih, List.zipIdx_cons, List.map_cons, List.forM_cons]
    rfl

/-- The scopes and slots of a tree are checked operand by operand. -/
theorem checkScopes_eq_forM_operands (h : c.Intact) (b : BlockId) :
    c.checkScopes (c.tree b) b [] = forM (c.tree b).operands (Operand.check c) := by
  rw [tree, checkScopes_eq_forM h, ← tree, Tree.operands, forM_flatMap]
  exact congrArg _ (funext fun p => checkOperands_eq_forM p 0 _)

theorem stmt?_of_mem_operands {o : Operand} (h : o ∈ (c.tree root).operands) :
    c.stmt? o.site.id = some o.site.stmt ∧ o.site ∈ (c.tree root).sites [] ∧ o.Genuine := by
  obtain ⟨p, hp, ho⟩ := List.mem_flatMap.1 h
  obtain ⟨rfl, hgen⟩ := Site.genuine_of_mem ho
  exact ⟨stmt?_of_mem_treeAt (Tree.mem_preorder_of_mem_sites hp), hp, hgen⟩

/-- The check of an operand passes just if the operand does not offend. -/
theorem check_eq_ok_iff (h : c.Intact) (hf : c.FiniteBelow root) {o : Operand}
    (ho : o ∈ (c.tree root).operands) : o.check c = .ok () ↔ ¬c.Offends root o.position := by
  obtain ⟨hstmt, hsite, hop, hrole⟩ := stmt?_of_mem_operands ho
  have hsees : o.value ∈ o.site.scope ∧ c.hasValue o.value = true ↔
      c.Sees root o.site.id o.value := by
    rw [mem_scope_iff_earlier h hf hsite, Sees]
    tauto
  have hplace : o.role.Allows (c.isSlot o.value) ↔
      c.InPlace o.site.stmt.kind o.index o.value := by
    obtain ⟨hneeds, hmay⟩ := Kind.role_iff hrole
    rw [SlotRole.Allows, InPlace, hneeds, hmay]
    cases c.isSlot o.value <;> simp
  have hoffends : c.Offends root o.position ↔
      ¬(c.Sees root o.site.id o.value ∧ c.InPlace o.site.stmt.kind o.index o.value) := by
    constructor
    · rintro ⟨stmt, v, hs, hv, hnot⟩
      obtain rfl := Option.some.inj (hs.symm.trans hstmt)
      obtain rfl := Option.some.inj (hv.symm.trans hop)
      exact hnot
    · exact fun hnot => ⟨_, _, hstmt, hop, hnot⟩
  rw [hoffends, not_not, ← hsees, ← hplace, and_assoc]
  exact checkOperand_eq_ok

/-- No operand of the tree offends just if the two demands on operands hold. -/
theorem forall_not_offends_iff (h : c.Intact) (hf : c.FiniteBelow root) :
    (∀ q ∈ (c.tree root).positions, ¬c.Offends root q) ↔
      c.WellScoped root ∧ c.SlotsPlaced root := by
  constructor
  · intro hall
    have hboth : ∀ s stmt i v, c.Below root s → c.stmt? s = some stmt →
        stmt.kind.operands[i]? = some v → c.Sees root s v ∧ c.InPlace stmt.kind i v := by
      intro s stmt i v hs hstmt hv
      by_contra hnot
      refine hall (s, i) ?_ ⟨stmt, v, hstmt, hv, hnot⟩
      obtain ⟨stmt', hm⟩ := Tree.mem_ids.1 ((mem_ids_tree_iff h hf).2 hs)
      obtain rfl := Option.some.inj ((stmt?_of_mem_treeAt hm).symm.trans hstmt)
      exact List.mem_flatMap.2 ⟨_, hm, List.mem_map.2
        ⟨i, List.mem_range.2 (List.getElem?_eq_some_iff.1 hv).1, rfl⟩⟩
    exact ⟨fun s stmt i v hs hstmt hv => (hboth s stmt i v hs hstmt hv).1,
      fun s stmt i v hs hstmt hv => (hboth s stmt i v hs hstmt hv).2⟩
  · rintro ⟨hscoped, hplaced⟩ q hq ⟨stmt, v, hstmt, hv, hnot⟩
    obtain ⟨p, hp, hpos⟩ := List.mem_flatMap.1 hq
    obtain ⟨i, -, rfl⟩ := List.mem_map.1 hpos
    have hbelow := (mem_ids_tree_iff h hf).1 (Tree.mem_ids.2 ⟨p.2, hp⟩)
    exact hnot ⟨hscoped _ _ _ _ hbelow hstmt hv, hplaced _ _ _ _ hbelow hstmt hv⟩

/-! ## The recorded uses -/

theorem checkRecorded_error {user : StmtId} {i : Nat} {l : List StmtId} {e : VerifyError}
    (h : c.checkRecorded user i l = .error e) : ∃ fault, e = .useChain fault := by
  induction l generalizing i with
  | nil => cases h
  | cons v l ih =>
    rw [checkRecorded] at h
    split at h
    · exact ih h
    · cases h
      exact ⟨_, rfl⟩

theorem checkChain_error {kernel : List StmtId} {l : List Use} {e : VerifyError}
    (h : c.checkChain kernel l = .error e) : ∃ fault, e = .useChain fault := by
  induction l with
  | nil => cases h
  | cons u l ih =>
    rw [checkChain] at h
    split at h
    · cases h
      exact ⟨_, rfl⟩
    · split at h
      · cases h
        exact ⟨_, rfl⟩
      · exact ih h

/-- The check of the uses reports nothing but faults of the uses. -/
theorem checkUses_error {kernel l : List StmtId} {e : VerifyError}
    (h : c.checkUses kernel l = .error e) : ∃ fault, e = .useChain fault := by
  induction l with
  | nil => cases h
  | cons s l ih =>
    rw [checkUses] at h
    cases hrec : c.checkRecorded s 0 (c.operandsOf s) with
    | error e' =>
      obtain rfl : e' = e := by simpa [hrec, bind, Except.bind] using h
      exact checkRecorded_error hrec
    | ok =>
      cases hchain : c.checkChain kernel (c.chain s) with
      | error e' =>
        obtain rfl : e' = e := by simpa [hrec, hchain, bind, Except.bind] using h
        exact checkChain_error hchain
      | ok => exact ih (by simpa [hrec, hchain, bind, Except.bind] using h)

theorem checkUses_eq_ok_iff (h : c.Intact) (hf : c.FiniteBelow root) :
    c.checkUses (c.tree root).ids (c.tree root).ids = .ok () ↔ c.UsesAgree root := by
  have hops : ∀ {s stmt}, c.stmt? s = some stmt →
      ((∀ u ∈ (c.operandsOf s).mapIdx fun i v => ⟨v, s, i⟩, u ∈ c.uses) ↔
        ∀ i v, stmt.kind.operands[i]? = some v → (⟨v, s, i⟩ : Use) ∈ c.chain v) := by
    intro s stmt hs
    rw [operandsOf_of_stmt? hs]
    constructor
    · intro hall i v hv
      exact List.mem_filter.2 ⟨hall _ (Kind.mem_uses.2 ⟨rfl, hv⟩), by simp⟩
    · intro hall u hu
      obtain ⟨rfl, hv⟩ := Kind.mem_uses.1 hu
      exact (List.mem_filter.1 (hall u.index u.value hv)).1
  have hheld : ∀ u : Use, (c.operandsOf u.user)[u.index]? = some u.value ↔
      ∃ user, c.stmt? u.user = some user ∧ user.kind.operands[u.index]? = some u.value := by
    intro u
    unfold operandsOf
    cases c.stmt? u.user <;> simp
  rw [checkUses_eq_ok]
  constructor
  · intro hall s stmt hs hstmt
    obtain ⟨hrec, hchain⟩ := hall s ((mem_ids_tree_iff h hf).2 hs)
    refine ⟨(hops hstmt).1 hrec, fun u hu => ?_⟩
    obtain ⟨huser, hop⟩ := hchain u hu
    obtain rfl : u.value = s := by simpa using (List.mem_filter.1 hu).2
    exact ⟨(mem_ids_tree_iff h hf).1 huser, (hheld u).1 hop⟩
  · intro hall s hs
    obtain ⟨stmt, hm⟩ := Tree.mem_ids.1 hs
    have hstmt := stmt?_of_mem_treeAt hm
    obtain ⟨hrec, hchain⟩ := hall s stmt ((mem_ids_tree_iff h hf).1 hs) hstmt
    refine ⟨(hops hstmt).2 hrec, fun u hu => ?_⟩
    obtain ⟨huser, hop⟩ := hchain u hu
    obtain rfl : u.value = s := by simpa using (List.mem_filter.1 hu).2
    exact ⟨(mem_ids_tree_iff h hf).2 huser, (hheld u).2 hop⟩

/-! ## The verdict -/

/-- The verifier accepts a kernel just if the three demands hold. What it reports is the first
operand that offends, if there is one, and a fault of the uses otherwise. -/
theorem verify_verdict (h : c.Reachable) (kernel : Kernel) (hf : c.FiniteBelow kernel.body) :
    (c.verify kernel = .ok () ↔
      c.WellScoped kernel.body ∧ c.SlotsPlaced kernel.body ∧ c.UsesAgree kernel.body) ∧
    ∀ e, c.verify kernel = .error e →
      (c.WellScoped kernel.body ∧ c.SlotsPlaced kernel.body → ∃ fault, e = .useChain fault) ∧
      (¬(c.WellScoped kernel.body ∧ c.SlotsPlaced kernel.body) →
        ∃ q before after, e.position? = some q ∧
          (c.tree kernel.body).positions = before ++ q :: after ∧ c.Offends kernel.body q ∧
          ∀ r ∈ before, ¬c.Offends kernel.body r) := by
  have hi := h.intact
  have hverify : c.verify kernel =
      (forM (c.tree kernel.body).operands (Operand.check c) >>= fun _ =>
        c.checkUses (c.tree kernel.body).ids (c.tree kernel.body).ids) := by
    rw [← checkScopes_eq_forM_operands hi]
    rfl
  have hscopes : forM (c.tree kernel.body).operands (Operand.check c) = .ok () ↔
      c.WellScoped kernel.body ∧ c.SlotsPlaced kernel.body := by
    rw [← forall_not_offends_iff hi hf, forM_eq_ok, Tree.positions_eq, List.forall_mem_map]
    exact forall₂_congr fun o ho => check_eq_ok_iff hi hf ho
  refine ⟨by rw [hverify, bind_eq_ok, hscopes, checkUses_eq_ok_iff hi hf, and_assoc], ?_⟩
  intro e he
  rw [hverify] at he
  constructor
  · intro hgood
    rw [hscopes.2 hgood] at he
    exact checkUses_error he
  · intro hbad
    cases hforM : forM (c.tree kernel.body).operands (Operand.check c) with
    | ok => exact absurd (hscopes.1 hforM) hbad
    | error e' =>
      obtain rfl : e' = e := by simpa [hforM, bind, Except.bind] using he
      obtain ⟨before, o, after, hsplit, hbefore, ho⟩ := forM_eq_error hforM
      have hmem : ∀ r ∈ before ++ [o], r ∈ (c.tree kernel.body).operands := by
        intro r hr
        rw [hsplit]
        simp only [List.mem_append, List.mem_cons] at hr ⊢
        tauto
      refine ⟨o.position, before.map Operand.position, after.map Operand.position,
        Operand.position?_of_check ho, by simp [Tree.positions_eq, hsplit], ?_, ?_⟩
      · by_contra hnot
        rw [(check_eq_ok_iff hi hf (hmem o (by simp))).2 hnot] at ho
        cases ho
      · intro r hr
        obtain ⟨o', ho', rfl⟩ := List.mem_map.1 hr
        exact (check_eq_ok_iff hi hf (hmem o' (by simp [ho']))).1 (hbefore o' ho')

/-- A value of a branch that is printed behind the branch. -/
def escaping : Context where
  stmts := #[⟨.arg 0, some ⟨.u1, 1⟩, some ⟨0⟩⟩, ⟨.arg 1, some ⟨.i32, 1⟩, some ⟨1⟩⟩,
    ⟨.branch ⟨0⟩ none none (some ⟨1⟩) none, none, some ⟨0⟩⟩, ⟨.print ⟨1⟩, none, some ⟨0⟩⟩]
  blocks := #[⟨[⟨0⟩, ⟨2⟩, ⟨3⟩], none⟩, ⟨[⟨1⟩], some ⟨2⟩⟩]
  uses := [⟨⟨0⟩, ⟨2⟩, 0⟩, ⟨⟨1⟩, ⟨3⟩, 0⟩]

theorem reachable_escaping : escaping.Reachable := by
  have h₁ := Relation.ReflTransGen.single
    (Step.createBlock (show createBlock .empty = .ok (⟨0⟩, _) from rfl))
  have h₂ := h₁.tail (.createBlock (show createBlock _ = .ok (⟨1⟩, _) from rfl))
  have h₃ := h₂.tail (.createStmt
    (show createStmt (.arg 0) (some ⟨.u1, 1⟩) _ = .ok (⟨0⟩, _) from rfl))
  have h₄ := h₃.tail (.createStmt
    (show createStmt (.arg 1) (some ⟨.i32, 1⟩) _ = .ok (⟨1⟩, _) from rfl))
  have h₅ := h₄.tail (.createStmt
    (show createStmt (.branch ⟨0⟩ none none (some ⟨1⟩) none) none _ = .ok (⟨2⟩, _) from rfl))
  have h₆ := h₅.tail (.createStmt (show createStmt (.print ⟨1⟩) none _ = .ok (⟨3⟩, _) from rfl))
  have h₇ := h₆.tail (.push (show push ⟨0⟩ ⟨0⟩ _ = .ok ((), _) from rfl))
  have h₈ := h₇.tail (.push (show push ⟨1⟩ ⟨1⟩ _ = .ok ((), _) from rfl))
  have h₉ := h₈.tail (.push (show push ⟨0⟩ ⟨2⟩ _ = .ok ((), _) from rfl))
  exact h₉.tail (.push (show push ⟨0⟩ ⟨3⟩ _ = .ok ((), escaping) from rfl))

theorem finiteBelow_escaping : escaping.FiniteBelow ⟨0⟩ := by
  refine finiteBelow_of_rank (fun b => 1 - b.index) ?_ _
  rintro d b ⟨s, stmt, hs, hstmt, hd⟩
  have hhome := reachable_escaping.intact.home hs
  have howner := reachable_escaping.intact.owner hstmt hd
  -- only one block has an owner
  obtain ⟨_ | _ | i⟩ := d
  · cases howner
  · obtain rfl : (⟨2⟩ : StmtId) = s := Option.some.inj howner
    obtain rfl : (⟨0⟩ : BlockId) = b := Option.some.inj hhome
    decide
  · cases howner

/-- The escaping value is not in scope where it is printed, and the condition of the branch does
not offend. -/
theorem verify_verdict_escaping : escaping.Reachable ∧ escaping.FiniteBelow ⟨0⟩ ∧
    escaping.verify ⟨"k", ⟨0⟩⟩ = .error (.outOfScope ⟨3⟩ 0 ⟨1⟩) ∧
    escaping.Offends ⟨0⟩ (⟨3⟩, 0) ∧ ¬escaping.Offends ⟨0⟩ (⟨2⟩, 0) := by
  have hverify : escaping.verify ⟨"k", ⟨0⟩⟩ = .error (.outOfScope ⟨3⟩ 0 ⟨1⟩) := rfl
  obtain ⟨hscopes, hfirst⟩ :=
    (verify_verdict reachable_escaping ⟨"k", ⟨0⟩⟩ finiteBelow_escaping).2 _ hverify
  obtain ⟨q, before, after, hq, hsplit, hoffends, hbefore⟩ := hfirst fun hgood => by
    obtain ⟨fault, hfault⟩ := hscopes hgood
    cases hfault
  obtain rfl : (⟨3⟩, 0) = q := Option.some.inj hq
  have hpositions : (escaping.tree ⟨0⟩).positions = [(⟨2⟩, 0), (⟨3⟩, 0)] := rfl
  refine ⟨reachable_escaping, finiteBelow_escaping, hverify, hoffends, hbefore _ ?_⟩
  rw [hpositions] at hsplit
  cases before with
  | nil => cases hsplit
  | cons r before => exact (List.cons.inj hsplit).1 ▸ List.mem_cons_self

end Context

end KernelIR
