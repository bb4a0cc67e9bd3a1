import KernelIR.Proofs.Tree.Edit
import KernelIR.Verifier

/-!
# Scopes

`Tree.sites` pairs every statement of a tree with the values visible to it : those
defined earlier in the same block or in an enclosing one. A site fits (`Site.Fits`) if the
operands of its statement are visible there and slots stand where the roles of the
operands allow them.

Each rewrite of a tree changes the sites in a simple way. Removing a statement removes
its site, with those nested in it, and takes its value out of the other scopes
(`Tree.exists_site_of_remove`), changing statements leaves the scopes
(`Tree.sites_mapStmts`), and a value put behind another one is visible wherever that one
is (`Tree.exists_site_of_insertAfter`).
-/

namespace KernelIR

/-- Whether a value may be an operand of this role, if `isSlot` tells that it is a slot. -/
def SlotRole.Allows (role : SlotRole) (isSlot : Bool) : Prop :=
  (role = .required → isSlot = true) ∧ (role = .forbidden → isSlot = false)

/-- The values visible behind a statement, if `scope` is visible to it. -/
def Stmt.scopeAfter (stmt : Stmt) (id : StmtId) (scope : List StmtId) : List StmtId :=
  if stmt.kind.hasValue then id :: scope else scope

/-- A statement of a tree with the values visible to it. -/
structure Site where
  id : StmtId
  stmt : Stmt
  scope : List StmtId

/-- The operands are visible, and are slots only and always where their roles say so. -/
def Site.Fits (isSlot : StmtId → Bool) (p : Site) : Prop :=
  ∀ q ∈ p.stmt.kind.operands.zip p.stmt.kind.roles, q.1 ∈ p.scope ∧ q.2.Allows (isSlot q.1)

/-- The statements of a tree in pre-order with the values visible to them, if `scope` is
visible to the first. -/
def Tree.sites : Tree → List StmtId → List Site
  | nil, _ => []
  | cons id stmt first second rest, scope =>
    ⟨id, stmt, scope⟩ ::
      (first.sites scope ++ second.sites scope ++ rest.sites (stmt.scopeAfter id scope))

/-- The values visible behind a tree, if `scope` is visible in front of it. -/
def Tree.scopeAfter : Tree → List StmtId → List StmtId
  | nil, scope => scope
  | cons id stmt _ _ rest, scope => rest.scopeAfter (stmt.scopeAfter id scope)

namespace Context

variable {c : Context}

theorem isSlot_of_stmt? {s : StmtId} {stmt : Stmt} (h : c.stmt? s = some stmt) :
    c.isSlot s = stmt.kind.isAlloca := by
  simp [isSlot, h]

theorem operandsOf_of_stmt? {s : StmtId} {stmt : Stmt} (h : c.stmt? s = some stmt) :
    c.operandsOf s = stmt.kind.operands := by
  simp [operandsOf, h]

theorem hasValue_of_stmt? {s : StmtId} {stmt : Stmt} (h : c.stmt? s = some stmt) :
    c.hasValue s = stmt.kind.hasValue := by
  simp [hasValue, h]

end Context

namespace Kind

@[simp] theorem roles_mapOperands (f : Nat → StmtId → StmtId) (k : Kind) :
    (k.mapOperands f).roles = k.roles := by
  cases k with
  | load lanes => exact List.ext_getElem? fun i => by simp [mapOperands, roles]
  | branch _ trueMask falseMask _ _ =>
    cases trueMask <;> cases falseMask <;> simp [mapOperands, roles]
  | loop mask _ => cases mask <;> simp [mapOperands, roles]
  | structFor counters _ _ =>
    exact List.ext_getElem? fun i => by simp [mapOperands, roles]
  | _ => simp [mapOperands, roles, operands]

theorem operands_replace (old new : StmtId) (k : Kind) :
    (k.replace old new).operands = k.operands.map fun v => if v = old then new else v := by
  rw [replace, operands_mapOperands]
  exact List.ext_getElem? fun i => by simp

@[simp] theorem roles_replace (old new : StmtId) (k : Kind) :
    (k.replace old new).roles = k.roles :=
  roles_mapOperands _ k

@[simp] theorem hasValue_replace (old new : StmtId) (k : Kind) :
    (k.replace old new).hasValue = k.hasValue :=
  hasValue_mapOperands _ k

end Kind

namespace Site

variable {isSlot : StmtId → Bool} {p : Site}

/-- The operands of a statement that fits are in scope. -/
theorem Fits.mem_scope (h : p.Fits isSlot) {v : StmtId} (hv : v ∈ p.stmt.kind.operands) :
    v ∈ p.scope := by
  obtain ⟨i, hi, rfl⟩ := List.mem_iff_getElem.1 hv
  have hr : i < p.stmt.kind.roles.length := by rwa [Kind.length_roles]
  exact (h (p.stmt.kind.operands[i], p.stmt.kind.roles[i]) (List.mem_iff_getElem.2
    ⟨i, by simpa using Nat.lt_min.2 ⟨hi, hr⟩, by simp⟩)).1

theorem Fits.isSlot_of_store (h : p.Fits isSlot) {a v : StmtId} (hk : p.stmt.kind = .store a v) :
    isSlot a = true ∧ isSlot v = false := by
  rw [Fits, hk] at h
  exact ⟨(h (a, .required) (by simp [Kind.operands, Kind.roles])).2.1 rfl,
    (h (v, .forbidden) (by simp [Kind.operands, Kind.roles])).2.2 rfl⟩

theorem Fits.isSlot_of_atomic (h : p.Fits isSlot) {op : AtomicOp} {a v : StmtId}
    (hk : p.stmt.kind = .atomic op a v) : isSlot a = true ∧ isSlot v = false := by
  rw [Fits, hk] at h
  exact ⟨(h (a, .required) (by simp [Kind.operands, Kind.roles])).2.1 rfl,
    (h (v, .forbidden) (by simp [Kind.operands, Kind.roles])).2.2 rfl⟩

theorem Fits.isSlot_of_load (h : p.Fits isSlot) {lanes : List SlotLane}
    (hk : p.stmt.kind = .load lanes) {lane : SlotLane} (hl : lane ∈ lanes) :
    isSlot lane.slot = true := by
  rw [Fits, hk] at h
  obtain ⟨i, hi, rfl⟩ := List.mem_iff_getElem.1 hl
  exact (h (lanes[i].slot, .required) (List.mem_iff_getElem.2
    ⟨i, by simpa [Kind.operands, Kind.roles] using hi, by simp [Kind.operands, Kind.roles]⟩)).2.1
      rfl

/-- A value may take the place of another one, if it is visible and neither is a slot. -/
theorem Fits.replace (h : p.Fits isSlot) {old new : StmtId} (hold : isSlot old = false)
    (hnew : isSlot new = false) (hmem : old ∈ p.stmt.kind.operands → new ∈ p.scope) :
    Fits isSlot { p with stmt := p.stmt.mapKind (Kind.replace old new) } := by
  intro q hq
  simp only [Stmt.mapKind, Kind.operands_replace, Kind.roles_replace, List.zip_map_left,
    List.mem_map] at hq
  obtain ⟨⟨v, role⟩, hv, rfl⟩ := hq
  obtain ⟨hscope, hrole⟩ := h (v, role) hv
  simp only [Prod.map_apply]
  split
  · next heq =>
    subst heq
    exact ⟨hmem (List.of_mem_zip hv).1, by simpa [hold, hnew, SlotRole.Allows] using hrole⟩
  · exact ⟨hscope, hrole⟩

end Site

namespace Tree

theorem mem_scopeAfter {stmt : Stmt} {id v : StmtId} {scope : List StmtId} :
    v ∈ stmt.scopeAfter id scope ↔ v ∈ scope ∨ v = id ∧ stmt.kind.hasValue = true := by
  unfold Stmt.scopeAfter
  split <;> grind

theorem subset_scopeAfter (stmt : Stmt) (id : StmtId) (scope : List StmtId) :
    scope ⊆ stmt.scopeAfter id scope :=
  fun _ h => mem_scopeAfter.2 (.inl h)

theorem subset_scopeAfter_tree (t : Tree) (scope : List StmtId) : scope ⊆ t.scopeAfter scope := by
  induction t generalizing scope with
  | nil => exact List.Subset.refl scope
  | cons id stmt _ _ _ _ _ ih =>
    exact List.Subset.trans (subset_scopeAfter stmt id scope) (ih _)

/-- What is in scope behind a tree was in scope in front of it or stands in it. -/
theorem mem_or_mem_of_mem_scopeAfter {t : Tree} {v : StmtId} {scope : List StmtId}
    (h : v ∈ t.scopeAfter scope) : v ∈ scope ∨ v ∈ t.ids := by
  induction t generalizing scope with
  | nil => exact .inl h
  | cons id stmt first second rest _ _ ih =>
    simp only [ids_cons, List.mem_cons, List.mem_append]
    rcases ih h with h | h
    · rcases mem_scopeAfter.1 h with h | ⟨rfl, -⟩
      · exact .inl h
      · exact .inr (.inl rfl)
    · exact .inr (.inr (.inr h))

/-- The sites of a tree are its statements in pre-order. -/
theorem map_sites (t : Tree) (scope : List StmtId) :
    (t.sites scope).map (fun p => (p.id, p.stmt)) = t.preorder := by
  induction t generalizing scope with
  | nil => rfl
  | cons _ _ _ _ _ ih₁ ih₂ ih₃ => simp [sites, preorder, ih₁, ih₂, ih₃]

theorem mem_preorder_of_mem_sites {t : Tree} {scope : List StmtId} {p : Site}
    (h : p ∈ t.sites scope) : (p.id, p.stmt) ∈ t.preorder :=
  map_sites t scope ▸ List.mem_map_of_mem h

theorem mem_ids_of_mem_sites {t : Tree} {scope : List StmtId} {p : Site}
    (h : p ∈ t.sites scope) : p.id ∈ t.ids :=
  mem_ids.2 ⟨p.stmt, mem_preorder_of_mem_sites h⟩

/-- A statement that occurs once in a tree has one site. -/
theorem site_unique {t : Tree} (ht : t.ids.Nodup) {scope : List StmtId} {p q : Site}
    (hp : p ∈ t.sites scope) (hq : q ∈ t.sites scope) (h : p.id = q.id) : p = q := by
  have hids : (t.sites scope).map Site.id = t.ids := by
    rw [ids, ← map_sites t scope, List.map_map]
    rfl
  exact List.inj_on_of_nodup_map (hids ▸ ht) hp hq h

theorem exists_site_of_mem_preorder {t : Tree} {s : StmtId} {stmt : Stmt}
    (h : (s, stmt) ∈ t.preorder) (scope : List StmtId) :
    ∃ p ∈ t.sites scope, p.id = s ∧ p.stmt = stmt := by
  rw [← map_sites t scope, List.mem_map] at h
  obtain ⟨p, hp, heq⟩ := h
  exact ⟨p, hp, (Prod.mk.inj heq).1, (Prod.mk.inj heq).2⟩

/-- What is visible in a tree was visible in front of it or is defined in it. -/
theorem mem_scope_of_mem_sites {t : Tree} {scope : List StmtId} {p : Site} {v : StmtId}
    (h : p ∈ t.sites scope) (hv : v ∈ p.scope) :
    v ∈ scope ∨ ∃ stmt, (v, stmt) ∈ t.preorder ∧ stmt.kind.hasValue = true := by
  induction t generalizing scope with
  | nil => cases h
  | cons id stmt first second rest ih₁ ih₂ ih₃ =>
    simp only [sites, List.mem_cons, List.mem_append] at h
    simp only [preorder, List.mem_cons, List.mem_append]
    rcases h with rfl | (h | h) | h
    · exact .inl hv
    · rcases ih₁ h with h | ⟨u, h, hu⟩
      · exact .inl h
      · exact .inr ⟨u, by tauto, hu⟩
    · rcases ih₂ h with h | ⟨u, h, hu⟩
      · exact .inl h
      · exact .inr ⟨u, by tauto, hu⟩
    · rcases ih₃ h with h | ⟨u, h, hu⟩
      · rcases mem_scopeAfter.1 h with h | ⟨rfl, hs⟩
        · exact .inl h
        · exact .inr ⟨stmt, .inl rfl, hs⟩
      · exact .inr ⟨u, by tauto, hu⟩

/-- A statement does not see its own value. -/
theorem not_mem_scope_of_mem_sites {t : Tree} (ht : t.ids.Nodup) {scope : List StmtId}
    (hscope : ∀ v ∈ scope, v ∉ t.ids) {p : Site} (h : p ∈ t.sites scope) : p.id ∉ p.scope := by
  induction t generalizing scope with
  | nil => cases h
  | cons id stmt first second rest ih₁ ih₂ ih₃ =>
    simp only [ids_cons, List.nodup_cons, List.nodup_append, List.mem_append, not_or] at ht
    simp only [ids_cons, List.mem_cons, List.mem_append, not_or] at hscope
    obtain ⟨⟨⟨hid₁, hid₂⟩, hid₃⟩, ⟨hn₁, hn₂, -⟩, hn₃, -⟩ := ht
    simp only [sites, List.mem_cons, List.mem_append] at h
    rcases h with rfl | (h | h) | h
    · exact fun hmem => (hscope id hmem).1 rfl
    · exact ih₁ hn₁ (fun v hv => (hscope v hv).2.1.1) h
    · exact ih₂ hn₂ (fun v hv => (hscope v hv).2.1.2) h
    · refine ih₃ hn₃ (fun v hv => ?_) h
      rcases mem_scopeAfter.1 hv with hv | ⟨rfl, -⟩
      · exact (hscope v hv).2.2
      · exact hid₃

/-! ## Sites after rewrites -/

/-- If the same statements have values, then the same values are in scope. -/
theorem sites_mapStmts {g : StmtId → Stmt → Stmt}
    (hg : ∀ s stmt, (g s stmt).kind.hasValue = stmt.kind.hasValue) (t : Tree)
    (scope : List StmtId) : (t.mapStmts g).sites scope =
      (t.sites scope).map fun p => { p with stmt := g p.id p.stmt } := by
  induction t generalizing scope with
  | nil => rfl
  | cons _ _ _ _ _ ih₁ ih₂ ih₃ => simp [mapStmts, sites, ih₁, ih₂, ih₃, Stmt.scopeAfter, hg]

theorem sites_replace (old new : StmtId) (t : Tree) (scope : List StmtId) :
    (t.replace old new).sites scope =
      (t.sites scope).map fun p => { p with stmt := p.stmt.mapKind (Kind.replace old new) } :=
  sites_mapStmts (fun _ stmt => Kind.hasValue_replace old new stmt.kind) t scope

theorem filter_scopeAfter (stmt : Stmt) {id d : StmtId} (h : id ≠ d) (scope : List StmtId) :
    stmt.scopeAfter id (scope.filter (· != d)) = (stmt.scopeAfter id scope).filter (· != d) := by
  unfold Stmt.scopeAfter
  split
  · simp [h]
  · rfl

/-- Apart from its own value, a statement leaves the scope as it was. -/
theorem filter_scopeAfter_self (stmt : Stmt) (d : StmtId) (scope : List StmtId) :
    (stmt.scopeAfter d scope).filter (· != d) = scope.filter (· != d) := by
  unfold Stmt.scopeAfter
  split <;> simp

/-- What is left where a statement is removed, be it with statements nested in it, has lost at most
the value of that statement. -/
theorem exists_site_of_remove {t : Tree} {d : StmtId} {scope : List StmtId} {q : Site}
    (hq : q ∈ (t.remove d).sites (scope.filter (· != d))) :
    ∃ p ∈ t.sites scope, p.id = q.id ∧ p.stmt = q.stmt ∧ q.id ≠ d ∧
      q.scope = p.scope.filter (· != d) := by
  induction t generalizing scope with
  | nil => cases hq
  | cons id stmt first second rest ih₁ ih₂ ih₃ =>
    simp only [sites, List.mem_cons, List.mem_append]
    by_cases hid : id = d
    · subst hid
      rw [remove, if_pos rfl, ← filter_scopeAfter_self stmt] at hq
      obtain ⟨p, hp, h⟩ := ih₃ hq
      exact ⟨p, by tauto, h⟩
    · rw [remove, if_neg hid] at hq
      simp only [sites, List.mem_cons, List.mem_append, filter_scopeAfter stmt hid] at hq
      rcases hq with rfl | (hq | hq) | hq
      · exact ⟨_, .inl rfl, rfl, rfl, hid, rfl⟩
      · obtain ⟨p, hp, h⟩ := ih₁ hq
        exact ⟨p, by tauto, h⟩
      · obtain ⟨p, hp, h⟩ := ih₂ hq
        exact ⟨p, by tauto, h⟩
      · obtain ⟨p, hp, h⟩ := ih₃ hq
        exact ⟨p, by tauto, h⟩

/-- Where nothing takes the value of the statement that is removed, the operands still fit. -/
theorem fits_remove {t : Tree} {isSlot : StmtId → Bool} {d : StmtId}
    (h : ∀ p ∈ t.sites [], p.Fits isSlot) (hfree : ∀ p ∈ t.preorder, d ∉ p.2.kind.operands) :
    ∀ p ∈ (t.remove d).sites [], p.Fits isSlot := by
  intro q hq o ho
  replace hq : q ∈ (t.remove d).sites ([].filter (· != d)) := hq
  obtain ⟨p, hp, -, hstmt, -, hscope⟩ := exists_site_of_remove hq
  rw [← hstmt] at ho
  obtain ⟨hvisible, hrole⟩ := h p hp o ho
  have hne : o.1 ≠ d := by
    rintro rfl
    exact hfree _ (mem_preorder_of_mem_sites hp) (List.of_mem_zip ho).1
  rw [hscope]
  exact ⟨List.mem_filter.2 ⟨hvisible, by simpa using hne⟩, hrole⟩

/-- Behind `anchor` the value put there is visible, and nothing that was visible is lost. -/
theorem exists_site_of_insertAfter {t : Tree} {anchor new : StmtId} {newStmt : Stmt}
    (hnew : newStmt.kind.hasValue = true) {scope scope' : List StmtId} (hsub : scope ⊆ scope')
    (hanchor : anchor ∈ scope → new ∈ scope') {q : Site}
    (hq : q ∈ (t.insertAfter anchor new newStmt).sites scope') :
    (q.id = new ∧ q.stmt = newStmt) ∨ ∃ p ∈ t.sites scope, p.id = q.id ∧ p.stmt = q.stmt ∧
      p.scope ⊆ q.scope ∧ (anchor ∈ p.scope → new ∈ q.scope) := by
  induction t generalizing scope scope' with
  | nil => cases hq
  | cons id stmt first second rest ih₁ ih₂ ih₃ =>
    simp only [sites, List.mem_cons, List.mem_append]
    have hafter : stmt.scopeAfter id scope ⊆ stmt.scopeAfter id scope' := by
      intro v hv
      rw [mem_scopeAfter] at hv ⊢
      exact hv.imp_left (hsub ·)
    simp only [insertAfter, sites, List.mem_cons, List.mem_append] at hq
    rcases hq with rfl | (hq | hq) | hq
    · exact .inr ⟨_, .inl rfl, rfl, rfl, hsub, hanchor⟩
    · rcases ih₁ hsub hanchor hq with h | ⟨p, hp, h⟩
      · exact .inl h
      · exact .inr ⟨p, by tauto, h⟩
    · rcases ih₂ hsub hanchor hq with h | ⟨p, hp, h⟩
      · exact .inl h
      · exact .inr ⟨p, by tauto, h⟩
    · split at hq
      · next heq =>
        simp only [sites, List.nil_append, List.mem_cons] at hq
        rcases hq with rfl | hq
        · exact .inl ⟨rfl, rfl⟩
        · rcases ih₃ (List.Subset.trans hafter (subset_scopeAfter newStmt new _))
            (fun _ => mem_scopeAfter.2 (.inr ⟨rfl, hnew⟩)) hq with h | ⟨p, hp, h⟩
          · exact .inl h
          · exact .inr ⟨p, by tauto, h⟩
      · next hne =>
        have hlater : anchor ∈ stmt.scopeAfter id scope → new ∈ stmt.scopeAfter id scope' := by
          intro hmem
          rcases mem_scopeAfter.1 hmem with hmem | ⟨rfl, -⟩
          · exact subset_scopeAfter stmt id scope' (hanchor hmem)
          · exact absurd rfl hne
        rcases ih₃ hafter hlater hq with h | ⟨p, hp, h⟩
        · exact .inl h
        · exact .inr ⟨p, by tauto, h⟩

/-- Where a value is visible, so is what is visible to the statement that defines it. -/
theorem mem_scope_of_visible {t : Tree} {s v : StmtId} {scope : List StmtId}
    (hscope : s ∈ scope → v ∈ scope) (hs : ∀ p ∈ t.sites scope, p.id = s → v ∈ p.scope) {q : Site}
    (hq : q ∈ t.sites scope) (hmem : s ∈ q.scope) : v ∈ q.scope := by
  induction t generalizing scope with
  | nil => cases hq
  | cons id stmt first second rest ih₁ ih₂ ih₃ =>
    simp only [sites, List.mem_cons, List.mem_append] at hq hs
    rcases hq with rfl | (hq | hq) | hq
    · exact hscope hmem
    · exact ih₁ hscope (fun p hp => hs p (by tauto)) hq
    · exact ih₂ hscope (fun p hp => hs p (by tauto)) hq
    · refine ih₃ (fun h => subset_scopeAfter stmt id scope ?_) (fun p hp => hs p (by tauto)) hq
      rcases mem_scopeAfter.1 h with h | ⟨rfl, -⟩
      · exact hscope h
      · exact hs _ (.inl rfl) rfl

end Tree

end KernelIR
