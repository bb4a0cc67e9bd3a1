import KernelIR.Proofs.Context.Listing
import KernelIR.Proofs.Execution
import KernelIR.Proofs.Slot.Tracking
import KernelIR.Proofs.Verifier
import KernelIR.Slot.Optimize

/-!
# Rewrites of a valid context

A context is sound below a block (`Context.Sound`) if it is intact and valid there, and
every value has its lanes. A verified context need not be : a type may be without lanes, and
a statement that stands nowhere may have named one that is still to be made. So what the
rewrites rely on is taken apart (`Context.Kept`), and comes with the rest of soundness or
without it.

The operations that rewrites are made of are not refused on such a context if they are used
as the rewrites use them, and keep it as it is (`Kept.erase`, `Kept.replace`,
`Kept.insertZero`). An analysis asks for a rewrite only where `Context.Allows` holds, and there
the rewrite is made and does to the tree what `Rewrite.onTree` says (`Kept.apply`). So the
demands of the operations are always met.
-/

namespace KernelIR

/-- A value has a type with lanes, and loads and constants have as many lanes as their
type. -/
def Stmt.Sized (stmt : Stmt) : Prop :=
  (stmt.kind.hasValue = true → 1 ≤ stmt.width) ∧
    match stmt.kind with
    | .load lanes => lanes.length = stmt.width
    | .const lanes => lanes.length = stmt.width
    | _ => True

theorem Stmt.Sized.mapKind_replace {stmt : Stmt} (h : stmt.Sized) (old new : StmtId) :
    (stmt.mapKind (Kind.replace old new)).Sized := by
  obtain ⟨hwidth, hlanes⟩ := h
  refine ⟨by simpa [Stmt.mapKind, Stmt.width] using hwidth, ?_⟩
  cases hk : stmt.kind <;> simp_all [Stmt.mapKind, Kind.replace, Kind.mapOperands, Stmt.width]

/-- The zeros of a type. -/
def ValueType.zeros (type : ValueType) : Kind :=
  .const (List.replicate type.width type.element.zero)

namespace Kind

def isLoad : Kind → Bool
  | load _ => true
  | _ => false

def isStore : Kind → Bool
  | store _ _ => true
  | _ => false

def isAtomic : Kind → Bool
  | atomic _ _ _ => true
  | _ => false

end Kind

namespace Rewrite

/-- What a rewrite on a slot does to a tree. A folded load makes the statement `fresh`,
which comes to stand in the block `block?`. -/
def onTree (slot fresh : StmtId) (block? : Option BlockId) (t : Tree) : Rewrite → Tree
  | zeroFold load type =>
    ((t.insertAfter load fresh ⟨type.zeros, some type, block?⟩).replace load fresh).remove load
  | forward load value => (t.replace load value).remove load
  | deadStore store => t.remove store
  | deadAtomic atomic => t.remove atomic
  | deadAlloca => t.remove slot

/-- The statement that a rewrite takes out. -/
def old (slot : StmtId) : Rewrite → StmtId
  | zeroFold load _ | forward load _ => load
  | deadStore s | deadAtomic s => s
  | deadAlloca => slot

/-- The kinds of statements that a rewrite takes out. -/
def takes : Rewrite → Kind → Bool
  | zeroFold _ _ | forward _ _ => Kind.isLoad
  | deadStore _ => Kind.isStore
  | deadAtomic _ => Kind.isAtomic
  | deadAlloca => Kind.isAlloca

end Rewrite

@[simp] theorem Kind.isAccess_mapOperands (f : Nat → StmtId → StmtId) (k : Kind) :
    (k.mapOperands f).isAccess = k.isAccess := by
  cases k <;> rfl

theorem Kind.blocks_of_isAccess {k : Kind} (h : k.isAccess = true) : k.blocks = [] := by
  cases k <;> first | rfl | cases h

namespace Context

variable {c c' : Context} {root : BlockId}

/-- What sweeps keep below a block of a context in which values have their lanes and no
statement is named before it is made. -/
structure Sound (c : Context) (root : BlockId) : Prop where
  intact : c.Intact
  finite : c.FiniteBelow root
  present : (c.block? root).isSome = true
  valid : c.Valid (c.tree root)
  sized : ∀ p ∈ (c.tree root).preorder, p.2.Sized
  /-- No value is used before it is there. -/
  defined : ∀ u ∈ c.uses, (c.stmt? u.value).isSome = true ∧ (c.stmt? u.user).isSome = true

/-- What sweeps rely on below a block, and keep. If it is `strict`, it is all of `Sound`, and
otherwise the recorded uses only count for accesses. -/
structure Kept (strict : Bool) (c : Context) (root : BlockId) : Prop where
  intact : c.Intact
  finite : c.FiniteBelow root
  present : (c.block? root).isSome = true
  valid : c.ValidOn (fun k => strict || k.isAccess) (c.tree root)
  sized : strict = true → ∀ p ∈ (c.tree root).preorder, p.2.Sized
  defined : strict = true →
    ∀ u ∈ c.uses, (c.stmt? u.value).isSome = true ∧ (c.stmt? u.user).isSome = true

theorem Sound.kept (h : c.Sound root) : c.Kept true root :=
  ⟨h.intact, h.finite, h.present, h.valid.on _, fun _ => h.sized, fun _ => h.defined⟩

theorem Kept.sound (h : c.Kept true root) : c.Sound root :=
  ⟨h.intact, h.finite, h.present, h.valid.valid, h.sized rfl, h.defined rfl⟩

/-- A verified kernel, however it was made. Its blocks are there and do not contain themselves. -/
structure Verified (c : Context) (kernel : Kernel) : Prop where
  reachable : c.Reachable
  finite : c.FiniteBelow kernel.body
  present : (c.block? kernel.body).isSome = true
  verify : c.verify kernel = .ok ()

theorem Verified.kept {kernel : Kernel} (h : c.Verified kernel) : c.Kept false kernel.body :=
  have hvalid := (verify_eq_ok_iff h.reachable.intact kernel).1 h.verify
  ⟨h.reachable.intact, h.finite, h.present, hvalid.on _, by simp, by simp⟩

/-- A statement of a tree stands in a block. -/
theorem Intact.place?_of_mem (h : c.Intact) {n : Nat} {b : BlockId} {s : StmtId}
    (hs : s ∈ (c.treeAt n b).ids) : ∃ d i, c.place? s = some (d, i) := by
  obtain ⟨d, hd, -⟩ := exists_home_of_mem_ids h hs
  exact ⟨d, h.place?_of_listed (h.listed hd)⟩

/-- A number that is still to be given stands in no tree. -/
theorem fresh_not_mem_ids : ⟨c.stmts.size⟩ ∉ (c.tree root).ids := by
  intro hmem
  obtain ⟨u, hu⟩ := Tree.mem_ids.1 hmem
  have := stmt?_of_mem_treeAt hu
  simp [stmt?] at this

namespace Kept

variable {strict : Bool} (h : c.Kept strict root)
include h

theorem nodup : (c.tree root).ids.Nodup :=
  nodup_ids_treeAt h.intact h.finite _

/-- A slot is declared at a site of the tree, and its walk begins right behind. -/
theorem exists_site_of_mem_slots {slot : Slot} (hslot : slot ∈ (c.tree root).slots) :
    ∃ stmt scope, (⟨slot.id, stmt, scope⟩ : Site) ∈ (c.tree root).sites [] ∧
      stmt.kind = .alloca ∧ slot.type? = stmt.type? ∧
      Slot.Point.Inv slot (c.tree root) ⟨slot.following, slot.id :: scope, .start .outside⟩ :=
  Slot.exists_site_of_mem_slots (shaped_tree c root) h.nodup (fun _ hp => hp) (by simp) hslot

/-- Only values of the tree are used in it. -/
theorem exists_of_mem_operands {p : StmtId × Stmt} (hp : p ∈ (c.tree root).preorder) {v : StmtId}
    (hv : v ∈ p.2.kind.operands) :
    ∃ u, (v, u) ∈ (c.tree root).preorder ∧ u.kind.hasValue = true :=
  h.valid.exists_of_mem_operands hp hv

theorem not_mem_operands {s : StmtId} {stmt : Stmt} (hm : (s, stmt) ∈ (c.tree root).preorder)
    (hv : stmt.kind.hasValue = false) : ∀ p ∈ (c.tree root).preorder, s ∉ p.2.kind.operands := by
  intro p hp hop
  obtain ⟨u, hu, hvalue⟩ := h.exists_of_mem_operands hp hop
  obtain rfl := Tree.stmt_unique h.nodup hu hm
  simp [hv] at hvalue

/-- An access has no uses if nothing in the tree takes its value. -/
theorem chain_eq_nil_iff {s : StmtId} {stmt : Stmt} (hm : (s, stmt) ∈ (c.tree root).preorder)
    (ha : stmt.kind.isAccess = true) :
    c.chain s = [] ↔ ∀ p ∈ (c.tree root).preorder, s ∉ p.2.kind.operands :=
  h.valid.chain_eq_nil_iff hm (by simp [ha])

/-- An access that is not used can be erased. -/
theorem erase {s : StmtId} {stmt : Stmt} (hm : (s, stmt) ∈ (c.tree root).preorder)
    (ha : stmt.kind.isAccess = true) (hfree : c.chain s = []) :
    ∃ c', Context.erase s c = .ok ((), c') ∧ c'.Kept strict root ∧
      c'.tree root = (c.tree root).remove s := by
  have hs : s ∈ (c.tree root).ids := Tree.mem_ids.2 ⟨stmt, hm⟩
  obtain ⟨d, i, hp⟩ := h.intact.place?_of_mem hs
  have hi := (place?_eq_some hp).2
  have htree := tree_unlist h.intact hi root
  have hkinds : ∀ u, (s, u) ∈ (c.tree root).preorder → u.kind.blocks = [] := by
    intro u hu
    obtain rfl := Tree.stmt_unique h.nodup hm hu
    exact Kind.blocks_of_isAccess ha
  refine ⟨c.unlist d i s, ?_, ⟨h.intact.unlist hi, ?_, ?_, ?_, ?_, ?_⟩, htree⟩
  · simp [Context.erase, stmt?_of_mem_treeAt hm, hp, eraseAt, hi, hfree]
  · exact h.finite.of_nests fun _ _ hn => ((nests_unlist h.intact hi).1 hn).1
  · have hpresent := h.present
    rw [isSome_block?_iff] at hpresent ⊢
    simpa [unlist, modifyBlock, modifyStmt] using hpresent
  · rw [htree]
    exact h.valid.unlist (shaped_tree c root) hkinds ((h.chain_eq_nil_iff hm ha).1 hfree) d i
  · intro hstrict p hp
    rw [htree, Tree.preorder_remove (shaped_tree c root) hkinds] at hp
    exact h.sized hstrict p (List.mem_filter.1 hp).1
  · intro hstrict u hu
    have hsome : ∀ t, ((c.unlist d i s).stmt? t).isSome = (c.stmt? t).isSome := by
      intro t
      rw [stmt?_unlist]
      split <;> simp
    rw [hsome, hsome]
    exact h.defined hstrict u (List.mem_filter.1 hu).1

/-- The uses of an access can be given to another value that is visible wherever it is used. -/
theorem replace {old new : StmtId} {stmt : Stmt} (hm : (old, stmt) ∈ (c.tree root).preorder)
    (ha : stmt.kind.isAccess = true) (hdefined : (c.stmt? new).isSome = true) (hne : old ≠ new)
    (hslot : c.isSlot old = false) (hnew : c.isSlot new = false)
    (hvisible : ∀ p ∈ (c.tree root).sites [], old ∈ p.stmt.kind.operands → new ∈ p.scope) :
    ∃ c', replaceAllUses old new c = .ok ((), c') ∧ c'.Kept strict root ∧
      c'.tree root = (c.tree root).replace old new ∧ c'.chain old = [] := by
  have htree : (c.redirected old new).tree root = (c.tree root).replace old new :=
    h.valid.treeAt_redirected h.nodup hm (by simp [ha]) new
  refine ⟨c.redirected old new, replaceAllUses_of_ne hne,
    ⟨h.intact.redirected old new, ?_, h.present, ?_, ?_, ?_⟩, htree, ?_⟩
  · refine h.finite.of_nests fun b e hn => ?_
    obtain ⟨t, u, ht, hu, hb⟩ := hn
    rw [stmt?_redirected] at hu
    obtain ⟨v, hv, rfl⟩ := Option.map_eq_some_iff.1 hu
    exact ⟨t, v, ht, hv, by simpa using hb⟩
  · rw [htree]
    exact h.valid.redirected hm (by simp [ha]) (by simp) hslot hnew hvisible
  · intro hstrict q hq
    rw [htree, Tree.replace, Tree.preorder_mapStmts, List.mem_map] at hq
    obtain ⟨r, hr, rfl⟩ := hq
    exact (h.sized hstrict r hr).mapKind_replace old new
  · intro hstrict u hu
    have hsome : ∀ t, ((c.redirected old new).stmt? t).isSome = (c.stmt? t).isSome := by
      intro t
      rw [stmt?_redirected, Option.isSome_map]
    rw [hsome, hsome]
    rcases List.mem_append.1 hu with hu | hu
    · exact h.defined hstrict u (List.mem_filter.1 hu).1
    · obtain ⟨w, hw, rfl⟩ := List.mem_map.1 hu
      exact ⟨hdefined, (h.defined hstrict w (List.mem_filter.1 hw).1).2⟩
  · refine List.eq_nil_iff_forall_not_mem.2 fun u hu => ?_
    obtain ⟨hu, heq⟩ := List.mem_filter.1 hu
    rcases List.mem_append.1 hu with hu | hu
    · have := (List.mem_filter.1 hu).2
      simp_all
    · obtain ⟨w, -, rfl⟩ := List.mem_map.1 hu
      exact hne (by simpa using heq : new = old).symm

/-- A constant of zeros can be made and put behind a statement. -/
theorem insertZero {anchor : StmtId} (ha : anchor ∈ (c.tree root).ids) {type : ValueType}
    (hwidth : strict = true → 1 ≤ type.width) : ∃ c₁ c₂,
      createStmt type.zeros (some type) c = .ok (⟨c.stmts.size⟩, c₁) ∧
      insertAfter anchor ⟨c.stmts.size⟩ c₁ = .ok ((), c₂) ∧ c₂.Kept strict root ∧
      c₂.tree root =
        (c.tree root).insertAfter anchor ⟨c.stmts.size⟩
          ⟨type.zeros, some type, c.home? anchor⟩ ∧
      c₂.isSlot = c.isSlot ∧ (c₂.stmt? ⟨c.stmts.size⟩).isSome = true := by
  obtain ⟨c₁, hc⟩ : ∃ c₁, createStmt type.zeros (some type) c = .ok (⟨c.stmts.size⟩, c₁) := ⟨_, rfl⟩
  have hcr := createStmt_eq_ok hc
  have hi₁ := h.intact.createStmt hc
  have huses : c₁.uses = c.uses := by
    simpa [Kind.uses, ValueType.zeros, Kind.operands] using hcr.uses
  have hfresh : c.stmt? ⟨c.stmts.size⟩ = none := by simp [stmt?]
  have hslot : c₁.isSlot = c.isSlot := by
    funext t
    rw [isSlot_eq_getD, isSlot_eq_getD, hcr.stmt?]
    split
    · next heq => simp [heq, hfresh, ValueType.zeros, Kind.isAlloca]
    · rfl
  have htree : c₁.tree root = c.tree root := by
    rw [tree, hcr.blocks_size]
    refine treeAt_congr hcr.listed (fun b s hs => ?_) _ _
    rw [hcr.stmt?, if_neg]
    rintro rfl
    have := h.intact.home hs
    simp [home?, hfresh] at this
  obtain ⟨d, i, hp⟩ : ∃ d i, c₁.place? anchor = some (d, i) := by
    rw [← htree] at ha
    exact hi₁.place?_of_mem ha
  have hhome : c.home? anchor = some d := by
    have hne : anchor ≠ ⟨c.stmts.size⟩ := by
      rintro rfl
      exact fresh_not_mem_ids ha
    obtain ⟨e, he, hidx⟩ := Option.bind_eq_some_iff.1 hp
    obtain ⟨j, -, heq⟩ := Option.map_eq_some_iff.1 hidx
    obtain rfl : e = d := congrArg Prod.fst heq
    simpa [home?, hcr.stmt?, hne] using he
  have hi := (place?_eq_some hp).2
  have hnew : c₁.stmt? ⟨c.stmts.size⟩ = some ⟨type.zeros, some type, none⟩ := by simp [hcr.stmt?]
  have hlt := (List.getElem?_eq_some_iff.1 hi).1
  have hpresent := isSome_block?_of_mem_listed (List.getElem_mem hlt)
  have htree₂ : (c₁.list d (i + 1) ⟨c.stmts.size⟩).tree root = (c.tree root).insertAfter anchor
      ⟨c.stmts.size⟩ ⟨type.zeros, some type, c.home? anchor⟩ := by
    have hsize : (c₁.list d (i + 1) ⟨c.stmts.size⟩).blocks.size = c₁.blocks.size := by
      simp [list, modifyBlock, modifyStmt]
    rw [tree, hsize, treeAt_list hi₁ hnew rfl rfl hi, ← tree, htree, hhome]
  refine ⟨c₁, c₁.list d (i + 1) ⟨c.stmts.size⟩, hc, ?_,
    ⟨hi₁.list hnew rfl hpresent hlt, ?_, ?_, ?_, ?_, ?_⟩, htree₂,
    (isSlot_list ..).trans hslot, by simp [stmt?_list, hnew]⟩
  · obtain ⟨u, hu, -⟩ := Option.bind_eq_some_iff.1 (place?_eq_some hp).1
    simp [insertAfter, hnew, hu, hp]
  · refine h.finite.of_nests fun b e hn => ?_
    obtain ⟨t, u, ht, hu, hb⟩ := hn
    have hne : t ≠ ⟨c.stmts.size⟩ := by
      rintro rfl
      simp only [stmt?_list, if_true, hnew, Option.map_some, Option.some.injEq] at hu
      subst hu
      simp [ValueType.zeros, Kind.blocks, Kind.firstBlock?, Kind.secondBlock?] at hb
    rw [stmt?_list, if_neg hne.symm, hcr.stmt?, if_neg hne] at hu
    refine ⟨t, u, ?_, hu, hb⟩
    rw [listed_list _ _ _ _ _ hpresent, hcr.listed] at ht
    split at ht
    · exact (List.eq_or_mem_of_mem_insertIdx ht).resolve_left hne
    · exact ht
  · have := h.present
    rw [isSome_block?_iff, ← hcr.blocks_size] at this
    rw [isSome_block?_iff]
    simpa [list, modifyBlock, modifyStmt] using this
  · rw [htree₂]
    refine ValidOn.list (c := c₁) ?_ rfl rfl (fun hq u hu heq => ?_) d (i + 1)
    · exact ⟨hslot ▸ h.valid.fits, huses ▸ h.valid.recorded, huses ▸ h.valid.held⟩
    · rw [huses] at hu
      have := (h.defined (by simpa [ValueType.zeros, Kind.isAccess] using hq) u hu).1
      simp [heq, hfresh] at this
  · intro hstrict p hp
    rw [htree₂] at hp
    rcases Tree.mem_preorder_insertAfter.1 hp with hp | ⟨-, rfl⟩
    · exact h.sized hstrict p hp
    · exact ⟨fun _ => hwidth hstrict, by simp [ValueType.zeros, Stmt.width]⟩
  · intro hstrict u hu
    have hsome : ∀ t, (c.stmt? t).isSome = true →
        ((c₁.list d (i + 1) ⟨c.stmts.size⟩).stmt? t).isSome = true := by
      intro t ht
      rw [stmt?_list, hcr.stmt?]
      grind
    have := h.defined hstrict u (huses ▸ hu)
    exact ⟨hsome _ this.1, hsome _ this.2⟩

/-- A load can be replaced by another value that is visible wherever its own is used. -/
theorem replaceLoad {load new : StmtId} {stmt : Stmt} (hm : (load, stmt) ∈ (c.tree root).preorder)
    {lanes : List SlotLane} (hkind : stmt.kind = .load lanes)
    (hdefined : (c.stmt? new).isSome = true) (hne : load ≠ new) (hnew : c.isSlot new = false)
    (hvisible : ∀ p ∈ (c.tree root).sites [], load ∈ p.stmt.kind.operands → new ∈ p.scope) :
    ∃ c₁ c₂, replaceAllUses load new c = .ok ((), c₁) ∧ Context.erase load c₁ = .ok ((), c₂) ∧
      c₂.Kept strict root ∧ c₂.tree root = ((c.tree root).replace load new).remove load := by
  have hslot : c.isSlot load = false := by
    rw [isSlot_of_stmt? (stmt?_of_mem_treeAt hm), hkind]
    rfl
  obtain ⟨c₁, hc₁, h₁, htree₁, hfree⟩ :=
    h.replace hm (by rw [hkind]; rfl) hdefined hne hslot hnew hvisible
  have hm₁ : (load, stmt.mapKind (Kind.replace load new)) ∈ (c₁.tree root).preorder := by
    rw [htree₁, Tree.replace, Tree.preorder_mapStmts]
    exact List.mem_map_of_mem hm
  have ha₁ : (stmt.mapKind (Kind.replace load new)).kind.isAccess = true := by
    rw [Stmt.mapKind, Kind.replace, Kind.isAccess_mapOperands, hkind]
    rfl
  obtain ⟨c₂, hc₂, h₂, htree₂⟩ := h₁.erase hm₁ ha₁ hfree
  exact ⟨c₁, c₂, hc₁, hc₂, h₂, htree₂.trans (by rw [htree₁])⟩

end Kept

/-! ## The rewrites that are asked for -/

/-- What the rewrite of a slot relies on. -/
inductive Allows (c : Context) (t : Tree) (slot : Slot) : Rewrite → Prop where
  | zeroFold {load : StmtId} {stmt : Stmt} {type : ValueType} (hm : (load, stmt) ∈ t.preorder)
    (ha : slot.action stmt.kind = .load) (hregular : stmt.kind.isRegularLoadOf slot.id = true)
    (htype : stmt.type? = some type) : Allows c t slot (.zeroFold load type)
  | forward {p : Site} {value : StmtId} (hp : p ∈ t.sites []) (ha : slot.action p.stmt.kind = .load)
    (hregular : p.stmt.kind.isRegularLoadOf slot.id = true) (hvisible : value ∈ p.scope)
    (hslot : c.isSlot value = false) :
    Allows c t slot (.forward p.id value)
  | deadStore {s value : StmtId} {stmt : Stmt} (hm : (s, stmt) ∈ t.preorder)
    (ha : slot.action stmt.kind = .store value) : Allows c t slot (.deadStore s)
  | deadAtomic {s : StmtId} {stmt : Stmt} (hm : (s, stmt) ∈ t.preorder)
    (ha : slot.action stmt.kind = .atomic) (hfree : ∀ p ∈ t.preorder, s ∉ p.2.kind.operands) :
    Allows c t slot (.deadAtomic s)
  | deadAlloca {stmt : Stmt} (hm : (slot.id, stmt) ∈ t.preorder) (hkind : stmt.kind = .alloca)
    (hfree : c.chain slot.id = []) : Allows c t slot .deadAlloca

/-- The statement that an allowed rewrite takes out is there. -/
theorem Allows.exists_old {t : Tree} {slot : Slot} {rewrite : Rewrite}
    (h : c.Allows t slot rewrite) :
    ∃ stmt, (rewrite.old slot.id, stmt) ∈ t.preorder ∧ rewrite.takes stmt.kind = true := by
  cases h with
  | zeroFold hm ha =>
    obtain ⟨lanes, hkind, -⟩ := Slot.action_eq_load ha
    exact ⟨_, hm, congrArg Kind.isLoad hkind⟩
  | forward hp ha =>
    obtain ⟨lanes, hkind, -⟩ := Slot.action_eq_load ha
    exact ⟨_, Tree.mem_preorder_of_mem_sites hp, congrArg Kind.isLoad hkind⟩
  | deadStore hm ha => exact ⟨_, hm, congrArg Kind.isStore (Slot.action_eq_store ha)⟩
  | deadAtomic hm ha =>
    obtain ⟨op, v, hkind⟩ := Slot.action_eq_atomic ha
    exact ⟨_, hm, congrArg Kind.isAtomic hkind⟩
  | deadAlloca hm hkind => exact ⟨_, hm, congrArg Kind.isAlloca hkind⟩

theorem isTaken_eq_false_iff {t : Tree} {s : StmtId} :
    Slot.isTaken t s = false ↔ ∀ p ∈ t.preorder, s ∉ p.2.kind.operands := by
  simp [Slot.isTaken, Tree.find_eq_filter, List.filter_eq_nil_iff]

variable {strict : Bool} {slot : Slot} {rewrite : Rewrite}

theorem leftover?_eq_some {t : Tree} {used : Bool} {st : SlotState}
    (h : Slot.leftover? t used st = some rewrite) :
    (∃ s, rewrite = .deadStore s ∧ st.lastStore? = some s ∧ st.storeRead = false) ∨
      (∃ s, rewrite = .deadAtomic s ∧ st.lastAtomic? = some s ∧ st.atomicUnread = true ∧
        Slot.isTaken t s = false) ∨
      rewrite = .deadAlloca ∧ st.stored = false ∧ st.loaded = false ∧ used = false := by
  simp only [Slot.leftover?, Option.or_eq_some_iff] at h
  rcases h with h | ⟨-, h | ⟨-, h⟩⟩
  · unfold Slot.deadStore? at h
    split at h
    · cases h
    · next hread =>
      obtain ⟨s, hs, rfl⟩ := Option.map_eq_some_iff.1 h
      exact .inl ⟨s, rfl, hs, by simpa using hread⟩
  · unfold Slot.deadAtomic? at h
    split at h
    · cases h
    · next s hs =>
      split at h
      · next hunread =>
        simp only [Bool.and_eq_true, Bool.not_eq_true'] at hunread
        exact .inr (.inl ⟨s, (Option.some.inj h).symm, hs, hunread⟩)
      · cases h
  · unfold Slot.deadAlloca? at h
    split at h
    · cases h
    · next hidle =>
      simp only [Bool.or_eq_true, not_or, Bool.not_eq_true] at hidle
      exact .inr (.inr ⟨(Option.some.inj h).symm, hidle.1.1, hidle.1.2, hidle.2⟩)

/-- An analysis only asks for rewrites that can be made. -/
theorem Kept.allows (h : c.Kept strict root) (hslot : slot ∈ (c.tree root).slots)
    (ha : slot.analyze (c.tree root) (c.chain slot.id ≠ []) = .error (.rewrite rewrite)) :
    c.Allows (c.tree root) slot rewrite := by
  obtain ⟨stmt, scope, hsite, hkind, -, hstart⟩ := h.exists_site_of_mem_slots hslot
  rcases Slot.analyze_eq_rewrite ha (slot.id :: scope) with ⟨x, hreach, hasks⟩ | ⟨st, hscan, hleft⟩
  · have hinv := hstart.reaches h.valid.fits hreach
    obtain ⟨t, scope', st⟩ := x
    obtain ⟨load, u, first, second, rest, rfl, hload, hrewrite⟩ := hasks
    obtain ⟨type, htype, -, hregular, ⟨-, rfl⟩ | ⟨-, v, hv, rfl⟩⟩ :=
      Slot.scanLoad_eq_rewrite hrewrite
    · exact .zeroFold hinv.mem_preorder hload hregular htype
    · unfold SlotState.forwardable? SlotState.load at hv
      split at hv
      · next hholds =>
        obtain ⟨s, w, su, -, hw, hmem, hsu, hstore⟩ := hinv.tracks.holds hholds
        obtain rfl : w = v := Option.some.inj (hw.symm.trans hv)
        obtain ⟨q, hq, -, rfl⟩ := Tree.exists_site_of_mem_preorder hsu []
        exact .forward hinv.site hload hregular hmem
          ((h.valid.fits q hq).isSlot_of_store (Slot.action_eq_store hstore)).2
      · cases hv
  · have htracks := hstart.scan h.valid.fits hscan
    rcases leftover?_eq_some hleft with
      ⟨s, rfl, hs, -⟩ | ⟨s, rfl, hs, -, hfree⟩ | ⟨rfl, -, -, hused⟩
    · obtain ⟨v, u, hm, hstore⟩ := htracks.store s hs
      exact .deadStore hm hstore
    · obtain ⟨u, hm, hatomic⟩ := htracks.atomic s hs
      exact .deadAtomic hm hatomic (isTaken_eq_false_iff.1 hfree)
    · exact .deadAlloca (Tree.mem_preorder_of_mem_sites hsite) hkind (by simpa using hused)

/-- A rewrite that is asked for is made, keeps what the next one relies on and does to the
tree what it should. -/
theorem Kept.apply (h : c.Kept strict root) (ha : c.Allows (c.tree root) slot rewrite) :
    ∃ event c', rewrite.apply slot.id c = .ok (event, c') ∧ c'.Kept strict root ∧
      c'.tree root = rewrite.onTree slot.id ⟨c.stmts.size⟩ (c.home? (rewrite.old slot.id))
        (c.tree root) := by
  cases ha with
  | @zeroFold load stmt type hm ha hregular htype =>
    obtain ⟨lanes, hkind, -⟩ := Slot.action_eq_load ha
    have hwidth (hstrict : strict = true) : 1 ≤ type.width := by
      simpa [Stmt.width, htype, hkind, Kind.hasValue] using (h.sized hstrict _ hm).1
    have hload : load ∈ (c.tree root).ids := Tree.mem_ids.2 ⟨stmt, hm⟩
    have hnone : c.stmt? ⟨c.stmts.size⟩ = none := by simp [stmt?]
    have hne : load ≠ ⟨c.stmts.size⟩ := by
      rintro rfl
      exact fresh_not_mem_ids hload
    obtain ⟨c₁, c₂, hc₁, hc₂, h₂, htree₂, hslot₂, hdefined⟩ := h.insertZero hload hwidth
    have hm₂ : (load, stmt) ∈ (c₂.tree root).preorder := by
      rw [htree₂]
      exact Tree.mem_preorder_insertAfter.2 (.inl hm)
    have hnew : c₂.isSlot ⟨c.stmts.size⟩ = false := by
      rw [hslot₂, isSlot, hnone]
    have hvisible : ∀ q ∈ (c₂.tree root).sites [], load ∈ q.stmt.kind.operands →
        ⟨c.stmts.size⟩ ∈ q.scope := by
      intro q hq hop
      rw [htree₂] at hq
      rcases Tree.exists_site_of_insertAfter rfl (List.Subset.refl []) (by simp) hq with
        ⟨-, hs⟩ | ⟨p, hp, -, hs, -, hlater⟩
      · simp [hs, ValueType.zeros, Kind.operands] at hop
      · exact hlater ((h.valid.fits p hp).mem_scope (hs ▸ hop))
    obtain ⟨c₃, c₄, hc₃, hc₄, h₄, htree₄⟩ := h₂.replaceLoad hm₂ hkind hdefined hne hnew hvisible
    refine ⟨.zeroFolded slot.id load ⟨c.stmts.size⟩, c₄, ?_, h₄, ?_⟩
    · rw [ValueType.zeros] at hc₁
      simp only [Rewrite.apply, bind, StateT.bind, Except.bind, hc₁, hc₂, hc₃, hc₄]
      rfl
    · rw [htree₄, htree₂]
      rfl
  | @forward p value hp ha hregular hvisible hvalue =>
    obtain ⟨lanes, hkind, -⟩ := Slot.action_eq_load ha
    have hdefined : (c.stmt? value).isSome = true := by
      rcases Tree.mem_scope_of_mem_sites hp hvisible with hnil | ⟨u, hu, -⟩
      · cases hnil
      · simp [stmt?_of_mem_treeAt hu]
    have hne : p.id ≠ value := by
      rintro rfl
      exact Tree.not_mem_scope_of_mem_sites h.nodup (by simp) hp hvisible
    have hlater : ∀ q ∈ (c.tree root).sites [], p.id ∈ q.stmt.kind.operands →
        value ∈ q.scope := by
      intro q hq hop
      refine Tree.mem_scope_of_visible (by simp) (fun r hr hid => ?_) hq
        ((h.valid.fits q hq).mem_scope hop)
      rwa [Tree.site_unique h.nodup hr hp hid]
    obtain ⟨c₁, c₂, hc₁, hc₂, h₂, htree₂⟩ := h.replaceLoad (Tree.mem_preorder_of_mem_sites hp)
      hkind hdefined hne hvalue hlater
    refine ⟨.forwarded slot.id p.id value, c₂, ?_, h₂, htree₂⟩
    simp only [Rewrite.apply, bind, StateT.bind, Except.bind, hc₁, hc₂]
    rfl
  | @deadStore s value stmt hm ha =>
    have hkind := Slot.action_eq_store ha
    have haccess : stmt.kind.isAccess = true := by
      rw [hkind]
      rfl
    have hfree : c.chain s = [] :=
      (h.chain_eq_nil_iff hm haccess).2 (h.not_mem_operands hm (by rw [hkind]; rfl))
    obtain ⟨c₁, hc₁, h₁, htree₁⟩ := h.erase hm haccess hfree
    refine ⟨.removedStore slot.id s, c₁, ?_, h₁, htree₁⟩
    simp only [Rewrite.apply, bind, StateT.bind, Except.bind, hc₁]
    rfl
  | @deadAtomic s stmt hm ha hfree =>
    obtain ⟨op, v, hkind⟩ := Slot.action_eq_atomic ha
    have haccess : stmt.kind.isAccess = true := by
      rw [hkind]
      rfl
    obtain ⟨c₁, hc₁, h₁, htree₁⟩ := h.erase hm haccess ((h.chain_eq_nil_iff hm haccess).2 hfree)
    refine ⟨.removedAtomic slot.id s, c₁, ?_, h₁, htree₁⟩
    simp only [Rewrite.apply, bind, StateT.bind, Except.bind, hc₁]
    rfl
  | @deadAlloca stmt hm hkind hfree =>
    obtain ⟨c₁, hc₁, h₁, htree₁⟩ := h.erase hm (by rw [hkind]; rfl) hfree
    refine ⟨.removedAlloca slot.id, c₁, ?_, h₁, htree₁⟩
    simp only [Rewrite.apply, bind, StateT.bind, Except.bind, hc₁]
    rfl

namespace Sound

variable (h : c.Sound root)
include h

theorem nodup : (c.tree root).ids.Nodup :=
  h.kept.nodup

theorem exists_of_mem_operands {p : StmtId × Stmt} (hp : p ∈ (c.tree root).preorder) {v : StmtId}
    (hv : v ∈ p.2.kind.operands) :
    ∃ u, (v, u) ∈ (c.tree root).preorder ∧ u.kind.hasValue = true :=
  h.kept.exists_of_mem_operands hp hv

theorem not_mem_operands {s : StmtId} {stmt : Stmt} (hm : (s, stmt) ∈ (c.tree root).preorder)
    (hv : stmt.kind.hasValue = false) : ∀ p ∈ (c.tree root).preorder, s ∉ p.2.kind.operands :=
  h.kept.not_mem_operands hm hv

theorem allows (hslot : slot ∈ (c.tree root).slots)
    (ha : slot.analyze (c.tree root) (c.chain slot.id ≠ []) = .error (.rewrite rewrite)) :
    c.Allows (c.tree root) slot rewrite :=
  h.kept.allows hslot ha

end Sound

end Context

end KernelIR
