import KernelIR.Proofs.Execution.Simulation
import KernelIR.Proofs.Slot.Unread
import KernelIR.Proofs.Slot.Value

/-!
# Rewrites do not show

Each rewrite is an exchange (`Rewrite.exchange`, `Rewrite.onTree_eq_exchange`), and an exchange
that is justified (`Exchange.Justified`) does not show : the executions of the rewritten tree
end and print as before (`Exchange.Justified.run`).

What the analysis of a slot asks for is justified (`Context.Sound.justified`) in a tree where
stores and atomic operations keep to the types of their slots (`Tree.Typed`). A load that is
replaced finds the value that takes its place, and this is still the value wherever the load
is used (`Tree.value_eq_of_visible`). What a removed write leaves behind is not read, but for
the stores of which a join forgets that they are.
-/

namespace KernelIR

variable {V : Type}

/-! ## Rewrites as exchanges -/

theorem Kind.replace_self (s : StmtId) (k : Kind) : k.replace s s = k :=
  (mapOperands_congr fun _ _ _ => ite_eq_right_iff.2 fun h => h.symm).trans k.rename_id

theorem Stmt.mapKind_replace_self (s : StmtId) (stmt : Stmt) :
    stmt.mapKind (Kind.replace s s) = stmt := by
  simp [mapKind, Kind.replace_self]

namespace Tree

theorem remove_eq_exchange (d : StmtId) (t : Tree) : t.remove d = t.exchange ⟨d, none, d⟩ := by
  induction t with
  | nil => rfl
  | cons id stmt first second rest ih₁ ih₂ ih₃ =>
    rw [remove, exchange, ih₁, ih₂, ih₃, Stmt.mapKind_replace_self]

theorem remove_replace_eq_exchange (old value : StmtId) (t : Tree) :
    (t.replace old value).remove old = t.exchange ⟨old, none, value⟩ := by
  induction t with
  | nil => rfl
  | cons id stmt first second rest ih₁ ih₂ ih₃ =>
    rw [replace] at ih₁ ih₂ ih₃ ⊢
    rw [mapStmts, remove, exchange, ih₁, ih₂, ih₃]

/-- A constant is put behind a statement before it takes its place. -/
theorem remove_replace_insertAfter_eq_exchange {old new : StmtId} (h : old ≠ new) {newStmt : Stmt}
    {cs : List Constant} (hk : newStmt.kind = .const cs) (t : Tree) :
    ((t.insertAfter old new newStmt).replace old new).remove old =
      t.exchange ⟨old, some (new, newStmt), new⟩ := by
  have hconst : newStmt.mapKind (Kind.replace old new) = newStmt := by
    obtain ⟨kind, type?, block?⟩ := newStmt
    obtain rfl : kind = .const cs := hk
    rfl
  induction t with
  | nil => rfl
  | cons id stmt first second rest ih₁ ih₂ ih₃ =>
    rw [replace] at ih₁ ih₂ ih₃ ⊢
    rw [insertAfter, mapStmts, remove, exchange, ih₁, ih₂]
    by_cases hid : id = old
    · simp [hid, mapStmts, remove, h.symm, hconst, ih₃]
    · simp [hid, ih₃]

end Tree

namespace Rewrite

/-- The exchange that a rewrite comes to. -/
def exchange (slot fresh : StmtId) (block? : Option BlockId) : Rewrite → Exchange
  | zeroFold load type => ⟨load, some (fresh, ⟨type.zeros, some type, block?⟩), fresh⟩
  | forward load value => ⟨load, none, value⟩
  | deadStore s | deadAtomic s => ⟨s, none, s⟩
  | deadAlloca => ⟨slot, none, slot⟩

@[simp] theorem old_exchange (rewrite : Rewrite) (slot fresh : StmtId) (block? : Option BlockId) :
    (rewrite.exchange slot fresh block?).old = rewrite.old slot := by
  cases rewrite <;> rfl

theorem onTree_eq_exchange {rewrite : Rewrite} {slot fresh : StmtId} {block? : Option BlockId}
    (h : (rewrite.exchange slot fresh block?).old ≠ fresh) (t : Tree) :
    rewrite.onTree slot fresh block? t = t.exchange (rewrite.exchange slot fresh block?) := by
  cases rewrite with
  | zeroFold load type => exact t.remove_replace_insertAfter_eq_exchange h rfl
  | forward load value => exact t.remove_replace_eq_exchange load value
  | _ => exact t.remove_eq_exchange _

end Rewrite

/-! ## What the analysis relies on -/

/-- The slot and the value of a store or an atomic operation. -/
def Kind.assignment? : Kind → Option (StmtId × StmtId)
  | .store slot value | .atomic _ slot value => some (slot, value)
  | _ => none

/-- What is stored in a slot or combined with it has the type of the slot. -/
def Tree.Typed (t : Tree) : Prop :=
  ∀ p ∈ t.preorder, ∀ a ∈ p.2.kind.assignment?, ∀ u ∈ t.preorder, ∀ v ∈ t.preorder,
    u.1 = a.1 → v.1 = a.2 → u.2.type? = v.2.type?

instance (t : Tree) : Decidable t.Typed :=
  inferInstanceAs (Decidable (∀ p ∈ t.preorder, ∀ a ∈ p.2.kind.assignment?, ∀ u ∈ t.preorder,
    ∀ v ∈ t.preorder, u.1 = a.1 → v.1 = a.2 → u.2.type? = v.2.type?))

/-- Only slots are read and written, but for the counters of loops. -/
theorem Site.Fits.isSlot_of_accessed {isSlot : StmtId → Bool} {p : Site} (h : p.Fits isSlot)
    {s : StmtId} (hs : s ∈ p.stmt.kind.slotsRead ∨
      s ∈ p.stmt.kind.written ∧ s ∉ p.stmt.kind.counters) : isSlot s = true := by
  cases hk : p.stmt.kind with
  | load lanes =>
    obtain ⟨lane, hl, rfl⟩ : ∃ lane ∈ lanes, lane.slot = s := by
      simpa [hk, Kind.slotsRead, Kind.written, Kind.counters] using hs
    exact h.isSlot_of_load hk hl
  | store slot value =>
    obtain rfl : s = slot := by simpa [hk, Kind.slotsRead, Kind.written, Kind.counters] using hs
    exact (h.isSlot_of_store hk).1
  | atomic op slot value =>
    obtain rfl : s = slot := by simpa [hk, Kind.slotsRead, Kind.written, Kind.counters] using hs
    exact (h.isSlot_of_atomic hk).1
  | _ => simp [hk, Kind.slotsRead, Kind.written, Kind.counters] at hs

section Values

variable {I : Interpretation V} {id slot : StmtId} {stmt : Stmt} {m : Memory V}

@[simp] theorem length_firstLanes (n : Nat) (f : Nat → V) : (firstLanes n f).length = n := by
  simp [firstLanes]

/-- A value has the lanes of its type. -/
theorem Interpretation.length_value_exec (hv : stmt.kind.hasValue = true)
    (ha : stmt.kind.isAlloca = false) : ((I.exec id stmt m).value id).length = stmt.width := by
  unfold exec
  cases hk : stmt.kind <;> simp_all [Kind.hasValue, Kind.isAlloca]

/-- A load of a whole slot finds what the slot holds. -/
theorem Interpretation.value_exec_of_regular (hk : stmt.kind.isRegularLoadOf slot = true)
    (hs : stmt.Sized) (hlen : (m.contents slot).length = stmt.width) :
    (I.exec id stmt m).value id = m.contents slot := by
  cases hl : stmt.kind with
  | load lanes =>
    have hlanes : lanes = (List.range lanes.length).map (⟨slot, ·⟩) := by
      simpa [hl, Kind.isRegularLoadOf] using hk
    have hwidth : lanes.length = stmt.width := by
      have := hs.2
      rwa [hl] at this
    simp only [exec, hl, Memory.value_bind, if_true]
    refine List.ext_getElem (by simp [hlen]) fun i hi _ => ?_
    rw [length_firstLanes] at hi
    have hlane : lanes[i]? = some ⟨slot, i⟩ := by
      rw [hlanes]
      simp [hwidth, hi]
    have hcell : i < (m.contents slot).length := by omega
    simp [firstLanes, hlane, element, hcell]
  | _ => simp [hl, Kind.isRegularLoadOf] at hk

end Values

section Runs

variable {I : Interpretation V} {budget : Nat} {t : Tree}

/-- A statement has left something in a slot only if it writes or declares it. -/
theorem Tree.written_of_writer (hn : t.ids.Nodup) {s : StmtId} {stmt : Stmt}
    (hm : (s, stmt) ∈ t.preorder) {r : StmtId} {u : Stmt} {n : Memory V}
    (ho : .reached r u n ∈ (t.run I budget .empty).observations) {a : StmtId} {cell : Cell V}
    (hc : n.cell? a = some cell) (hw : cell.writer = s) :
    a ∈ stmt.kind.written ∨ a = s ∧ stmt.kind = .alloca := by
  refine (writers_run I budget (W := fun a w => w = s → a ∈ stmt.kind.written ∨
    a = s ∧ stmt.kind = .alloca) ?_ ?_ ?_).2 r u n ho a cell hc hw
  · rintro p hp a ha rfl
    obtain rfl := stmt_unique hn hp hm
    exact .inl ha
  · rintro p hp ha rfl
    obtain rfl := stmt_unique hn hp hm
    exact .inr ⟨rfl, ha⟩
  · intro a cell hc
    cases hc

/-- Where the value of a load is used, it is what the slot held when the load executed, if
the value that it held has not been lost : a value is only seen where it is the latest. -/
theorem Tree.value_eq_of_visible (hn : t.ids.Nodup) {p : Site} (hp : p ∈ t.sites [])
    {slot v : StmtId}
    (hk : p.stmt.kind.isRegularLoadOf slot = true) (hs : p.stmt.Sized) (hv : v ∈ p.scope) {u : Stmt}
    (hu : (v, u) ∈ t.preorder) (halloca : u.kind.isAlloca = false) (hwidth : u.width = p.stmt.width)
    (hheld : ∀ u n, .reached p.id u n ∈ (t.run I budget .empty).observations →
      n.contents slot = n.value v) {q : StmtId} {w : Stmt} {n : Memory V}
    (ho : .reached q w n ∈ (t.run I budget .empty).observations) :
    ∃ scope, ⟨q, w, scope⟩ ∈ t.sites [] ∧ (p.id ∈ scope → n.value p.id = n.value v) := by
  -- the values that are visible have the lanes of their types
  have hkept := Tree.run_scoped (I := I) (t := t) (G := fun o => ∀ u n, o = .reached p.id u n →
      n.contents slot = n.value v)
    (P := fun scope n => (∀ x ∈ scope, ∀ w, (x, w) ∈ t.preorder → w.kind.isAlloca = false →
      (n.value x).length = w.width) ∧ (p.id ∈ scope → n.value p.id = n.value v)) []
    (fun hsub h => ⟨fun x hx => h.1 x (hsub hx), fun hx => h.2 (hsub hx)⟩) ?_
    (fun _ _ _ _ _ _ h => h) budget .empty (by simp) fun o ho u n heq => hheld u n (heq ▸ ho)
  · obtain ⟨scope, hsite, -, hvalue⟩ := hkept.2.2 _ ho q w n rfl
    exact ⟨scope, hsite, hvalue⟩
  · rintro q hq n ⟨hlanes, hvalue⟩ hG
    have hself := not_mem_scope_of_mem_sites hn (by simp) hq
    have hfresh : ∀ x ∈ q.scope, (I.exec q.id q.stmt n).value x = n.value x := fun x hx =>
      value_exec I fun heq => hself (heq ▸ hx)
    refine ⟨fun x hx w hw ha => ?_, fun hx => ?_⟩
    · rcases mem_scopeAfter.1 hx with hx | ⟨rfl, hhas⟩
      · rw [hfresh x hx]
        exact hlanes x hx w hw ha
      · obtain rfl := stmt_unique hn hw (mem_preorder_of_mem_sites hq)
        exact Interpretation.length_value_exec hhas ha
    · rcases mem_scopeAfter.1 hx with hx | ⟨heq, -⟩
      · have hvq : v ∈ q.scope := mem_scope_of_visible (by simp)
          (fun r hr hid => by rwa [site_unique hn hr hp hid]) hq hx
        rw [hfresh _ hx, hfresh v hvq, hvalue hx]
      · obtain rfl := site_unique hn hp hq heq
        have hheld := hG _ n rfl
        rw [hfresh v hv, ← hheld]
        refine Interpretation.value_exec_of_regular hk hs ?_
        rw [hheld, hlanes v hv u hu halloca, hwidth]

end Runs

/-! ## Rewrites do not show -/

theorem Kind.assignment?_replace (old new : StmtId) (k : Kind) :
    (k.replace old new).assignment? = k.assignment?.map fun p =>
      (if p.1 = old then new else p.1, if p.2 = old then new else p.2) := by
  cases k <;> rfl

theorem Kind.mem_of_assignment? {k : Kind} {slot value : StmtId}
    (h : k.assignment? = some (slot, value)) : slot ∈ k.operands ∧ value ∈ k.operands ∧
      slot ∈ k.written ∧ k.counters = [] := by
  cases k <;> simp_all [assignment?, operands, written, counters]

theorem Kind.written_subset_operands (k : Kind) : k.written ⊆ k.operands := by
  cases k <;> simp [written, counters, operands]

/-- What an exchange needs in order not to show in the executions of a tree. -/
structure Exchange.Justified (e : Exchange) (t : Tree) : Prop where
  apt : e.Apt t
  type : ∀ stmt, (e.old, stmt) ∈ t.preorder →
    ∀ u, (e.value, u) ∈ t.preorder ∨ e.new? = some (e.value, u) → u.type? = stmt.type?
  undisturbed : ∀ {V : Type} (I : Interpretation V) (budget : Nat) {id stmt n},
    .reached id stmt n ∈ (t.run I budget .empty).observations → e.Undisturbed I id stmt n

namespace Exchange

theorem mem_preorder_exchange {e : Exchange} {t : Tree} {q : StmtId × Stmt}
    (h : q ∈ (t.exchange e).preorder) : e.new? = some q ∨ ∃ p ∈ t.preorder, p.1 ≠ e.old ∧
      q = (p.1, p.2.mapKind (Kind.replace e.old e.value)) := by
  induction t with
  | nil => cases h
  | cons id stmt first second rest ih₁ ih₂ ih₃ =>
    have hrest : q ∈ (rest.exchange e).preorder → e.new? = some q ∨
        ∃ p ∈ (Tree.cons id stmt first second rest).preorder, p.1 ≠ e.old ∧
          q = (p.1, p.2.mapKind (Kind.replace e.old e.value)) := by
      intro h
      obtain h | ⟨p, hp, h⟩ := ih₃ h
      · exact .inl h
      · exact .inr ⟨p, by simp [Tree.preorder, hp], h⟩
    rw [Tree.exchange] at h
    split at h
    · split at h
      · exact hrest h
      · next new newStmt hnew =>
        rcases List.mem_cons.1 h with rfl | h
        · exact .inl hnew
        · exact hrest h
    · next hid =>
      simp only [Tree.preorder, List.mem_cons, List.mem_append] at h
      rcases h with rfl | (h | h) | h
      · exact .inr ⟨(id, stmt), by simp [Tree.preorder], hid, rfl⟩
      · obtain h | ⟨p, hp, h⟩ := ih₁ h
        · exact .inl h
        · exact .inr ⟨p, by simp [Tree.preorder, hp], h⟩
      · obtain h | ⟨p, hp, h⟩ := ih₂ h
        · exact .inl h
        · exact .inr ⟨p, by simp [Tree.preorder, hp], h⟩
      · exact hrest h

/-- What is not taken out stays, with the value in the place of the one that is taken out. -/
theorem mem_preorder_exchange_of_ne {e : Exchange} {t : Tree} (hapt : e.Apt t) (ht : t.Shaped)
    {p : StmtId × Stmt} (hp : p ∈ t.preorder) (hne : p.1 ≠ e.old) :
    (p.1, p.2.mapKind (Kind.replace e.old e.value)) ∈ (t.exchange e).preorder := by
  induction t with
  | nil => cases hp
  | cons id stmt first second rest ih₁ ih₂ ih₃ =>
    obtain ⟨hapt₁, hapt₂, hapt₃⟩ := hapt.of_cons
    have ⟨_, _, h₁, h₂, h₃⟩ := ht
    simp only [Tree.preorder, List.mem_cons, List.mem_append] at hp
    rw [Tree.exchange]
    split
    · next hid =>
      subst hid
      obtain ⟨rfl, rfl⟩ := Tree.eq_nil_of_isAccess ht (hapt.old stmt List.mem_cons_self)
      have hp : p ∈ rest.preorder := by
        rcases hp with rfl | (hp | hp) | hp
        · exact absurd rfl hne
        · cases hp
        · cases hp
        · exact hp
      cases e.new? with
      | none => exact ih₃ hapt₃ h₃ hp
      | some x => simp [Tree.preorder, ih₃ hapt₃ h₃ hp]
    · simp only [Tree.preorder, List.mem_cons, List.mem_append]
      rcases hp with rfl | (hp | hp) | hp
      · exact .inl rfl
      · exact .inr (.inl (.inl (ih₁ hapt₁ h₁ hp)))
      · exact .inr (.inl (.inr (ih₂ hapt₂ h₂ hp)))
      · exact .inr (.inr (ih₃ hapt₃ h₃ hp))

/-- An exchange keeps what is stored to the types of the slots, if the value that comes in has the
type of the one that is taken out. -/
theorem Apt.typed {e : Exchange} {t : Tree} (h : e.Apt t)
    (hvalue : ∀ stmt, (e.old, stmt) ∈ t.preorder →
      ∀ u, (e.value, u) ∈ t.preorder ∨ e.new? = some (e.value, u) → u.type? = stmt.type?)
    (hdefined : ∀ p ∈ t.preorder, ∀ v ∈ p.2.kind.operands, ∃ u, (v, u) ∈ t.preorder)
    (ht : t.Typed) : (t.exchange e).Typed := by
  have htype : ∀ {s u}, (s, u) ∈ (t.exchange e).preorder →
      e.new? = some (s, u) ∨ ∃ u₀, (s, u₀) ∈ t.preorder ∧ s ≠ e.old ∧ u.type? = u₀.type? := by
    intro s u hu
    rcases mem_preorder_exchange hu with hnew | ⟨⟨s', u₀⟩, hu₀, hs, heq⟩
    · exact .inl hnew
    · obtain ⟨rfl, rfl⟩ := Prod.mk.inj heq
      exact .inr ⟨u₀, hu₀, hs, rfl⟩
  rintro q hq ⟨a, v⟩ hk ⟨_, u⟩ hu ⟨_, w⟩ hw rfl rfl
  rcases mem_preorder_exchange hq with hnew | ⟨p, hp, -, rfl⟩
  · obtain ⟨cs, hc⟩ := (h.new _ _ hnew).2.1
    simp [hc, Kind.assignment?] at hk
  · -- the slot and the value before the rewrite
    simp only [Stmt.mapKind, Kind.assignment?_replace, Option.mem_def, Option.map_eq_some_iff] at hk
    obtain ⟨⟨a₀, v₀⟩, hk, heq⟩ := hk
    obtain ⟨rfl, rfl⟩ := Prod.mk.inj heq
    obtain ⟨ha₀, hv₀, hwritten, hcounters⟩ := Kind.mem_of_assignment? hk
    have hfresh : ∀ {s u}, s ∈ p.2.kind.operands → e.new? ≠ some (s, u) := fun hs hnew =>
      ((h.new _ _ hnew).2.2 p hp).2 hs
    have hold : a₀ ≠ e.old := by
      rintro rfl
      have := (h.slots p hp).2 hwritten
      simp [hcounters] at this
    rw [if_neg hold] at hu
    obtain ⟨u₀, hu₀, -, hu⟩ := (htype hu).resolve_left (hfresh ha₀)
    rw [hu]
    split at hw
    · next heq =>
      subst heq
      obtain ⟨w₀, hw₀⟩ := hdefined p hp _ hv₀
      have heq := ht p hp _ hk _ hu₀ _ hw₀ rfl rfl
      dsimp only at heq ⊢
      rw [heq]
      rcases htype hw with hnew | ⟨w', hw', -, hw⟩
      · exact (hvalue w₀ hw₀ w (.inr hnew)).symm
      · rw [hw, hvalue w₀ hw₀ w' (.inl hw')]
    · obtain ⟨w', hw', -, hw⟩ := (htype hw).resolve_left (hfresh hv₀)
      rw [hw]
      exact ht p hp _ hk _ hu₀ _ hw' rfl rfl

namespace Justified

variable {e : Exchange} {t : Tree} (h : e.Justified t)
include h

/-- The rewritten tree ends like the one that it was made from, and prints the same. -/
theorem run (I : Interpretation V) (budget : Nat) :
    ((t.exchange e).run I budget .empty).signal = (t.run I budget .empty).signal ∧
      ((t.exchange e).run I budget .empty).prints = (t.run I budget .empty).prints := by
  obtain ⟨hs, hp, -⟩ := Tree.run_exchange h.apt (fun _ hp => hp) budget _ _ (.empty : e.Matches _ _)
    fun o ho id stmt n heq => h.undisturbed I budget (heq ▸ ho)
  exact ⟨hs, hp⟩

end Justified

end Exchange

namespace Context.Kept

variable {c : Context} {root : BlockId} {strict : Bool} (h : c.Kept strict root)
include h

theorem isSlot_of_accessed {p : StmtId × Stmt} (hp : p ∈ (c.tree root).preorder) {s : StmtId}
    (hs : s ∈ p.2.kind.slotsRead ∨ s ∈ p.2.kind.written ∧ s ∉ p.2.kind.counters) :
    c.isSlot s = true := by
  obtain ⟨q, hq, -, hqs⟩ := Tree.exists_site_of_mem_preorder hp []
  exact (h.valid.fits q hq).isSlot_of_accessed (by rwa [hqs])

/-- An access can be taken out if nothing takes its value. -/
theorem apt_remove {s : StmtId} {stmt : Stmt} (hm : (s, stmt) ∈ (c.tree root).preorder)
    (ha : stmt.kind.isAccess = true)
    (hfree : ∀ p ∈ (c.tree root).preorder, s ∉ p.2.kind.operands) :
    Exchange.Apt ⟨s, none, s⟩ (c.tree root) where
  old u hu := by rwa [Tree.stmt_unique h.nodup hu hm]
  slots p hp := ⟨fun hs => hfree p hp (p.2.kind.slotsRead_subset_operands hs),
    fun hs => absurd (p.2.kind.written_subset_operands hs) (hfree p hp)⟩
  declared hne := absurd rfl hne
  new := by simp
  value p hp hs := absurd hs (hfree p hp)

/-- A load can be replaced by a value that is no slot, which may be a new constant. -/
theorem apt_load {load value : StmtId} {stmt : Stmt} (hm : (load, stmt) ∈ (c.tree root).preorder)
    {lanes : List SlotLane} (hk : stmt.kind = .load lanes) (hne : value ≠ load)
    (hslot : c.isSlot value = false) {new? : Option (StmtId × Stmt)}
    (hnew : ∀ new newStmt, new? = some (new, newStmt) → new = value ∧
      (∃ cs, newStmt.kind = .const cs) ∧ new ∉ (c.tree root).ids) :
    Exchange.Apt ⟨load, new?, value⟩ (c.tree root) := by
  have hisSlot : ∀ {s u}, (s, u) ∈ (c.tree root).preorder → c.isSlot s = u.kind.isAlloca :=
    fun hu => isSlot_of_stmt? (stmt?_of_mem_treeAt hu)
  have hload : c.isSlot load = false := by
    rw [hisSlot hm, hk]
    rfl
  refine ⟨fun u hu => ?_, fun p hp => ?_, fun _ p hp hkind => ⟨?_, ?_⟩, fun new newStmt hn => ?_,
    fun _ _ _ => hne⟩
  · rw [Tree.stmt_unique h.nodup hu hm, hk]
    rfl
  · have haccessed := fun hs => hload.symm.trans (h.isSlot_of_accessed hp hs)
    refine ⟨fun hr => by simpa using haccessed (.inl hr), fun hw => ?_⟩
    by_contra hcounter
    simpa using haccessed (.inr ⟨hw, hcounter⟩)
  · rintro rfl
    simp [hisSlot hp, hkind, Kind.isAlloca] at hload
  · rintro rfl
    simp [hisSlot hp, hkind, Kind.isAlloca] at hslot
  · obtain ⟨rfl, hcs, hfresh⟩ := hnew new newStmt hn
    refine ⟨rfl, hcs, fun p hp => ⟨?_, fun hop => ?_⟩⟩
    · rintro rfl
      exact hfresh (Tree.mem_ids_of_mem_preorder hp)
    · obtain ⟨u, hu, -⟩ := h.exists_of_mem_operands hp hop
      exact hfresh (Tree.mem_ids_of_mem_preorder hu)

/-- A rewrite that is allowed is an exchange that the tree is fit for. -/
theorem apt {slot : Slot} {rewrite : Rewrite} (ha : c.Allows (c.tree root) slot rewrite)
    (block? : Option BlockId) :
    (rewrite.exchange slot.id ⟨c.stmts.size⟩ block?).Apt (c.tree root) := by
  cases ha with
  | zeroFold hm ha =>
    obtain ⟨lanes, hkind, -⟩ := Slot.action_eq_load ha
    refine h.apt_load hm hkind ?_ (by simp [isSlot, stmt?]) fun new newStmt hn => ?_
    · rintro rfl
      exact fresh_not_mem_ids (Tree.mem_ids_of_mem_preorder hm)
    · obtain ⟨rfl, rfl⟩ := Prod.mk.inj (Option.some.inj hn)
      exact ⟨rfl, ⟨_, rfl⟩, fresh_not_mem_ids⟩
  | forward hp ha hregular hvisible hslot =>
    obtain ⟨lanes, hkind, -⟩ := Slot.action_eq_load ha
    refine h.apt_load (Tree.mem_preorder_of_mem_sites hp) hkind ?_ hslot (by simp)
    rintro rfl
    exact Tree.not_mem_scope_of_mem_sites h.nodup (by simp) hp hvisible
  | deadStore hm ha =>
    have hkind := Slot.action_eq_store ha
    exact h.apt_remove hm (by rw [hkind]; rfl) (h.not_mem_operands hm (by rw [hkind]; rfl))
  | deadAtomic hm ha hfree =>
    obtain ⟨op, v, hkind⟩ := Slot.action_eq_atomic ha
    exact h.apt_remove hm (by rw [hkind]; rfl) hfree
  | deadAlloca hm hkind hfree =>
    have haccess := congrArg Kind.isAccess hkind
    exact h.apt_remove hm haccess ((h.chain_eq_nil_iff hm haccess).1 hfree)

end Context.Kept

namespace Context.Sound

variable {c : Context} {root : BlockId} (h : c.Sound root)
include h

/-- A statement can be taken out if no value of it is used, and what it writes is not read. -/
theorem justified_remove {s : StmtId} {stmt : Stmt} (hm : (s, stmt) ∈ (c.tree root).preorder)
    (ha : stmt.kind.isAccess = true) (hfree : ∀ p ∈ (c.tree root).preorder, s ∉ p.2.kind.operands)
    (hunread : ∀ a ∈ stmt.kind.written, ∀ {V : Type} (I : Interpretation V) (budget : Nat) {id u n},
      .reached id u n ∈ ((c.tree root).run I budget .empty).observations → a ∈ u.kind.slotsRead →
      ∀ cell, n.cell? a = some cell → cell.writer ≠ s) :
    Exchange.Justified ⟨s, none, s⟩ (c.tree root) where
  apt := h.kept.apt_remove hm ha hfree
  type w hw u hu := by
    rcases hu with hu | hu
    · rw [Tree.stmt_unique h.nodup hu hw]
    · cases hu
  undisturbed I budget id u n ho := by
    have hp := Tree.mem_preorder_of_reached I budget ho
    refine ⟨fun hne a hr cell hc hw => ?_, fun _ hs => absurd hs (hfree _ hp), by simp⟩
    rcases Tree.written_of_writer h.nodup hm ho hc hw with hwritten | ⟨rfl, -⟩
    · exact hunread a hwritten I budget ho hr cell hc hw
    · exact hfree _ hp (u.kind.slotsRead_subset_operands hr)

/-- A load can be replaced by a value that is no slot, where this is its value. -/
theorem justified_load {load value : StmtId} {stmt : Stmt}
    (hm : (load, stmt) ∈ (c.tree root).preorder) {lanes : List SlotLane}
    (hk : stmt.kind = .load lanes) (hne : value ≠ load) (hslot : c.isSlot value = false)
    {new? : Option (StmtId × Stmt)}
    (hnew : ∀ new newStmt, new? = some (new, newStmt) → new = value ∧
      (∃ cs, newStmt.kind = .const cs) ∧ new ∉ (c.tree root).ids)
    (htype : ∀ u, (value, u) ∈ (c.tree root).preorder ∨ new? = some (value, u) →
      u.type? = stmt.type?)
    (hvalue : ∀ {V : Type} (I : Interpretation V) (budget : Nat) {id u n},
      .reached id u n ∈ ((c.tree root).run I budget .empty).observations → new? = none →
      load ∈ u.kind.operands → n.value load = n.value value)
    (hconst : ∀ {V : Type} (I : Interpretation V) (budget : Nat) {n},
      .reached load stmt n ∈ ((c.tree root).run I budget .empty).observations →
      ∀ new newStmt, new? = some (new, newStmt) → ∀ m' : Memory V,
        (I.exec new newStmt m').value new = (I.exec load stmt n).value load) :
    Exchange.Justified ⟨load, new?, value⟩ (c.tree root) := by
  refine ⟨h.kept.apt_load hm hk hne hslot hnew, fun w hw u hu => ?_, fun I budget id u n ho =>
    ⟨fun _ a _ cell hc hw => ?_, hvalue I budget ho, ?_⟩⟩
  · rw [Tree.stmt_unique h.nodup hw hm]
    exact htype u hu
  · rcases Tree.written_of_writer h.nodup hm ho hc hw with hwritten | ⟨-, hkind⟩
    · simp [hk, Kind.written, Kind.counters] at hwritten
    · simp [hk] at hkind
  · rintro rfl new newStmt hn m'
    obtain rfl := Tree.stmt_unique h.nodup (Tree.mem_preorder_of_reached I budget ho) hm
    exact hconst I budget ho new newStmt hn m'

variable {slot : Slot} {rewrite : Rewrite} (hslot : slot ∈ (c.tree root).slots)
include hslot

/-- The rewrite of a load that the walk behind a slot meets. -/
theorem justified_asked (htyped : (c.tree root).Typed) {x : Slot.Point}
    (hwalk : slot.Walks (c.tree root) x) (hasks : slot.Asks rewrite x) (block? : Option BlockId) :
    (rewrite.exchange slot.id ⟨c.stmts.size⟩ block?).Justified (c.tree root) := by
  have hshaped := shaped_tree c root
  have hpoint := hwalk.inv hshaped h.nodup h.valid.fits hslot
  obtain ⟨stmt', scope', hsite, hkind', htype', -⟩ := h.kept.exists_site_of_mem_slots hslot
  obtain ⟨t, scope, st⟩ := x
  obtain ⟨load, u, first, second, rest, rfl, hload, hrewrite⟩ := hasks
  obtain ⟨lanes, hk, -⟩ := Slot.action_eq_load hload
  have hm := hpoint.mem_preorder
  have hshows : ∀ {V : Type} (I : Interpretation V) (budget : Nat) {w n},
      .reached load w n ∈ ((c.tree root).run I budget .empty).observations →
      slot.Shows I st.load n := fun I budget _ _ ho =>
    (Slot.shows_of_reached hshaped h.nodup h.valid.fits hslot hwalk ho).of_sameStores (.load st)
  obtain ⟨type, htype, hwhole, hregular, ⟨hzero, rfl⟩ | ⟨-, v, hv, rfl⟩⟩ :=
    Slot.scanLoad_eq_rewrite hrewrite
  · have hfresh : ⟨c.stmts.size⟩ ∉ (c.tree root).ids := fresh_not_mem_ids
    have hne : (⟨c.stmts.size⟩ : StmtId) ≠ load := by
      rintro rfl
      exact hfresh (Tree.mem_ids_of_mem_preorder hm)
    refine h.justified_load hm hk hne (by simp [isSlot, stmt?]) (fun new newStmt hnew => ?_)
      (fun w hw => ?_) (fun _ _ _ _ _ _ hnew => by cases hnew)
        fun I budget n ho new newStmt hnew m' => ?_
    · obtain ⟨rfl, rfl⟩ := Prod.mk.inj (Option.some.inj hnew)
      exact ⟨rfl, ⟨_, rfl⟩, hfresh⟩
    · rcases hw with hw | hw
      · exact absurd (Tree.mem_ids_of_mem_preorder hw) hfresh
      · obtain ⟨-, rfl⟩ := Prod.mk.inj (Option.some.inj hw)
        exact htype.symm
    · obtain ⟨rfl, rfl⟩ := Prod.mk.inj (Option.some.inj hnew)
      have hcontents := (hshows I budget ho).zero hzero
      rw [hwhole, Interpretation.zeros] at hcontents
      rw [Interpretation.value_exec_of_regular hregular (h.sized _ hm)
        (by simp [hcontents, Stmt.width, htype]), hcontents]
      simp only [Interpretation.exec, ValueType.zeros, Memory.value_bind, if_true, Stmt.width]
      refine List.ext_getElem (by simp) fun i hi _ => ?_
      rw [length_firstLanes] at hi
      simp [firstLanes, I.const_zero type i hi]
  · obtain ⟨s, w, su, -, hw, hmem, hsu, hstore⟩ : ∃ s w su, st.load.lastStore? = some s ∧
        st.load.lastValue? = some w ∧ w ∈ scope ∧ (s, su) ∈ (c.tree root).preorder ∧
          slot.action su.kind = .store w := by
      refine (hpoint.tracks.of_sameStores (.load st)).holds ?_
      by_contra hholds
      simp [SlotState.forwardable?, hholds] at hv
    obtain rfl : w = v := by
      unfold SlotState.forwardable? at hv
      split at hv
      · exact Option.some.inj (hw.symm.trans hv)
      · cases hv
    have hkstore := Slot.action_eq_store hstore
    obtain ⟨q, hq, -, rfl⟩ := Tree.exists_site_of_mem_preorder hsu []
    have hvalue := ((h.valid.fits q hq).isSlot_of_store hkstore).2
    have hne : w ≠ load := by
      rintro rfl
      exact Tree.not_mem_scope_of_mem_sites h.nodup (by simp) hpoint.site hmem
    obtain ⟨uw, huw, -⟩ := h.exists_of_mem_operands hsu (v := w) (by simp [hkstore, Kind.operands])
    have huwtype : uw.type? = u.type? := by
      have heq := htyped _ hsu (slot.id, w) (by simp [hkstore, Kind.assignment?]) _
        (Tree.mem_preorder_of_mem_sites hsite) _ huw rfl rfl
      rw [← heq, ← htype', hwhole, htype]
    have halloca : uw.kind.isAlloca = false := by
      rwa [isSlot_of_stmt? (stmt?_of_mem_treeAt huw)] at hvalue
    refine h.justified_load hm hk hne hvalue (by simp) (fun u' hu' => ?_)
      (fun I budget id u' n ho _ hop => ?_) (by simp)
    · rcases hu' with hu' | hu'
      · rw [Tree.stmt_unique h.nodup hu' huw, huwtype]
      · cases hu'
    · obtain ⟨scope', hsite', hloaded⟩ := Tree.value_eq_of_visible h.nodup hpoint.site hregular
        (h.sized _ hm) hmem huw halloca (by simp [Stmt.width, huwtype])
        (fun u'' n' ho' => (hshows I budget ho').holds w hv) ho
      exact hloaded ((h.valid.fits _ hsite').mem_scope hop)

/-- Whatever the analysis of a slot asks for does not show, except where it removes a store
that a join has forgotten a reading of. -/
theorem justified (htyped : (c.tree root).Typed)
    (ha : slot.analyze (c.tree root) (c.chain slot.id ≠ []) = .error (.rewrite rewrite))
    (hf : ∀ s, rewrite = .deadStore s → ∀ x, slot.Walks (c.tree root) x → ¬slot.Forgets s x)
    (block? : Option BlockId) :
    (rewrite.exchange slot.id ⟨c.stmts.size⟩ block?).Justified (c.tree root) := by
  have hshaped := shaped_tree c root
  obtain ⟨stmt, scope, hsite, hkind, -, hstart⟩ := h.kept.exists_site_of_mem_slots hslot
  rcases Slot.analyze_eq_rewrite ha (slot.id :: scope) with ⟨x, hreach, hasks⟩ | ⟨st, hscan, hleft⟩
  · exact h.justified_asked hslot htyped ⟨_, hsite, rfl, hreach⟩ hasks block?
  · have hallows := h.allows hslot ha
    -- the walk takes what the store or the atomic operation wrote for unread
    have hunread : ∀ {w s}, st.unread? w = some s →
        (w = .store → ∀ x, slot.Walks (c.tree root) x → ¬slot.Forgets s x) →
        ∀ a ∈ [slot.id], ∀ {V : Type} (I : Interpretation V) (budget : Nat) {id u n},
          .reached id u n ∈ ((c.tree root).run I budget .empty).observations →
          a ∈ u.kind.slotsRead → ∀ cell, n.cell? a = some cell → cell.writer ≠ s := by
      intro w s hu hf a ha V I budget id u n ho hr
      obtain rfl := List.mem_singleton.1 ha
      exact Slot.unread_of_scan h.valid.fits hshaped h.nodup hslot hf hscan hu id u n ho hr
    rcases leftover?_eq_some hleft with ⟨s, rfl, hs, hread⟩ | ⟨s, rfl, hs, hread, -⟩ | ⟨rfl, -⟩
    · cases hallows with
      | deadStore hm hstore =>
        have hk := Slot.action_eq_store hstore
        refine h.justified_remove hm (by rw [hk]; rfl)
          (h.not_mem_operands hm (by rw [hk]; rfl)) ?_
        rw [hk]
        exact hunread (w := .store) (by simp [SlotState.unread?, hs, hread]) fun _ => hf s rfl
    · cases hallows with
      | deadAtomic hm hatomic hfree =>
        obtain ⟨op, v, hk⟩ := Slot.action_eq_atomic hatomic
        refine h.justified_remove hm (by rw [hk]; rfl) hfree ?_
        rw [hk]
        exact hunread (w := .atomic) (by simp [SlotState.unread?, hs, hread]) (by simp)
    · cases hallows with
      | deadAlloca hm hk hchain =>
        refine h.justified_remove hm (by rw [hk]; rfl)
          ((h.valid.chain_eq_nil_iff (Tree.mem_ids_of_mem_preorder hm)).1 hchain) ?_
        simp [hk, Kind.written, Kind.counters]

end Context.Sound
end KernelIR
