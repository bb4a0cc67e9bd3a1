import KernelIR.Proofs.Slot.Renaming
import KernelIR.Proofs.Types

/-!
# What the optimizer changes

Any number of rewrites comes to one `Change` of the tree that they started from : some loads,
stores, atomic operations and slots are gone, constants have come in the place of some of the
loads, and operands that named a load that is gone name what stands for it (`Tree.change`). An
exchange after a change is a change (`Tree.exchange_change`), so this is what every step adds to
(`Work.Makes.records`).

A change is lawful (`Change.Lawful`) if constants are new and have the zeros of the type of their
load, and a load that is gone without one stands for what was stored in its slot. The counts of
the optimizer are those of what its change has taken out and put in (`Change.Accounts`).
-/

namespace KernelIR

namespace Rewrite

variable {rewrite : Rewrite} {k : Kind}

theorem takes_rename (f : StmtId → StmtId) : rewrite.takes (k.rename f) = rewrite.takes k := by
  cases rewrite <;> simp [takes]

theorem isAccess_of_takes (h : rewrite.takes k = true) : k.isAccess = true := by
  cases rewrite <;> cases k <;> first | rfl | cases h

end Rewrite

namespace Stats

variable {s : Stats} {rewrite : Rewrite} {k : Kind}

theorem zeroFoldedLoads_record (rewrite : Rewrite) (slot fresh : StmtId) (block? : Option BlockId) :
    (s.record rewrite).zeroFoldedLoads =
      s.zeroFoldedLoads + if (rewrite.exchange slot fresh block?).new?.isSome then 1 else 0 := by
  cases rewrite <;> rfl

variable (h : rewrite.takes k = true)
include h

theorem removedStores_record :
    (s.record rewrite).removedStores = s.removedStores + if k.isStore then 1 else 0 := by
  cases rewrite <;> cases k <;> cases h <;> rfl

theorem removedAtomics_record :
    (s.record rewrite).removedAtomics = s.removedAtomics + if k.isAtomic then 1 else 0 := by
  cases rewrite <;> cases k <;> cases h <;> rfl

theorem removedAllocas_record :
    (s.record rewrite).removedAllocas = s.removedAllocas + if k.isAlloca then 1 else 0 := by
  cases rewrite <;> cases k <;> cases h <;> rfl

theorem loads_record : (s.record rewrite).zeroFoldedLoads + (s.record rewrite).forwardedLoads =
    s.zeroFoldedLoads + s.forwardedLoads + if k.isLoad then 1 else 0 := by
  cases rewrite <;> cases k <;> cases h <;> first | rfl | exact Nat.add_right_comm _ _ _

end Stats

/-! ## Changes -/

/-- What has become of the statements of a tree : those that are gone, the constants that have
come in their place, and the values that stand for theirs. -/
structure Change where
  gone : StmtId → Bool
  zero? : StmtId → Option (StmtId × Stmt)
  value : StmtId → StmtId

/-- Makes a change. Statements that stay keep their numbers, their place and all but the names
of their operands. -/
def Tree.change (d : Change) : Tree → Tree
  | nil => nil
  | cons id stmt first second rest =>
    if d.gone id then
      match d.zero? id with
      | none => rest.change d
      | some (zero, zeroStmt) => cons zero zeroStmt nil nil (rest.change d)
    else
      cons id (stmt.mapKind (Kind.rename d.value)) (first.change d) (second.change d)
        (rest.change d)

namespace Change

/-- Nothing has changed. -/
def none : Change :=
  ⟨fun _ => false, fun _ => .none, id⟩

/-- The change that an exchange makes of another one. -/
def exchange (d : Change) (e : Exchange) : Change where
  gone s := d.gone s || decide (s = e.old)
  zero? s := if s = e.old then e.new? else d.zero? s
  value v := if d.value v = e.old then e.value else d.value v

end Change

namespace Tree

variable {d : Change} {e : Exchange}

theorem change_none (t : Tree) : t.change .none = t := by
  induction t with
  | nil => rfl
  | cons id stmt first second rest ih₁ ih₂ ih₃ =>
    rw [change, ih₁, ih₂, ih₃]
    simp [Change.none, Stmt.mapKind]

/-- A statement of a changed tree is a constant in the place of one that is gone, or has
stayed. -/
theorem mem_preorder_change {t : Tree} {p : StmtId × Stmt} (h : p ∈ (t.change d).preorder) :
    (∃ s ∈ t.ids, d.zero? s = some p) ∨
      ∃ stmt, (p.1, stmt) ∈ t.preorder ∧ d.gone p.1 = false ∧
        p.2 = stmt.mapKind (Kind.rename d.value) := by
  induction t with
  | nil => cases h
  | cons id stmt first second rest ih₁ ih₂ ih₃ =>
    rw [change] at h
    simp only [ids_cons, preorder, List.mem_cons, List.mem_append]
    split at h
    · split at h
      · have := ih₃ h
        grind
      · next zero zeroStmt hzero =>
        simp only [preorder, List.nil_append, List.mem_cons] at h
        rcases h with rfl | h
        · exact .inl ⟨id, .inl rfl, hzero⟩
        · have := ih₃ h
          grind
    · next hgone =>
      simp only [preorder, List.mem_cons, List.mem_append] at h
      rcases h with rfl | (h | h) | h
      · exact .inr ⟨stmt, .inl rfl, by simpa using hgone, rfl⟩
      · have := ih₁ h
        grind
      · have := ih₂ h
        grind
      · have := ih₃ h
        grind

/-- An exchange of a statement that has stayed makes a change of a change. -/
theorem exchange_change (hold : d.gone e.old = false)
    (hzero : ∀ s z, d.zero? s = some z → z.1 ≠ e.old ∧ ∃ cs, z.2.kind = .const cs) (t : Tree) :
    (t.change d).exchange e = t.change (d.exchange e) := by
  induction t with
  | nil => rfl
  | cons id stmt first second rest ih₁ ih₂ ih₃ =>
    by_cases hid : id = e.old
    · subst hid
      cases hnew : e.new? <;> simp [change, hold, exchange, Change.exchange, hnew, ih₃]
    · rw [change, change]
      simp only [Change.exchange, hid, decide_false, Bool.or_false, if_false]
      split
      · cases hz : d.zero? id with
        | none => exact ih₃
        | some z =>
          obtain ⟨zero, zeroStmt⟩ := z
          obtain ⟨hne, cs, hk⟩ := hzero id _ hz
          have hsame : zeroStmt.mapKind (Kind.replace e.old e.value) = zeroStmt := by
            obtain ⟨kind, type?, block?⟩ := zeroStmt
            obtain rfl : kind = .const cs := hk
            rfl
          simp only [exchange, if_neg hne, hsame, ih₃]
          rfl
      · simp only [exchange, if_neg hid, ih₁, ih₂, ih₃, Stmt.mapKind, Kind.replace_rename]
        rfl

end Tree

/-! ## Lawful changes -/

namespace Change

/-- What may have become of the tree `t` of the context `c`. -/
structure Lawful (d : Change) (c : Context) (t : Tree) : Prop where
  /-- Only loads, stores, atomic operations and slots are gone. -/
  gone : ∀ s, d.gone s = true → ∃ stmt, (s, stmt) ∈ t.preorder ∧ stmt.kind.isAccess = true
  /-- A new constant with the zeros of its type stands for a load in its block. -/
  zero : ∀ s z, d.zero? s = some z → d.gone s = true ∧ d.value s = z.1 ∧ c.stmt? z.1 = .none ∧
    ∃ stmt type, (s, stmt) ∈ t.preorder ∧ stmt.kind.isLoad = true ∧ stmt.type? = some type ∧
      z.2 = ⟨type.zeros, some type, stmt.block?⟩
  /-- A load that is gone without a constant read a slot in which a value was stored, and
  stands for what has become of this value. -/
  forward : ∀ s stmt, (s, stmt) ∈ t.preorder → stmt.kind.isLoad = true → d.gone s = true →
    d.zero? s = .none → ∃ slot store u value, stmt.kind.isRegularLoadOf slot = true ∧
      (store, u) ∈ t.preorder ∧ u.kind = .store slot value ∧ d.value s = d.value value
  /-- Only loads that are gone are named otherwise. -/
  kept : ∀ v, d.value v ≠ v → d.gone v = true ∧
    ∃ stmt, (v, stmt) ∈ t.preorder ∧ stmt.kind.isLoad = true
  /-- No load that is gone stands for a value. -/
  resolved : ∀ v stmt, (d.value v, stmt) ∈ t.preorder → stmt.kind.isLoad = true →
    d.gone (d.value v) = false

/-- The number of statements that are gone, of the kinds that pass a test. -/
def lost (d : Change) (q : Kind → Bool) (t : Tree) : Nat :=
  t.preorder.countP fun p => d.gone p.1 && q p.2.kind

/-- The number of constants that have come in. -/
def zeros (d : Change) (t : Tree) : Nat :=
  t.preorder.countP fun p => (d.zero? p.1).isSome

/-- The counts of the optimizer are those of the change. -/
structure Accounts (d : Change) (t : Tree) (stats : Stats) : Prop where
  stores : stats.removedStores = d.lost Kind.isStore t
  atomics : stats.removedAtomics = d.lost Kind.isAtomic t
  allocas : stats.removedAllocas = d.lost Kind.isAlloca t
  zeros : stats.zeroFoldedLoads = d.zeros t
  loads : stats.zeroFoldedLoads + stats.forwardedLoads = d.lost Kind.isLoad t

theorem lawful_none (c : Context) (t : Tree) : Change.none.Lawful c t where
  gone _ h := by cases h
  zero _ _ h := by cases h
  forward _ _ _ _ h := by cases h
  kept _ h := absurd rfl h
  resolved _ _ _ _ := rfl

theorem accounts_none (t : Tree) : Change.none.Accounts t .zero := by
  constructor <;> simp [lost, Change.zeros, Change.none, Stats.zero]

/-- A count that changes at one statement only. -/
theorem countP_of_eq {l : List (StmtId × Stmt)} (hn : (l.map Prod.fst).Nodup)
    {f g : StmtId × Stmt → Bool} {p : StmtId × Stmt} (hp : p ∈ l)
    (hsame : ∀ q ∈ l, q.1 ≠ p.1 → g q = f q) (hf : f p = false) :
    l.countP g = l.countP f + if g p then 1 else 0 := by
  induction l with
  | nil => cases hp
  | cons a l ih =>
    obtain ⟨hnot, hn⟩ := List.nodup_cons.1 hn
    have hne : ∀ q ∈ l, q.1 ≠ a.1 := fun q hq heq => hnot (heq ▸ List.mem_map_of_mem hq)
    rw [List.countP_cons, List.countP_cons]
    rcases List.mem_cons.1 hp with rfl | hp
    · have hrest : l.countP g = l.countP f :=
        List.countP_congr fun q hq => by
          rw [hsame q (List.mem_cons_of_mem _ hq) (hne q hq)]
      simp [hrest, hf]
    · have ih := ih hn hp fun q hq => hsame q (List.mem_cons_of_mem a hq)
      rw [ih, hsame a List.mem_cons_self (hne p hp).symm]
      omega

variable {d : Change} {e : Exchange} {c : Context} {t : Tree} {stmt : Stmt}

section Exchange

variable (hn : t.ids.Nodup) (hm : (e.old, stmt) ∈ t.preorder) (hold : d.gone e.old = false)
include hn hm hold

theorem lost_exchange (q : Kind → Bool) :
    (d.exchange e).lost q t = d.lost q t + if q stmt.kind then 1 else 0 := by
  refine (countP_of_eq hn hm (f := fun p => d.gone p.1 && q p.2.kind)
    (fun p _ hp => ?_) ?_).trans ?_
  · simp only [exchange, hp, decide_false, Bool.or_false]
  · simp [hold]
  · simp [exchange, lost]

theorem zeros_exchange (hd : d.Lawful c t) :
    (d.exchange e).zeros t = d.zeros t + if e.new?.isSome then 1 else 0 := by
  have hzero : d.zero? e.old = .none := by
    cases hz : d.zero? e.old with
    | none => rfl
    | some z => simp [(hd.zero _ z hz).1] at hold
  refine (countP_of_eq hn hm (f := fun p => (d.zero? p.1).isSome) (fun p _ hp => ?_) ?_).trans ?_
  · simp only [exchange, if_neg hp]
  · simp [hzero]
  · simp [exchange, zeros]

/-- An exchange adds to the counts what its rewrite does. -/
theorem Accounts.record {stats : Stats} (ha : d.Accounts t stats) (hd : d.Lawful c t)
    {rewrite : Rewrite} (htakes : rewrite.takes stmt.kind = true) {slot fresh : StmtId}
    {block? : Option BlockId} (he : e = rewrite.exchange slot fresh block?) (sweeps : Nat) :
    (d.exchange e).Accounts t ({ stats with sweeps := sweeps }.record rewrite) where
  stores := by rw [Stats.removedStores_record htakes, lost_exchange hn hm hold, ha.stores]
  atomics := by rw [Stats.removedAtomics_record htakes, lost_exchange hn hm hold, ha.atomics]
  allocas := by rw [Stats.removedAllocas_record htakes, lost_exchange hn hm hold, ha.allocas]
  zeros := by
    rw [Stats.zeroFoldedLoads_record rewrite slot fresh block?, ← he,
      zeros_exchange hn hm hold hd, ha.zeros]
  loads := by rw [Stats.loads_record htakes, lost_exchange hn hm hold, ha.loads]

/-- A lawful change stays so, if what is taken out and put in is right. -/
theorem Lawful.exchange (hd : d.Lawful c t) (ha : stmt.kind.isAccess = true)
    (hthere : (c.stmt? e.old).isSome = true)
    (hsame : stmt.kind.isLoad = false → e.value = e.old)
    (hvalue : stmt.kind.isLoad = true → e.value ≠ e.old ∧ d.gone e.value = false)
    (hzero : ∀ z, e.new? = some z → e.value = z.1 ∧ c.stmt? z.1 = .none ∧
      stmt.kind.isLoad = true ∧ ∃ type, stmt.type? = some type ∧
        z.2 = ⟨type.zeros, some type, stmt.block?⟩)
    (hforward : stmt.kind.isLoad = true → e.new? = .none → ∃ slot store u value,
      stmt.kind.isRegularLoadOf slot = true ∧ (store, u) ∈ t.preorder ∧
        u.kind = .store slot value ∧ (d.value value = e.value ∨ d.value value = e.old)) :
    (d.exchange e).Lawful c t := by
  have hself : d.value e.old = e.old := by
    by_contra hne
    simp [(hd.kept e.old hne).1] at hold
  have hvalue_of_eq : ∀ {v}, d.value v = e.old → (d.exchange e).value v = e.value :=
    fun h => if_pos h
  have hvalue_of_ne : ∀ {v}, d.value v ≠ e.old → (d.exchange e).value v = d.value v :=
    fun h => if_neg h
  refine ⟨fun s hs => ?_, fun s z hz => ?_, fun s u hs hload hgone hnone => ?_, fun v hv => ?_,
    fun v u hu hload => ?_⟩
  · rcases Bool.or_eq_true_iff.1 hs with hs | hs
    · exact hd.gone s hs
    · obtain rfl := of_decide_eq_true hs
      exact ⟨stmt, hm, ha⟩
  · by_cases hs : s = e.old
    · subst hs
      obtain ⟨heq, hfresh, hload, type, htype, hz⟩ := hzero z (by simpa [Change.exchange] using hz)
      exact ⟨by simp [Change.exchange], (hvalue_of_eq hself).trans heq, hfresh, stmt, type, hm,
        hload, htype, hz⟩
    · obtain ⟨hgone, heq, hfresh, hrest⟩ := hd.zero s z (by simpa [Change.exchange, hs] using hz)
      have hne : d.value s ≠ e.old := by
        intro hold
        rw [heq] at hold
        simp [← hold, hfresh] at hthere
      exact ⟨by simp [Change.exchange, hgone], (hvalue_of_ne hne).trans heq, hfresh, hrest⟩
  · by_cases heq : s = e.old
    · subst heq
      obtain rfl := Tree.stmt_unique hn hs hm
      obtain ⟨slot, store, w, value, hregular, hstore, hkind, hv⟩ :=
        hforward hload (by simpa [Change.exchange] using hnone)
      refine ⟨slot, store, w, value, hregular, hstore, hkind, (hvalue_of_eq hself).trans ?_⟩
      rcases hv with hv | hv
      · rw [hvalue_of_ne (hv ▸ (hvalue hload).1), hv]
      · rw [hvalue_of_eq hv]
    · obtain ⟨slot, store, w, value, hregular, hstore, hkind, hv⟩ := hd.forward s u hs hload
        (by simpa [Change.exchange, heq] using hgone) (by simpa [Change.exchange, heq] using hnone)
      exact ⟨slot, store, w, value, hregular, hstore, hkind, by simp only [Change.exchange, hv]⟩
  · by_cases heq : d.value v = e.old
    · by_cases hvold : v = e.old
      · subst hvold
        refine ⟨by simp [Change.exchange], stmt, hm, ?_⟩
        by_contra hload
        exact hv ((hvalue_of_eq heq).trans (hsame (by simpa using hload)))
      · obtain ⟨hgone, hstmt⟩ := hd.kept v fun h => hvold (h.symm.trans heq)
        exact ⟨by simp [Change.exchange, hgone], hstmt⟩
    · obtain ⟨hgone, hstmt⟩ := hd.kept v (by rwa [hvalue_of_ne heq] at hv)
      exact ⟨by simp [Change.exchange, hgone], hstmt⟩
  · by_cases heq : d.value v = e.old
    · rw [hvalue_of_eq heq] at hu ⊢
      cases hk : stmt.kind.isLoad with
      | true => simpa [Change.exchange, (hvalue hk).1] using (hvalue hk).2
      | false =>
        rw [hsame hk] at hu
        rw [Tree.stmt_unique hn hu hm, hk] at hload
        cases hload
    · rw [hvalue_of_ne heq] at hu ⊢
      simpa [Change.exchange, heq] using hd.resolved v u hu hload

end Exchange

end Change

/-! ## Steps -/

namespace Work

variable {root : BlockId} {c : Context} {w w' : Work} {d : Change} {strict : Bool}

/-- The change tells what has been done to the tree since the context was `c`. -/
structure Records (root : BlockId) (c : Context) (d : Change) (w : Work) : Prop where
  tree : w.context.tree root = (c.tree root).change d
  lawful : d.Lawful c (c.tree root)
  accounts : d.Accounts (c.tree root) w.progress.stats

/-- A statement that is no constant has stayed. -/
theorem Records.exists_origin (h : Records root c d w) {s : StmtId} {u : Stmt}
    (hm : (s, u) ∈ (w.context.tree root).preorder) (hconst : ∀ cs, u.kind ≠ .const cs) :
    ∃ stmt, (s, stmt) ∈ (c.tree root).preorder ∧ d.gone s = false ∧
      u = stmt.mapKind (Kind.rename d.value) := by
  rw [h.tree] at hm
  rcases Tree.mem_preorder_change hm with ⟨s', -, hz⟩ | horigin
  · obtain ⟨-, -, -, stmt, type, -, -, -, hu⟩ := h.lawful.zero s' _ hz
    exact absurd (congrArg Stmt.kind hu) (hconst _)
  · exact horigin

/-- A slot keeps its name. -/
theorem Records.value_slot (h : Records root c d w) {s : StmtId} (hs : c.isSlot s = true) :
    d.value s = s := by
  by_contra hne
  obtain ⟨-, stmt, hm, hload⟩ := h.lawful.kept s hne
  rw [Context.isSlot_of_stmt? (Context.stmt?_of_mem_treeAt hm)] at hs
  cases hk : stmt.kind <;> simp_all [Kind.isAlloca, Kind.isLoad]

/-- What stands in the tree is not gone. -/
theorem Records.gone_eq_false (h : Records root c d w) {s : StmtId}
    (hs : s ∈ (w.context.tree root).ids) : d.gone s = false := by
  obtain ⟨u, hu⟩ := Tree.mem_ids.1 hs
  rw [h.tree] at hu
  rcases Tree.mem_preorder_change hu with ⟨s', -, hz⟩ | ⟨stmt, -, hgone, -⟩
  · -- a constant was not there at the beginning
    by_contra hgone
    obtain ⟨stmt, hm, -⟩ := h.lawful.gone s (by simpa using hgone)
    simpa [Context.stmt?_of_mem_treeAt hm] using (h.lawful.zero s' _ hz).2.2.1
  · exact hgone

section Makes

variable {slot : Slot} {rewrite : Rewrite} (hd : Records root c d w)
  (h : Makes root w slot rewrite w') (hc : c.Kept strict root) (hw : w.context.Kept strict root)
include hd h hc hw

/-- A load that is forwarded has read a slot, and what was stored there stands for it. -/
theorem Records.exists_stored {load value : StmtId} (hr : rewrite = .forward load value)
    {stmt : Stmt} (hm : (load, stmt) ∈ (c.tree root).preorder) :
    ∃ store u v, stmt.kind.isRegularLoadOf slot.id = true ∧ (store, u) ∈ (c.tree root).preorder ∧
      u.kind = .store slot.id v ∧ d.value v = value := by
  subst hr
  obtain ⟨-, store, su, hs, hstore⟩ := hw.exists_of_forward h.mem_slots h.asked
  obtain ⟨u, hu, -, rfl⟩ := hd.exists_origin hs (by simp [hstore])
  obtain ⟨a, v, hk⟩ : ∃ a v, u.kind = .store a v := by
    cases hk : u.kind <;> simp [hk, Stmt.mapKind, Kind.rename, Kind.mapOperands] at hstore
    exact ⟨_, _, rfl⟩
  obtain ⟨hslot, hv⟩ : d.value a = slot.id ∧ d.value v = value := by
    simpa [hk, Stmt.mapKind, Kind.rename, Kind.mapOperands] using hstore
  -- both statements have named the slot from the beginning
  rw [hd.value_slot (hc.isSlot_of_accessed hu (.inr (by simp [hk, Kind.written, Kind.counters])))]
    at hslot
  subst hslot
  refine ⟨store, u, v, ?_, hu, hk, hv⟩
  cases h.allows with
  | @forward p _ hp _ hregular =>
    obtain ⟨stmt', hm', -, heq⟩ := hd.exists_origin (Tree.mem_preorder_of_mem_sites hp)
      fun cs hk => by
      simp [hk, Kind.isRegularLoadOf] at hregular
    obtain rfl := Tree.stmt_unique hc.nodup hm hm'
    have hslots : ∀ v ∈ stmt.kind.operands, d.value v = v := fun v hv => by
      refine hd.value_slot (hc.isSlot_of_accessed hm (.inl ?_))
      cases hk : stmt.kind <;> simp_all [Stmt.mapKind, Kind.rename, Kind.mapOperands,
        Kind.isRegularLoadOf, Kind.slotsRead, Kind.operands]
    simpa [heq, Stmt.mapKind, Kind.rename_eq_self hslots] using hregular

theorem Makes.lawful (hfresh : c.stmt? ⟨w.context.stmts.size⟩ = none) {stmt : Stmt}
    (hm : (rewrite.old slot.id, stmt) ∈ (c.tree root).preorder)
    (hold : d.gone (rewrite.old slot.id) = false)
    (hu : (rewrite.old slot.id, stmt.mapKind (Kind.rename d.value)) ∈
      (w.context.tree root).preorder) (htakes : rewrite.takes stmt.kind = true) :
    (d.exchange (rewrite.exchange slot.id ⟨w.context.stmts.size⟩
      (w.context.home? (rewrite.old slot.id)))).Lawful c (c.tree root) := by
  have hthere : (c.stmt? (rewrite.old slot.id)).isSome = true := by
    rw [Context.stmt?_of_mem_treeAt hm]
    rfl
  have haccess := Rewrite.isAccess_of_takes htakes
  have hallows := h.allows
  cases rewrite with
  | zeroFold load type =>
    have hload : stmt.kind.isLoad = true := htakes
    have hne : ⟨w.context.stmts.size⟩ ≠ load := by
      rintro rfl
      simp [Rewrite.old, hfresh] at hthere
    refine hd.lawful.exchange hc.nodup hm hold haccess hthere (by simp [hload])
      (fun _ => ⟨hne, ?_⟩) (fun z hz => ?_) (fun _ hnone => by cases hnone)
    · by_contra hgone
      obtain ⟨u, hu, -⟩ := hd.lawful.gone _ (by simpa using hgone)
      simpa [Rewrite.exchange, hfresh] using Context.stmt?_of_mem_treeAt hu
    · obtain rfl := Option.some.inj hz
      refine ⟨rfl, hfresh, hload, type, ?_, ?_⟩
      · cases hallows with
        | zeroFold hm' _ _ htype =>
          rw [← htype, Tree.stmt_unique hw.nodup hm' hu]
          rfl
      · simp [Context.home?, Context.stmt?_of_mem_treeAt hu, Stmt.mapKind]
  | forward load value =>
    have hload : stmt.kind.isLoad = true := htakes
    refine hd.lawful.exchange hc.nodup hm hold haccess hthere (by simp [hload])
      (fun _ => ⟨?_, ?_⟩) (by simp [Rewrite.exchange]) fun _ _ => ?_
    · cases hallows with
      | forward hp _ _ hvisible =>
        intro heq
        exact Tree.not_mem_scope_of_mem_sites hw.nodup (by simp) hp (Eq.subst heq hvisible)
    · cases hallows with
      | forward hp _ _ hvisible =>
        rcases Tree.mem_scope_of_mem_sites hp hvisible with hnil | ⟨v, hv, -⟩
        · cases hnil
        · exact hd.gone_eq_false (Tree.mem_ids_of_mem_preorder hv)
    · obtain ⟨store, v, x, hregular, hstore, hk, hx⟩ := hd.exists_stored h hc hw rfl hm
      exact ⟨_, store, v, x, hregular, hstore, hk, .inl hx⟩
  | _ =>
    have hload : stmt.kind.isLoad = false := by
      cases hk : stmt.kind <;> simp_all [Rewrite.takes, Kind.isLoad, Kind.isStore, Kind.isAtomic,
        Kind.isAlloca]
    exact hd.lawful.exchange hc.nodup hm hold haccess hthere (fun _ => rfl) (by simp [hload])
      (by simp [Rewrite.exchange]) (by simp [hload])

/-- The exchange of a rewrite is recorded. -/
theorem Makes.records (hfresh : c.stmt? ⟨w.context.stmts.size⟩ = none) :
    Records root c (d.exchange (rewrite.exchange slot.id ⟨w.context.stmts.size⟩
      (w.context.home? (rewrite.old slot.id)))) w' := by
  obtain ⟨u, hu, htakes⟩ := h.allows.exists_old
  obtain ⟨stmt, hm, hold, rfl⟩ := hd.exists_origin hu fun cs hk => by
    simpa [hk, Kind.isAccess] using Rewrite.isAccess_of_takes htakes
  rw [Stmt.mapKind, Rewrite.takes_rename] at htakes
  obtain ⟨event, hprogress⟩ := h.progress
  refine ⟨?_, h.lawful hd hc hw hfresh hm hold hu htakes, ?_⟩
  · rw [h.exchange, hd.tree]
    refine Tree.exchange_change (by rwa [Rewrite.old_exchange]) (fun s z hz => ?_) _
    obtain ⟨-, -, hnone, _, type, -, -, -, hz⟩ := hd.lawful.zero s z hz
    refine ⟨?_, _, congrArg Stmt.kind hz⟩
    rintro heq
    rw [heq, Rewrite.old_exchange, Context.stmt?_of_mem_treeAt hm] at hnone
    cases hnone
  · rw [hprogress]
    exact hd.accounts.record hc.nodup (by rwa [Rewrite.old_exchange])
      (by rwa [Rewrite.old_exchange]) hd.lawful htakes rfl _

end Makes

/-- Whatever the optimizer does is recorded. -/
theorem Reaches.records (h : Reaches root (start c) w) (hc : c.Kept strict root) :
    ∃ d, Records root c d w := by
  induction h with
  | refl => exact ⟨.none, (Tree.change_none _).symm, Change.lawful_none _ _, Change.accounts_none _⟩
  | @tail v v' hreach hstep ih =>
    obtain ⟨d, hd⟩ := ih
    have hv := Reaches.kept hreach hc
    obtain ⟨-, slot, rewrite, hmakes⟩ := hstep.makes hv
    refine ⟨_, hmakes.records hd hc hv ?_⟩
    cases hs : c.stmt? ⟨v.context.stmts.size⟩ with
    | none => rfl
    | some stmt =>
      -- a statement that was there at the beginning is still there
      obtain ⟨stmt', hs', -⟩ := Context.exists_stmt?_of_steps (Reaches.steps hreach) hs
      simp [Context.stmt?] at hs'

end Work

/-- The counts at the end are those of the last step. -/
theorem Change.Accounts.of_ends {d : Change} {t : Tree} {root : BlockId} {w : Work}
    (h : d.Accounts t w.progress.stats) {stats : Stats} (hends : w.Ends root (.ok stats)) :
    d.Accounts t stats := by
  cases hends with
  | fixpoint | limit => exact ⟨h.stores, h.atomics, h.allocas, h.zeros, h.loads⟩

/-- Whatever the limit of sweeps is, if the optimizer does not reject a verified kernel, it makes
a lawful change of it, in which nothing is there twice, and counts what it has changed. -/
theorem change_of_optimizeSlots {c : Context} {kernel : Kernel} (h : c.Verified kernel)
    (maxSweeps? : Option Nat) :
    ∃ outcome c', optimizeSlots kernel.body maxSweeps? c = .ok (outcome, c') ∧
      ∀ stats, outcome.result = .ok stats → ∃ d : Change,
        d.Lawful c (c.tree kernel.body) ∧ d.Accounts (c.tree kernel.body) stats ∧
          c'.tree kernel.body = (c.tree kernel.body).change d ∧
          (c'.tree kernel.body).ids.Nodup := by
  obtain ⟨outcome, w, hrun, hreach, hends⟩ := h.kept.optimizeSlots maxSweeps?
  obtain ⟨d, hd⟩ := hreach.records h.kept
  exact ⟨outcome, w.context, hrun, fun stats hstats =>
    ⟨d, hd.lawful, hd.accounts.of_ends (hstats ▸ hends), hd.tree, (hreach.kept h.kept).nodup⟩⟩

namespace ChainKernel

/-- A kernel that stores the load from one slot in another one, and prints what it loads there. -/
def text : List Char :=
  "kernel @k \x7b %a = alloca : i32 %b = alloca : i32 %x = local_load %a : i32 local_store %b, %x
    %y = local_load %b : i32 print %y \x7d".toList

/-- What the text is parsed to. -/
def context : Context where
  stmts := #[⟨.alloca, some ⟨.i32, 1⟩, some ⟨0⟩⟩, ⟨.alloca, some ⟨.i32, 1⟩, some ⟨0⟩⟩,
    ⟨.load [⟨⟨0⟩, 0⟩], some ⟨.i32, 1⟩, some ⟨0⟩⟩, ⟨.store ⟨1⟩ ⟨2⟩, none, some ⟨0⟩⟩,
    ⟨.load [⟨⟨1⟩, 0⟩], some ⟨.i32, 1⟩, some ⟨0⟩⟩, ⟨.print ⟨4⟩, none, some ⟨0⟩⟩]
  blocks := #[⟨[⟨0⟩, ⟨1⟩, ⟨2⟩, ⟨3⟩, ⟨4⟩, ⟨5⟩], none⟩]
  uses := [⟨⟨0⟩, ⟨2⟩, 0⟩, ⟨⟨1⟩, ⟨3⟩, 0⟩, ⟨⟨2⟩, ⟨3⟩, 1⟩, ⟨⟨1⟩, ⟨4⟩, 0⟩, ⟨⟨4⟩, ⟨5⟩, 0⟩]

theorem verified : context.Verified ⟨"k", ⟨0⟩⟩ :=
  have hparse : parseKernel text .empty = .ok (.ok ⟨"k", ⟨0⟩⟩, context) := by decide +kernel
  Parsed.empty.tidy.verified hparse (by decide +kernel)

end ChainKernel

open ChainKernel in
/-- Both loads are gone, one constant has come in, and all that is left prints it. -/
theorem change_of_optimizeSlots_chain : context.Verified ⟨"k", ⟨0⟩⟩ ∧
    ∃ outcome stats c' d, optimizeSlots ⟨0⟩ none context = .ok (outcome, c') ∧
      outcome.result = .ok stats ∧ Change.Lawful d context (context.tree ⟨0⟩) ∧
      c'.tree ⟨0⟩ = (context.tree ⟨0⟩).change d ∧ d.zeros (context.tree ⟨0⟩) = 1 ∧
      d.lost Kind.isLoad (context.tree ⟨0⟩) = 2 ∧ (c'.tree ⟨0⟩).ids = [⟨6⟩, ⟨5⟩] := by
  obtain ⟨outcome, stats, c', hrun, hstats, hzeros, hloads, hids⟩ : ∃ outcome stats c',
      optimizeSlots ⟨0⟩ none context = .ok (outcome, c') ∧ outcome.result = .ok stats ∧
        stats.zeroFoldedLoads = 1 ∧ stats.forwardedLoads = 1 ∧ (c'.tree ⟨0⟩).ids = [⟨6⟩, ⟨5⟩] :=
    ⟨_, _, _, rfl, rfl, rfl, rfl, rfl⟩
  obtain ⟨_, _, hrun', hchange⟩ := change_of_optimizeSlots verified none
  obtain ⟨rfl, rfl⟩ := Prod.mk.inj (Except.ok.inj (hrun.symm.trans hrun'))
  obtain ⟨d, hlawful, haccounts, htree, -⟩ := hchange stats hstats
  exact ⟨verified, outcome, stats, c', d, hrun, hstats, hlawful, htree,
    haccounts.zeros.symm.trans hzeros, by rw [← haccounts.loads, hzeros, hloads], hids⟩

end KernelIR
