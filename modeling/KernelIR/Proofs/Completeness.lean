import KernelIR.Proofs.Finished
import KernelIR.Proofs.Slot.Renaming
import KernelIR.Proofs.Tree.Succession

/-!
# Completeness of folding, forwarding and slot removal

When the optimizer has come to its end, nothing is left that it could do about a slot that is only
read, about a load behind a store in the same block, or about a slot without uses
(`optimizeSlots_complete`).

An analysis shows this of the slot that it has not found a rewrite for
(`Context.Kept.exhausted_of_analyze`). As long as the contents of the slot are known, the walk would
stop at the next load of the whole slot, in loops too: the first walk of a body knows nothing, but
if it meets a load and no write, the body is walked through again with what is known in front of the
loop (`Slot.not_loadsWhole_of_scan`). The rewrites of other slots keep it
(`Slot.Exhausted.exchange`), so it holds of all slots in the end, also of those that were finished
early.
-/

namespace KernelIR

namespace Slot

variable (slot : Slot)

/-- Whether the statement is a store to the slot. -/
def stores (stmt : Stmt) : Bool :=
  match slot.action stmt.kind with
  | .store _ => true
  | _ => false

/-- Whether the statement is a regular load of the slot, with the type of the slot. -/
def loadsWhole (stmt : Stmt) : Bool :=
  slot.reads stmt.kind && stmt.kind.isRegularLoadOf slot.id && stmt.type?.isSome &&
    slot.type? == stmt.type?

/-- Nothing is left to do about the slot in a tree, but to remove what it was written for
nothing. -/
structure Exhausted (t : Tree) : Prop where
  used : ∃ p ∈ t.preorder, slot.id ∈ p.2.kind.operands
  /-- If nothing writes the slot, no load of the whole slot is left. -/
  unwritten : slot.writtenIn t = false → ∀ p ∈ t.preorder, slot.loadsWhole p.2 = false
  /-- No load of the whole slot is left behind a store, with no write to the slot between them. -/
  forwarded : t.leadsTo slot.stores (fun stmt => !slot.writes stmt.kind) slot.loadsWhole = false

end Slot

/-- The contents of the slot are known. -/
def SlotState.Informed (st : SlotState) : Prop :=
  st.readsZero = true ∨ st.storeHolds = true ∧ st.lastValue?.isSome = true

namespace SlotState

variable {st st' : SlotState}

theorem Informed.of_sameStores (h : st.Informed) (hs : SameStores st st') : st'.Informed := by
  simpa only [Informed, readsZero, hs.stored, hs.region, hs.storeHolds, hs.lastValue?] using h

theorem Informed.store (st : SlotState) (s v : StmtId) : (st.store s v).Informed :=
  .inr ⟨rfl, rfl⟩

/-- With known contents in front of it, a body that reads the slot and does not write it is worth a
second walk. -/
theorem Informed.needsRewalk (h : st.Informed) {body : SlotState} (hstored : body.stored = false)
    (hloaded : body.loaded = true) (hregion : st.region ≠ .noStores) :
    st.needsRewalk body false = true := by
  simpa [SlotState.needsRewalk, hstored, hloaded, hregion] using h.imp_right And.left

/-- In a loop that does not write the slot, the contents stay known. -/
theorem Informed.noStores (h : st.Informed) : Informed { st with region := .noStores } := by
  refine h.imp (fun hz => ?_) id
  have hstored := (Bool.and_eq_true_iff.1 hz).1
  simpa [readsZero] using hstored

end SlotState

namespace Slot

variable {slot : Slot} {id : StmtId} {stmt : Stmt} {first second rest t : Tree} {st st' : SlotState}

/-! ## What a walk to the end has shown -/

/-- With known contents, a walk does not go past a load of the whole slot. -/
theorem loadsWhole_eq_false_of_visit (h : slot.visit id stmt first second st = .ok st')
    (hst : st.Informed) : slot.loadsWhole stmt = false := by
  by_contra hload
  simp only [loadsWhole, Bool.not_eq_false, Bool.and_eq_true, beq_iff_eq] at hload
  obtain ⟨⟨⟨hreads, hregular⟩, htype⟩, hsame⟩ := hload
  obtain ⟨type, htype⟩ := Option.isSome_iff_exists.1 htype
  have haction : slot.action stmt.kind = .load := by
    cases hk : stmt.kind with
    | load lanes =>
      simp only [hk, reads, action] at hreads ⊢
      split
      · rfl
      · next hany => simp [hany] at hreads
    | _ => simp [hk, Kind.isRegularLoadOf] at hregular
  have hloaded : st.load.Informed := hst.of_sameStores (.load st)
  rw [visit, haction] at h
  dsimp only [scanLoad] at h
  rw [htype] at hsame h
  simp only [hsame, hregular, ne_eq, not_true_eq_false, Bool.not_true, Bool.false_eq_true,
    or_self, if_false] at h
  split at h
  · cases h
  · next hzero =>
    obtain ⟨hholds, hvalue⟩ := hloaded.resolve_left hzero
    obtain ⟨v, hv⟩ := Option.isSome_iff_exists.1 hvalue
    simp [SlotState.forwardable?, hholds, hv] at h

/-- The body of a loop that is worth a second walk has been walked through twice. -/
theorem exists_scan_of_needsRewalk {m b : Bool} (ha : slot.action stmt.kind = .loop m b)
    (hregion : st.region ≠ .noStores) {bodyEnd : SlotState}
    (hbody : slot.scan first (.start .mayHaveStores) = .ok bodyEnd)
    (hrewalk : st.needsRewalk bodyEnd b = true)
    (h : slot.visit id stmt first second st = .ok st') : ∃ again,
      slot.scan first { st.mergeLoop bodyEnd b with region := .noStores } = .ok again := by
  rw [visit, ha] at h
  cases m with
  | true => cases h
  | false =>
    replace h : slot.scanLoop id b (slot.scan first) st = .ok st' := h
    obtain ⟨bodyEnd', hbody', -, hagain⟩ :=
      ((scanLoop_eq_ok_iff.1 h).2.resolve_left fun h => hregion h.1).2
    obtain rfl := Except.ok.inj (hbody.symm.trans hbody')
    exact hagain hrewalk

theorem loadsWhole_eq_false_of_reads (h : slot.reads stmt.kind = false) :
    slot.loadsWhole stmt = false := by
  simp [loadsWhole, h]

/-- With known contents, a walk through statements that do not write the slot does not go past a
load of the whole slot, in blocks of these statements neither. -/
theorem not_loadsWhole_of_scan (ht : t.Shaped) (hw : slot.writtenIn t = false) (hst : st.Informed)
    (h : slot.scan t st = .ok st') : ∀ p ∈ t.preorder, slot.loadsWhole p.2 = false := by
  induction t generalizing st st' with
  | nil => simp [Tree.preorder]
  | cons id stmt first second rest ih₁ ih₂ ih₃ =>
    obtain ⟨mid, hv, hr⟩ := scan_cons_eq_ok h
    have hnode : slot.writtenIn (.cons id stmt first second .nil) = false := by
      rw [writtenIn_cons] at hw ⊢
      simp_all
    simp only [writtenIn_cons, Bool.or_eq_false_iff] at hw
    have hmid := hst.of_sameStores (scan_sameStores hnode ((scan_single id stmt).trans hv))
    have ih₁ := fun {st st'} => @ih₁ st st' ht.2.2.1 hw.1.1.2
    have ih₂ := fun {st st'} => @ih₂ st st' ht.2.2.2.1 hw.1.2
    have hblocks : (∀ p ∈ first.preorder, slot.loadsWhole p.2 = false) ∧
        ∀ p ∈ second.preorder, slot.loadsWhole p.2 = false := by
      have hleaf := @eq_nil_of_action slot _ _ _ _ _ ht
      have hsecond : (∀ m, slot.action stmt.kind ≠ .branch m) → second = .nil :=
        fun hb => ht.2.1 (secondBlock?_of_action hb)
      cases visited_of_visit hv with
      | branch _ hthen helse => exact ⟨ih₁ hst hthen, ih₂ hst helse⟩
      | inner ha _ hbody =>
        obtain rfl := hsecond (by simp [ha])
        exact ⟨ih₁ hst hbody, by simp [Tree.preorder]⟩
      | @loop binds ha hbinds hregion bodyEnd hbody =>
        obtain rfl := hsecond (by simp [ha])
        obtain ⟨hstored, hloaded⟩ := scan_flags ht.2.2.1 (by simp [SlotState.start]) hbody
        have hstored : bodyEnd.stored = false :=
          hstored.trans (by simpa [SlotState.start] using hw.1.1.2)
        have hloaded : bodyEnd.loaded = slot.readIn first :=
          hloaded.trans (by simp [SlotState.start])
        refine ⟨?_, by simp [Tree.preorder]⟩
        cases hread : slot.readIn first with
        | false =>
          exact fun p hp =>
            loadsWhole_eq_false_of_reads (by simpa using List.any_eq_false.1 hread p hp)
        | true =>
          -- the slot is read in the body, so the body was walked through with the contents known
          obtain rfl : binds = false := by
            cases binds with
            | true => simp [writes, ha] at hw
            | false => rfl
          obtain ⟨again, hagain⟩ := exists_scan_of_needsRewalk ha hregion hbody
            (hst.needsRewalk hstored (hloaded.trans hread) hregion) hv
          exact ih₁ (hst.of_sameStores (.mergeLoop hstored st)).noStores hagain
      | pass ha | store ha | atomic ha | load ha =>
        obtain ⟨rfl, rfl⟩ := hleaf (by simp [ha]) (by simp [ha])
        simp [Tree.preorder]
    intro p hp
    simp only [Tree.preorder, List.mem_cons, List.mem_append] at hp
    rcases hp with rfl | (hp | hp) | hp
    · exact loadsWhole_eq_false_of_visit hv hst
    · exact hblocks.1 p hp
    · exact hblocks.2 p hp
    · exact ih₃ ht.2.2.2.2 hw.2 hmid hr p hp

theorem writtenIn_eq_false_of_all {t : Tree}
    (h : t.all (fun stmt => !slot.writes stmt.kind) = true) :
    slot.writtenIn t = false :=
  List.any_eq_false.2 fun p hp => by simpa using Tree.all_eq_true_iff.1 h p hp

/-- With known contents, no load of the whole slot comes before the next write. -/
theorem meets_eq_false_of_scan (hst : st.Informed) (h : slot.scan t st = .ok st') :
    t.meets (fun stmt => !slot.writes stmt.kind) slot.loadsWhole = false := by
  induction t generalizing st with
  | nil => rfl
  | cons id stmt first second rest _ _ ih =>
    obtain ⟨mid, hv, hr⟩ := scan_cons_eq_ok h
    rw [Tree.meets, loadsWhole_eq_false_of_visit hv hst, Bool.false_or, Bool.and_eq_false_imp]
    intro hpass
    simp only [Bool.and_eq_true, Bool.not_eq_true'] at hpass
    have hnode : slot.writtenIn (.cons id stmt first second .nil) = false := by
      simp [writtenIn_cons, hpass.1.1, writtenIn_eq_false_of_all hpass.1.2,
        writtenIn_eq_false_of_all hpass.2]
    exact ih (hst.of_sameStores (scan_sameStores hnode ((scan_single id stmt).trans hv))) hr

/-- A walk does not go past a load of the whole slot behind a store, with no write to the slot
between them. -/
theorem leadsTo_eq_false_of_scan (ht : t.Shaped) (h : slot.scan t st = .ok st') :
    t.leadsTo slot.stores (fun stmt => !slot.writes stmt.kind) slot.loadsWhole = false := by
  induction t generalizing st st' with
  | nil => rfl
  | cons id stmt first second rest ih₁ ih₂ ih₃ =>
    obtain ⟨mid, hv, hr⟩ := scan_cons_eq_ok h
    have hmid := visited_of_visit hv
    have hhead : (slot.stores stmt &&
        rest.meets (fun stmt => !slot.writes stmt.kind) slot.loadsWhole) = false := by
      rw [Bool.and_eq_false_imp]
      intro hstores
      unfold stores at hstores
      cases hmid with
      | store => exact meets_eq_false_of_scan (.store st id _) hr
      | _ => simp_all
    have hblocks : first.leadsTo slot.stores (fun stmt => !slot.writes stmt.kind) slot.loadsWhole =
          false ∧
        second.leadsTo slot.stores (fun stmt => !slot.writes stmt.kind) slot.loadsWhole =
          false := by
      have hleaf := @eq_nil_of_action slot _ _ _ _ _ ht
      have hsecond : (∀ m, slot.action stmt.kind ≠ .branch m) → second = .nil :=
        fun hb => ht.2.1 (secondBlock?_of_action hb)
      cases hmid with
      | branch _ hthen helse => exact ⟨ih₁ ht.2.2.1 hthen, ih₂ ht.2.2.2.1 helse⟩
      | inner ha _ hbody | loop ha _ _ hbody =>
        obtain rfl := hsecond (by simp [ha])
        exact ⟨ih₁ ht.2.2.1 hbody, rfl⟩
      | pass ha | store ha | atomic ha | load ha =>
        obtain ⟨rfl, rfl⟩ := hleaf (by simp [ha]) (by simp [ha])
        exact ⟨rfl, rfl⟩
    rw [Tree.leadsTo, hhead, hblocks.1, hblocks.2, ih₃ ht.2.2.2.2 hr]
    rfl

/-! ## Statements that do not name the slot -/

theorem mem_operands_of_reads {k : Kind} (h : slot.reads k = true) : slot.id ∈ k.operands := by
  cases k with
  | load lanes =>
    cases hany : lanes.any (·.slot == slot.id) with
    | true => simpa [Kind.operands] using hany
    | false => simp [reads, action, hany] at h
  | atomic op s v =>
    by_cases hs : s = slot.id
    · simp [Kind.operands, hs]
    · simp [reads, action, hs] at h
  | store s v => by_cases hs : s = slot.id <;> simp [reads, action, hs] at h
  | rangeFor counter =>
    by_cases hs : counter = slot.id
    · simp [Kind.operands, hs]
    · simp [reads, action, hs] at h
  | structFor counters =>
    by_cases hs : slot.id ∈ counters
    · exact hs
    · simp [reads, action, hs] at h
  | _ => cases h

theorem mem_operands_of_writes {k : Kind} (h : slot.writes k = true) : slot.id ∈ k.operands :=
  k.written_subset_operands (writes_eq_true_iff.1 h)

theorem writes_of_stores (h : slot.stores stmt = true) : slot.writes stmt.kind = true := by
  unfold stores at h
  unfold writes
  split at h
  · next ha => rw [ha]
  · cases h

theorem reads_of_loadsWhole (h : slot.loadsWhole stmt = true) : slot.reads stmt.kind = true := by
  simp only [loadsWhole, Bool.and_eq_true] at h
  exact h.1.1.1

theorem writtenIn_eq_false_iff :
    slot.writtenIn t = false ↔ ∀ p ∈ t.preorder, slot.writes p.2.kind = false := by
  simp [writtenIn]

theorem readIn_eq_false_iff :
    slot.readIn t = false ↔ ∀ p ∈ t.preorder, slot.reads p.2.kind = false := by
  simp [readIn]

/-! ## Other rewrites keep what has been shown -/

section Exchange

variable {e : Exchange} (hapt : e.Apt t)
  (hslot : e.value ≠ e.old → slot.id ≠ e.old ∧ slot.id ≠ e.value)
  (hold : ∀ stmt, (e.old, stmt) ∈ t.preorder → slot.id ∉ stmt.kind.operands)
include hapt hslot hold

/-- An exchange that is not about the slot respects every test that only looks for the name of the
slot. -/
theorem respects {q : Stmt → Bool} {b : Bool}
    (hq : ∀ stmt, slot.id ∉ stmt.kind.operands → q stmt = b)
    (hrename : ∀ f stmt, (∀ v, f v = slot.id ↔ v = slot.id) →
      q (stmt.mapKind (Kind.rename f)) = q stmt) : e.Respects t q b where
  old stmt hm := hq stmt (hold stmt hm)
  new new newStmt hnew := by
    obtain ⟨-, ⟨cs, hk⟩, -⟩ := hapt.new new newStmt hnew
    exact hq newStmt (by simp [hk, Kind.operands])
  kept p _ := by
    refine hrename (fun v => if v = e.old then e.value else v) p.2 fun v => ?_
    by_cases hsame : e.value = e.old <;> grind

theorem respects_names : e.Respects t (fun stmt => stmt.kind.operands.contains slot.id) false := by
  refine respects hapt hslot hold (fun stmt h => by simpa using h) fun f stmt hf => ?_
  simp [Stmt.mapKind, hf]

theorem respects_stores : e.Respects t slot.stores false := by
  refine respects hapt hslot hold (fun stmt h => ?_) fun f stmt hf => ?_
  · by_contra hs
    exact h (mem_operands_of_writes (writes_of_stores (by simpa using hs)))
  · unfold stores
    rw [Stmt.mapKind, action_rename hf]
    cases slot.action stmt.kind <;> rfl

theorem respects_writes : e.Respects t (fun stmt => slot.writes stmt.kind) false := by
  refine respects hapt hslot hold (fun stmt h => ?_) fun f stmt hf => ?_
  · by_contra hw
    exact h (mem_operands_of_writes (by simpa using hw))
  · rw [Stmt.mapKind, writes_rename hf]

theorem respects_reads : e.Respects t (fun stmt => slot.reads stmt.kind) false := by
  refine respects hapt hslot hold (fun stmt h => ?_) fun f stmt hf => ?_
  · by_contra hr
    exact h (mem_operands_of_reads (by simpa using hr))
  · rw [Stmt.mapKind, reads_rename hf]

theorem respects_loadsWhole : e.Respects t slot.loadsWhole false := by
  refine respects hapt hslot hold (fun stmt h => ?_) fun f stmt hf => ?_
  · by_contra hl
    exact h (mem_operands_of_reads (reads_of_loadsWhole (by simpa using hl)))
  · simp only [loadsWhole, Stmt.mapKind, reads_rename hf, Kind.isRegularLoadOf_rename hf]

variable (ht : t.Shaped)
include ht

theorem writtenIn_exchange : slot.writtenIn (t.exchange e) = slot.writtenIn t := by
  have hiff := Tree.forall_exchange hapt ht (respects_writes hapt hslot hold)
  rw [← writtenIn_eq_false_iff, ← writtenIn_eq_false_iff, ← Bool.not_eq_true, ← Bool.not_eq_true,
    not_iff_not] at hiff
  exact Bool.eq_iff_iff.2 hiff

theorem readIn_exchange : slot.readIn (t.exchange e) = slot.readIn t := by
  have hiff := Tree.forall_exchange hapt ht (respects_reads hapt hslot hold)
  rw [← readIn_eq_false_iff, ← readIn_eq_false_iff, ← Bool.not_eq_true, ← Bool.not_eq_true,
    not_iff_not] at hiff
  exact Bool.eq_iff_iff.2 hiff

end Exchange

/-- An exchange of statements that do not name the slot keeps it exhausted. -/
theorem Exhausted.exchange {e : Exchange} (h : slot.Exhausted t) (hapt : e.Apt t) (ht : t.Shaped)
    (hslot : e.value ≠ e.old → slot.id ≠ e.old ∧ slot.id ≠ e.value)
    (hold : ∀ stmt, (e.old, stmt) ∈ t.preorder → slot.id ∉ stmt.kind.operands) :
    slot.Exhausted (t.exchange e) where
  used := by
    obtain ⟨p, hp, hname⟩ := h.used
    by_contra! hnone
    have hfree := (Tree.forall_exchange hapt ht (respects_names hapt hslot hold)).1
      (fun x hx => by simpa using hnone x hx) p hp
    simp [hname] at hfree
  unwritten hw := by
    rw [writtenIn_exchange hapt hslot hold ht] at hw
    exact (Tree.forall_exchange hapt ht (respects_loadsWhole hapt hslot hold)).2 (h.unwritten hw)
  forwarded :=
    (Tree.leadsTo_exchange hapt ht (respects_stores hapt hslot hold)
      (respects_writes hapt hslot hold).not (respects_loadsWhole hapt hslot hold)).trans h.forwarded

end Slot

/-! ## The end of the optimizer -/

namespace Context.Kept

variable {c : Context} {root : BlockId} {strict : Bool} {slot : Slot}

/-- Where a slot is named, a statement stands behind its declaration. -/
theorem mem_following_of_mem_operands (h : c.Kept strict root) (hslot : slot ∈ (c.tree root).slots)
    {p : StmtId × Stmt} (hp : p ∈ (c.tree root).preorder) (hname : slot.id ∈ p.2.kind.operands) :
    p.1 ∈ slot.following.ids := by
  obtain ⟨site, hsite, hid, hstmt⟩ := Tree.exists_site_of_mem_preorder hp []
  rw [← hid]
  exact Slot.mem_following_of_mem_scope h.nodup (by simp) hslot hsite
    ((h.valid.fits site hsite).mem_scope (hstmt ▸ hname))

/-- An analysis without a rewrite has found the slot exhausted. -/
theorem exhausted_of_analyze (h : c.Kept strict root) (hslot : slot ∈ (c.tree root).slots)
    (ha : slot.analyze (c.tree root) (c.chain slot.id ≠ []) = .ok ()) :
    slot.Exhausted (c.tree root) := by
  obtain ⟨declaration, scope, hsite, halloca, -, hstart⟩ := h.exists_site_of_mem_slots hslot
  have hshaped : slot.following.Shaped := hstart.shaped
  have hsub := (Slot.subset_of_mem_slots hslot).2
  obtain ⟨st, hscan, hleft⟩ := Slot.analyze_eq_ok ha
  refine ⟨?_, fun hw => ?_, ?_⟩
  · by_contra! hfree
    have hchain : c.chain slot.id = [] :=
      (h.chain_eq_nil_iff (Tree.mem_preorder_of_mem_sites hsite)
        (by rw [show declaration.kind = .alloca from halloca]; rfl)).2 hfree
    obtain ⟨hstored, hloaded⟩ := Slot.scan_flags hshaped (by simp [SlotState.start]) hscan
    have hunwritten : slot.writtenIn slot.following = false :=
      Slot.writtenIn_eq_false_iff.2 fun p hp => by
        by_contra hw
        exact hfree p (hsub hp) (Slot.mem_operands_of_writes (by simpa using hw))
    have hunread : slot.readIn slot.following = false :=
      Slot.readIn_eq_false_iff.2 fun p hp => by
        by_contra hr
        exact hfree p (hsub hp) (Slot.mem_operands_of_reads (by simpa using hr))
    simp [Slot.leftover?, Slot.deadAlloca?, hstored, hloaded, hunwritten, hunread, hchain,
      SlotState.start] at hleft
  · -- what loads the slot stands behind it, where the walk has seen it
    intro p hp
    by_contra hload
    have hname := Slot.mem_operands_of_reads (Slot.reads_of_loadsWhole (by simpa using hload))
    obtain ⟨stmt, hmem⟩ := Tree.mem_ids.1 (h.mem_following_of_mem_operands hslot hp hname)
    obtain rfl : stmt = p.2 := Tree.stmt_unique h.nodup (hsub hmem) hp
    refine hload (Slot.not_loadsWhole_of_scan hshaped ?_ (.inl rfl) hscan _ hmem)
    exact Slot.writtenIn_eq_false_iff.2 fun q hq => Slot.writtenIn_eq_false_iff.1 hw q (hsub hq)
  · rw [Tree.leadsTo_following h.nodup hslot fun p hp hs => h.mem_following_of_mem_operands hslot hp
      (Slot.mem_operands_of_writes (Slot.writes_of_stores hs))]
    exact Slot.leadsTo_eq_false_of_scan hshaped hscan

end Context.Kept

/-- That a slot is exhausted lasts. -/
theorem Work.lasts_exhausted (strict : Bool) (root : BlockId) :
    Lasts strict root Slot.Exhausted where
  shown h hslot ha := h.exhausted_of_analyze hslot ha
  keeps {c slot e} h hslot hapt hold hq := by
    obtain ⟨declaration, scope, hsite, halloca, -⟩ := h.exists_site_of_mem_slots hslot
    have hne := fun hne => hapt.declared hne _ (Tree.mem_preorder_of_mem_sites hsite) halloca
    obtain ⟨hused, hunwritten, hforwarded⟩ :=
      hq.exchange hapt (Context.shaped_tree c root) hne hold
    exact ⟨hused, hunwritten, hforwarded⟩

/-- When the optimizer has come to its end on a verified kernel, every slot that is left is used, no
load of a whole slot is left if nothing writes the slot, and none is left behind a store in the same
block without another write between them. -/
theorem optimizeSlots_complete {c : Context} {kernel : Kernel} (h : c.Verified kernel) :
    ∃ outcome c', optimizeSlots kernel.body none c = .ok (outcome, c') ∧
      ∀ stats, outcome.result = .ok stats →
        ∀ slot ∈ (c'.tree kernel.body).slots, slot.Exhausted (c'.tree kernel.body) := by
  obtain ⟨outcome, c', hrun, -, hall⟩ :=
    h.kept.finished_optimizeSlots (Work.lasts_exhausted false kernel.body)
  exact ⟨outcome, c', hrun, hall⟩

namespace RereadKernel

/-- A slot that a loop writes twice, and reads behind the first write. -/
def text : List Char :=
  "kernel @k \x7b %c = arg 0 : u1 %v = arg 1 : i32 %a = alloca : i32 while \x7b while_control %c
    local_store %a, %v if %c \x7b print %v \x7d %l = local_load %a : i32 print %l
    %m = atomic_add %a, %v : i32 print %m \x7d \x7d".toList

/-- What the text is parsed to. -/
def context : Context where
  stmts := #[⟨.arg 0, some ⟨.u1, 1⟩, some ⟨0⟩⟩, ⟨.arg 1, some ⟨.i32, 1⟩, some ⟨0⟩⟩,
    ⟨.alloca, some ⟨.i32, 1⟩, some ⟨0⟩⟩, ⟨.leave ⟨0⟩, none, some ⟨1⟩⟩,
    ⟨.store ⟨2⟩ ⟨1⟩, none, some ⟨1⟩⟩, ⟨.print ⟨1⟩, none, some ⟨2⟩⟩,
    ⟨.branch ⟨0⟩ none none (some ⟨2⟩) none, none, some ⟨1⟩⟩,
    ⟨.load [⟨⟨2⟩, 0⟩], some ⟨.i32, 1⟩, some ⟨1⟩⟩, ⟨.print ⟨7⟩, none, some ⟨1⟩⟩,
    ⟨.atomic .add ⟨2⟩ ⟨1⟩, some ⟨.i32, 1⟩, some ⟨1⟩⟩, ⟨.print ⟨9⟩, none, some ⟨1⟩⟩,
    ⟨.loop none ⟨1⟩, none, some ⟨0⟩⟩]
  blocks := #[⟨[⟨0⟩, ⟨1⟩, ⟨2⟩, ⟨11⟩], none⟩, ⟨[⟨3⟩, ⟨4⟩, ⟨6⟩, ⟨7⟩, ⟨8⟩, ⟨9⟩, ⟨10⟩], some ⟨11⟩⟩,
    ⟨[⟨5⟩], some ⟨6⟩⟩]
  uses := [⟨⟨0⟩, ⟨3⟩, 0⟩, ⟨⟨2⟩, ⟨4⟩, 0⟩, ⟨⟨1⟩, ⟨4⟩, 1⟩, ⟨⟨1⟩, ⟨5⟩, 0⟩, ⟨⟨0⟩, ⟨6⟩, 0⟩, ⟨⟨2⟩, ⟨7⟩, 0⟩,
    ⟨⟨7⟩, ⟨8⟩, 0⟩, ⟨⟨2⟩, ⟨9⟩, 0⟩, ⟨⟨1⟩, ⟨9⟩, 1⟩, ⟨⟨9⟩, ⟨10⟩, 0⟩]

theorem verified : context.Verified ⟨"k", ⟨0⟩⟩ :=
  have hparse : parseKernel text .empty = .ok (.ok ⟨"k", ⟨0⟩⟩, context) := by decide +kernel
  Parsed.empty.tidy.verified hparse (by decide +kernel)

end RereadKernel

open RereadKernel in
/-- The load is forwarded, and the slot that is left is exhausted. -/
theorem optimizeSlots_complete_reread : context.Verified ⟨"k", ⟨0⟩⟩ ∧
    ∃ outcome c', optimizeSlots ⟨0⟩ none context = .ok (outcome, c') ∧
      outcome.result.map Stats.forwardedLoads = .ok 1 ∧
      ∃ slot ∈ (c'.tree ⟨0⟩).slots, slot.Exhausted (c'.tree ⟨0⟩) := by
  obtain ⟨outcome, c', hrun, hall⟩ := optimizeSlots_complete verified
  obtain ⟨events, stats, d, slot, hd, hstats, hslot⟩ : ∃ events stats d slot,
      optimizeSlots ⟨0⟩ none context = .ok (⟨events, .ok stats⟩, d) ∧ stats.forwardedLoads = 1 ∧
        slot ∈ (d.tree ⟨0⟩).slots :=
    ⟨_, _, _, _, rfl, rfl, List.mem_cons_self⟩
  obtain ⟨rfl, rfl⟩ := Prod.mk.inj (Except.ok.inj (hrun.symm.trans hd))
  exact ⟨verified, _, c', hrun, congrArg Except.ok hstats, slot, hslot, hall stats rfl slot hslot⟩

end KernelIR
