import KernelIR.Proofs.Completeness

/-!
# Stores that are left

A walk only remembers the latest store, and looks at its end whether anything has read what this
store wrote. So of two stores without a load between them the first one is taken out after the
second one, and stays with it if the slot is read later on in a way that cannot be forwarded
(`exists_overwritten_store`).

What holds is this (`optimizeSlots_spent`). In the block of a slot, no store is left that is not
followed by a statement that reads the slot, and no loop with stores in it. The same goes for a
branch, but there a join may have taken over a mark of reading from in front of the branch. So two
stores with nothing about the slot between them are only left, at whatever depth, if the slot is
read, and in the block of the slot only if it is read behind the second one
(`optimizeSlots_pairs`).
-/

namespace KernelIR

namespace Kind

def isBranch : Kind → Bool
  | branch _ _ _ _ _ => true
  | _ => false

@[simp] theorem isBranch_mapOperands (f : Nat → StmtId → StmtId) (k : Kind) :
    (k.mapOperands f).isBranch = k.isBranch := by
  cases k <;> rfl

end Kind

/-- Each statement of the block that writes the slot, itself or in its blocks, reads it there or is
followed by a statement that does. A branch is also left if the slot is `seen` to be read. -/
def Slot.Spent (slot : Slot) (seen : Bool) : Tree → Prop
  | .nil => True
  | .cons id stmt first second rest =>
    (slot.writtenIn (.cons id stmt first second .nil) = true →
      slot.readIn (.cons id stmt first second rest) = true ∨
        stmt.kind.isBranch = true ∧ seen = true) ∧
      slot.Spent seen rest

/-- Each store to the slot in the block is followed by a statement that reads the slot. -/
def Slot.StoresRead (slot : Slot) : Tree → Prop
  | .nil => True
  | .cons _ stmt _ _ rest =>
    (slot.stores stmt = true → slot.readIn rest = true) ∧ slot.StoresRead rest

namespace SlotState

variable {st before thenState elseState body : SlotState}

/-- Nothing has read what the latest store wrote, and a value that holds is that of a store. -/
structure Pending (st : SlotState) : Prop where
  unread : st.storeRead = false
  stored : st.storeHolds = true → st.lastStore?.isSome = true

theorem Pending.start (region : Region) : (start region).Pending :=
  ⟨rfl, nofun⟩

theorem Pending.storeOf (st : SlotState) (s v : StmtId) : (st.store s v).Pending :=
  ⟨rfl, fun _ => rfl⟩

theorem isSome_newStore? {branch : SlotState} (hunread : branch.storeRead = false)
    (hne : branch.lastStore? ≠ before.lastStore?) (hlast : branch.lastStore?.isSome = true) :
    (newStore? before branch).isSome = true := by
  simp [newStore?, hne, hunread, hlast]

/-- A join of branches at whose end nothing has read the latest store. -/
theorem Pending.mergeIf (hbefore : before.Pending) (hthen : thenState.Pending)
    (helse : elseState.Pending)
    (hkeep : before.lastStore?.isSome = true →
      thenState.lastStore?.isSome = true ∧ elseState.lastStore?.isSome = true) :
    (before.mergeIf thenState elseState).Pending ∧
      (before.lastStore?.isSome = true ∨ (before.mergeIf thenState elseState).stored = true ∧
          (thenState.lastStore?.isSome = true ∨ elseState.lastStore?.isSome = true) →
        (before.mergeIf thenState elseState).lastStore?.isSome = true) := by
  have hsome : before.lastStore?.isSome = true ∨
      (before.mergeIf thenState elseState).stored = true ∧
        (thenState.lastStore?.isSome = true ∨ elseState.lastStore?.isSome = true) →
      thenState.lastStore?.isSome = true ∨ elseState.lastStore?.isSome = true := by
    rintro (h | ⟨-, h⟩)
    · exact .inl (hkeep h).1
    · exact h
  cases mergedStores before thenState elseState with
  | idle stored last value holds read =>
    refine ⟨⟨read.trans hbefore.unread, by rw [holds, last]; exact hbefore.stored⟩, ?_⟩
    rw [last, stored]
    simp
  | kept lastThen lastElse last value holds read =>
    refine ⟨⟨?_, fun h => ?_⟩, fun h => ?_⟩
    · rw [read, hbefore.unread, hthen.unread, helse.unread]
      rfl
    · rw [last, ← lastThen]
      exact hthen.stored (Bool.and_eq_true_iff.1 (holds ▸ h)).1
    · rcases hsome h with h | h
      · rwa [last, ← lastThen]
      · rwa [last, ← lastElse]
  | joined holdsThen holdsElse changed same last value holds read =>
    have hlast := hthen.stored holdsThen
    rw [last]
    refine ⟨⟨?_, fun _ => last ▸ hlast⟩, fun _ => hlast⟩
    rw [read, hthen.unread, helse.unread]
    rfl
  | dropped changed last holds read apart =>
    refine ⟨⟨read, fun h => absurd h (by simp [holds])⟩, fun h => ?_⟩
    have hsome := hsome h
    rw [last, Option.isSome_or, Bool.or_eq_true]
    -- the branch that has changed the latest store has brought in one that is unread
    by_cases heq : thenState.lastStore? = before.lastStore?
    · have hne : elseState.lastStore? ≠ before.lastStore? := fun h => changed ⟨heq, h⟩
      refine .inr (isSome_newStore? helse.unread hne ?_)
      exact hsome.elim (fun h => (hkeep (heq ▸ h)).2) id
    · by_cases hthenSome : thenState.lastStore?.isSome = true
      · exact .inl (isSome_newStore? hthen.unread heq hthenSome)
      · have helseSome := hsome.resolve_left hthenSome
        refine .inr (isSome_newStore? helse.unread (fun h => ?_) helseSome)
        exact hthenSome (hkeep (h ▸ helseSome)).1

/-- Behind a loop that writes the slot and does not read it, whatever was known in front of it. -/
theorem Pending.ofLoop (before : SlotState) (hloaded : body.loaded = false)
    (hstored : body.stored = true) (hsome : body.lastStore?.isSome = true) :
    (before.mergeLoop body false).Pending ∧
      (before.mergeLoop body false).lastStore?.isSome = true := by
  simp only [SlotState.mergeLoop, hstored, hloaded]
  refine ⟨⟨rfl, fun h => ?_⟩, hsome⟩
  cases h

/-- Behind a loop that does not touch the slot. -/
theorem Pending.mergeLoop (hbefore : before.Pending) (hloaded : body.loaded = false)
    (hstored : body.stored = false) : (before.mergeLoop body false).Pending ∧
      (before.mergeLoop body false).lastStore? = before.lastStore? := by
  simpa [SlotState.mergeLoop, hstored, hloaded] using ⟨hbefore.unread, hbefore.stored⟩

end SlotState

namespace Slot

variable {slot : Slot} {id : StmtId} {stmt : Stmt} {first second rest t : Tree} {st st' : SlotState}

theorem writtenIn_cons_eq : slot.writtenIn (.cons id stmt first second rest) =
    (slot.writtenIn (.cons id stmt first second .nil) || slot.writtenIn rest) := by
  simp [writtenIn_cons]

theorem readIn_cons_eq : slot.readIn (.cons id stmt first second rest) =
    (slot.readIn (.cons id stmt first second .nil) || slot.readIn rest) := by
  simp [readIn_cons]

/-! ## Walks that meet no reading -/

/-- Through statements that do not read the slot, the latest store stays unread, and there is one if
they write the slot. -/
theorem pending_of_scan (ht : t.Shaped) (hn : st.region = .noStores → slot.writtenIn t = false)
    (hr : slot.readIn t = false) (hst : st.Pending) (h : slot.scan t st = .ok st') :
    st'.Pending ∧ (slot.writtenIn t = true ∨ st.lastStore?.isSome = true →
      st'.lastStore?.isSome = true) := by
  induction t generalizing st st' with
  | nil =>
    obtain rfl := Except.ok.inj h
    exact ⟨hst, by simp⟩
  | cons id stmt first second rest ih₁ ih₂ ih₃ =>
    obtain ⟨mid, hv, hscan⟩ := scan_cons_eq_ok h
    have hregion : mid.region = st.region := scan_region ((scan_single id stmt).trans hv)
    simp only [writtenIn_cons, Bool.or_eq_false_iff] at hn
    simp only [readIn_cons, Bool.or_eq_false_iff] at hr
    have ih₁ := fun {st st'} hn => @ih₁ st st' ht.2.2.1 hn hr.1.1.2
    have ih₂ := fun {st st'} hn => @ih₂ st st' ht.2.2.2.1 hn hr.1.2
    have hreads := hr.1.1.1
    unfold reads at hreads
    -- the same for the first statement
    have hmid : mid.Pending ∧ (slot.writtenIn (.cons id stmt first second .nil) = true ∨
        st.lastStore?.isSome = true → mid.lastStore?.isSome = true) := by
      have hleaf := @eq_nil_of_action slot _ _ _ _ _ ht
      have hsecond : (∀ m, slot.action stmt.kind ≠ .branch m) → second = .nil :=
        fun hb => ht.2.1 (secondBlock?_of_action hb)
      simp only [writtenIn_cons, writtenIn_nil, Bool.or_false]
      unfold writes
      cases visited_of_visit hv with
      | pass ha =>
        obtain ⟨rfl, rfl⟩ := hleaf (by simp [ha]) (by simp [ha])
        exact ⟨hst, by simp [ha]⟩
      | store => exact ⟨.storeOf st id _, fun _ => rfl⟩
      | atomic ha => simp [ha] at hreads
      | load ha => simp [ha] at hreads
      | branch ha hthen helse =>
        obtain ⟨hs₁, -⟩ := scan_flags ht.2.2.1 (fun hm => (hn hm).1.1.2) hthen
        obtain ⟨hs₂, -⟩ := scan_flags ht.2.2.2.1 (fun hm => (hn hm).1.2) helse
        obtain ⟨hp₁, hl₁⟩ := ih₁ (fun hm => (hn hm).1.1.2) hst hthen
        obtain ⟨hp₂, hl₂⟩ := ih₂ (fun hm => (hn hm).1.2) hst helse
        obtain ⟨hpending, hlast⟩ := hst.mergeIf hp₁ hp₂ fun h => ⟨hl₁ (.inr h), hl₂ (.inr h)⟩
        refine ⟨hpending, fun h => hlast ?_⟩
        simp only [ha, Bool.false_or, Bool.or_eq_true] at h
        rw [SlotState.mergeIf_stored, hs₁, hs₂]
        rcases h with (h | h) | h
        · exact .inr ⟨by simp [h], .inl (hl₁ (.inl h))⟩
        · exact .inr ⟨by simp [h], .inr (hl₂ (.inl h))⟩
        · exact .inl h
      | inner ha hreg hbody =>
        obtain rfl := hsecond (by simp [ha])
        obtain ⟨hpending, hlast⟩ := ih₁ (fun hm => (hn hm).1.1.2) hst hbody
        exact ⟨hpending, by simpa [ha] using hlast⟩
      | @loop binds ha hbinds hreg bodyEnd hbody =>
        obtain rfl := hsecond (by simp [ha])
        obtain rfl : binds = false := by
          cases binds with
          | true => simp [ha] at hreads
          | false => rfl
        obtain ⟨hs₁, hloaded⟩ := scan_flags ht.2.2.1 (by simp [SlotState.start]) hbody
        simp only [SlotState.start, Bool.false_or, hr.1.1.2] at hs₁ hloaded
        obtain ⟨-, hlast⟩ := ih₁ (by simp [SlotState.start]) (.start _) hbody
        cases hstored : bodyEnd.stored with
        | false =>
          obtain ⟨hpending, heq⟩ := hst.mergeLoop hloaded hstored
          exact ⟨hpending, by simp [ha, heq, ← hs₁, hstored]⟩
        | true =>
          obtain ⟨hpending, hsome⟩ := SlotState.Pending.ofLoop st hloaded hstored
            (hlast (.inl (hs₁.symm.trans hstored)))
          exact ⟨hpending, fun _ => hsome⟩
    obtain ⟨hpending, hlast⟩ := ih₃ ht.2.2.2.2 (fun hm => (hn (hregion ▸ hm)).2) hr.2 hmid.1 hscan
    refine ⟨hpending, fun h => hlast ?_⟩
    rw [writtenIn_cons_eq, Bool.or_eq_true] at h
    rcases h with (h | h) | h
    · exact .inr (hmid.2 (.inl h))
    · exact .inl h
    · exact .inr (hmid.2 (.inr h))

/-- A statement that writes the slot and does not read it leaves a store that nothing has read, if
it is not a branch. -/
theorem pending_of_written (ht : (Tree.cons id stmt first second rest).Shaped)
    (hn : st.region = .noStores → slot.writtenIn (.cons id stmt first second .nil) = false)
    (hr : slot.readIn (.cons id stmt first second .nil) = false)
    (hw : slot.writtenIn (.cons id stmt first second .nil) = true)
    (hbranch : stmt.kind.isBranch = false) (h : slot.visit id stmt first second st = .ok st') :
    st'.Pending ∧ st'.lastStore?.isSome = true := by
  have hleaf := @eq_nil_of_action slot _ _ _ _ _ ht
  have hregion : st.region ≠ .noStores := fun hm => by simp [hn hm] at hw
  simp only [readIn_cons, readIn_nil, Bool.or_false, Bool.or_eq_false_iff] at hr
  simp only [writtenIn_cons, writtenIn_nil, Bool.or_false] at hw
  have hreads := hr.1.1
  unfold writes at hw
  unfold reads at hreads
  cases visited_of_visit h with
  | pass ha =>
    obtain ⟨rfl, rfl⟩ := hleaf (by simp [ha]) (by simp [ha])
    simp [ha] at hw
  | store => exact ⟨.storeOf st id _, rfl⟩
  | atomic ha => simp [ha] at hreads
  | load ha => simp [ha] at hreads
  | branch ha =>
    obtain ⟨cond, m, n, b, d, hk, -⟩ := action_eq_branch ha
    simp [hk, Kind.isBranch] at hbranch
  | inner ha hno => exact absurd hno hregion
  | @loop binds ha hbinds hreg bodyEnd hbody =>
    obtain rfl : second = .nil := ht.2.1 (@secondBlock?_of_action slot _ (by simp [ha]))
    obtain rfl : binds = false := by
      cases binds with
      | true => simp [ha] at hreads
      | false => rfl
    obtain ⟨hs₁, hloaded⟩ := scan_flags ht.2.2.1 (by simp [SlotState.start]) hbody
    simp only [SlotState.start, Bool.false_or, hr.1.2] at hs₁ hloaded
    have hw : slot.writtenIn first = true := by simpa [ha] using hw
    obtain ⟨-, hlast⟩ :=
      pending_of_scan ht.2.2.1 (by simp [SlotState.start]) hr.1.2 (.start _) hbody
    exact SlotState.Pending.ofLoop st hloaded (hs₁.trans hw) (hlast (.inl hw))

/-- Behind a walk at whose end no store is to be removed, the slot is spent. -/
theorem spent_of_scan (ht : t.Shaped) (hn : st.region = .noStores → slot.writtenIn t = false)
    {seen : Bool} (hseen : seen = false → st.Pending ∧ slot.readIn t = false)
    (h : slot.scan t st = .ok st') (hdead : deadStore? st' = none) : slot.Spent seen t := by
  induction t generalizing st with
  | nil => trivial
  | cons id stmt first second rest _ _ ih =>
    obtain ⟨mid, hv, hscan⟩ := scan_cons_eq_ok h
    have hv' := (@scan_single slot first second st id stmt).trans hv
    have hregion : mid.region = st.region := scan_region hv'
    have hnode : (Tree.cons id stmt first second .nil).Shaped :=
      ⟨ht.1, ht.2.1, ht.2.2.1, ht.2.2.2.1, trivial⟩
    rw [writtenIn_cons_eq, Bool.or_eq_false_iff] at hn
    rw [readIn_cons_eq, Bool.or_eq_false_iff] at hseen
    have hrest := fun hm => (hn (hregion ▸ hm)).2
    have hpass : seen = false → mid.Pending ∧ slot.readIn rest = false := fun hs =>
      have hwalk := pending_of_scan hnode (fun hm => (hn hm).1) (hseen hs).2.1 (hseen hs).1 hv'
      ⟨hwalk.1, (hseen hs).2.2⟩
    refine ⟨fun hw => ?_, ih ht.2.2.2.2 hrest hpass hscan⟩
    by_contra hnot
    rw [readIn_cons_eq, Bool.or_eq_true, not_or, not_or, Bool.not_eq_true, Bool.not_eq_true] at hnot
    obtain ⟨⟨hr₁, hr₃⟩, hjoin⟩ := hnot
    -- the statement leaves a store that nothing has read, and it is unread at the end
    have hmid : mid.Pending ∧ mid.lastStore?.isSome = true := by
      cases hbranch : stmt.kind.isBranch with
      | false => exact pending_of_written ht (fun hm => (hn hm).1) hr₁ hw hbranch hv
      | true =>
        have hs : seen = false := by simpa [hbranch] using hjoin
        obtain ⟨hpending, hlast⟩ :=
          pending_of_scan hnode (fun hm => (hn hm).1) hr₁ (hseen hs).1 hv'
        exact ⟨hpending, hlast (.inl hw)⟩
    obtain ⟨hend, hlast⟩ := pending_of_scan ht.2.2.2.2 hrest hr₃ hmid.1 hscan
    obtain ⟨s, hs⟩ := Option.isSome_iff_exists.1 (hlast (.inr hmid.2))
    simp [deadStore?, hend.unread, hs] at hdead

/-! ## Two stores -/

/-- A spent slot that is not read is not written either, at whatever depth. -/
theorem Spent.writtenIn_eq_false (h : slot.Spent false t) (hr : slot.readIn t = false) :
    slot.writtenIn t = false := by
  induction t with
  | nil => rfl
  | cons id stmt first second rest _ _ ih =>
    have hrest := ih h.2 (Bool.or_eq_false_iff.1 (readIn_cons_eq.symm.trans hr)).2
    rw [writtenIn_cons_eq, hrest, Bool.or_false]
    by_contra hw
    rcases h.1 (by simpa using hw) with hread | ⟨-, hseen⟩
    · cases hr.symm.trans hread
    · cases hseen

/-- A store is no branch, and it does not read the slot itself. -/
theorem Spent.storesRead {seen : Bool} (h : slot.Spent seen t) (ht : t.Shaped) :
    slot.StoresRead t := by
  induction t with
  | nil => trivial
  | cons id stmt first second rest _ _ ih =>
    refine ⟨fun hstore => ?_, ih h.2 ht.2.2.2.2⟩
    obtain ⟨v, ha⟩ : ∃ v, slot.action stmt.kind = .store v := by
      unfold stores at hstore
      split at hstore
      · next v ha => exact ⟨v, ha⟩
      · cases hstore
    obtain ⟨rfl, rfl⟩ := @eq_nil_of_action slot _ _ _ _ _ ht (by simp [ha]) (by simp [ha])
    have hwrites : slot.writtenIn (.cons id stmt .nil .nil .nil) = true := by
      simp [writtenIn_cons, writes, ha]
    rcases h.1 hwrites with hread | ⟨hbranch, -⟩
    · simpa [readIn_cons, reads, ha] using hread
    · simp [action_eq_store ha, Kind.isBranch] at hbranch

/-! ## Other rewrites keep what has been shown -/

theorem spent_with {seen : Bool} (following : Tree) :
    Spent { slot with following := following } seen t ↔ slot.Spent seen t := by
  induction t with
  | nil => exact Iff.rfl
  | cons id stmt first second rest _ _ ih => exact and_congr Iff.rfl ih

/-- An exchange of statements that do not name the slot keeps it spent. -/
theorem Spent.exchange {seen : Bool} (h : slot.Spent seen t) {e : Exchange} (hapt : e.Apt t)
    (ht : t.Shaped) (hslot : e.value ≠ e.old → slot.id ≠ e.old ∧ slot.id ≠ e.value)
    (hold : ∀ stmt, (e.old, stmt) ∈ t.preorder → slot.id ∉ stmt.kind.operands) :
    slot.Spent seen (t.exchange e) := by
  induction t with
  | nil => trivial
  | cons id stmt first second rest _ _ ih =>
    have hrest := ih h.2 hapt.of_cons.2.2 ht.2.2.2.2 fun u hu =>
      hold u (by simp [Tree.preorder, hu])
    have hread := readIn_exchange hapt hslot hold ht
    have hnode : (Tree.cons id stmt first second .nil).preorder ⊆
        (Tree.cons id stmt first second rest).preorder := by
      intro p hp
      simp only [Tree.preorder, List.append_nil, List.mem_cons, List.mem_append] at hp ⊢
      exact hp.imp_right .inl
    have hwritten := writtenIn_exchange (hapt.mono hnode) hslot (fun u hu => hold u (hnode hu))
      ⟨ht.1, ht.2.1, ht.2.2.1, ht.2.2.2.1, trivial⟩
    rw [Tree.exchange] at hread hwritten ⊢
    split
    · cases hnew : e.new? with
      | none => exact hrest
      | some x =>
        obtain ⟨-, ⟨cs, hk⟩, -⟩ := hapt.new x.1 x.2 hnew
        refine ⟨fun hw => ?_, hrest⟩
        simp [writtenIn_cons, writes, hk, action] at hw
    · next hid =>
      rw [if_neg hid] at hread hwritten
      refine ⟨fun hw => ?_, hrest⟩
      rw [hread, Stmt.mapKind, Kind.replace, Kind.isBranch_mapOperands]
      exact h.1 (hwritten.symm.trans hw)

end Slot

/-- That a slot is spent lasts. -/
theorem Work.lasts_spent (strict : Bool) (root : BlockId) :
    Lasts strict root fun slot _ => slot.Spent (slot.readIn slot.following) slot.following where
  shown {c slot} h hslot ha := by
    obtain ⟨_, _, -, -, -, hstart⟩ := h.exists_site_of_mem_slots hslot
    obtain ⟨st, hscan, hleft⟩ := Slot.analyze_eq_ok ha
    refine Slot.spent_of_scan hstart.shaped (by simp [SlotState.start])
      (fun hread => ⟨.start _, hread⟩) hscan ?_
    exact (Option.or_eq_none_iff.1 hleft).1
  keeps {c slot e} h hslot hapt hold hq := by
    obtain ⟨declaration, scope, hsite, halloca, -, hstart⟩ := h.exists_site_of_mem_slots hslot
    have hsub := (Slot.subset_of_mem_slots hslot).2
    have hne := fun hne => hapt.declared hne _ (Tree.mem_preorder_of_mem_sites hsite) halloca
    have hold := fun stmt hm => hold stmt (hsub hm)
    have hread := Slot.readIn_exchange (hapt.mono hsub) hne hold hstart.shaped
    refine (Slot.spent_with _).2 ?_
    exact hread.symm ▸ hq.exchange (hapt.mono hsub) hstart.shaped hne hold

/-- When the optimizer has come to its end on a verified kernel, two stores with nothing about the
slot between them are only left, at whatever depth, if a statement behind the slot reads it. In the
block of the slot, such a statement stands behind each of them. -/
theorem optimizeSlots_pairs {c : Context} {kernel : Kernel} (h : c.Verified kernel) :
    ∃ outcome c', optimizeSlots kernel.body none c = .ok (outcome, c') ∧
      ∀ stats, outcome.result = .ok stats → ∀ slot ∈ (c'.tree kernel.body).slots,
        ((c'.tree kernel.body).leadsTo slot.stores
            (fun stmt => !slot.reads stmt.kind && !slot.writes stmt.kind) slot.stores = true →
          slot.readIn slot.following = true) ∧
        slot.StoresRead slot.following := by
  obtain ⟨outcome, c', hrun, hkept, hall⟩ :=
    h.kept.finished_optimizeSlots (Work.lasts_spent false kernel.body)
  refine ⟨outcome, c', hrun, fun stats hstats slot hslot => ?_⟩
  have hspent := hall stats hstats slot hslot
  obtain ⟨_, _, -, -, -, hstart⟩ := hkept.exists_site_of_mem_slots hslot
  refine ⟨fun hpair => ?_, hspent.storesRead hstart.shaped⟩
  by_contra hread
  rw [Bool.not_eq_true] at hread
  rw [hread] at hspent
  have hunwritten := hspent.writtenIn_eq_false hread
  -- what stores to the slot stands behind it
  have hnone : ∀ p ∈ (c'.tree kernel.body).preorder, slot.stores p.2 = false := fun p hp => by
    by_contra hstores
    have hwrites := Slot.writes_of_stores (by simpa using hstores)
    obtain ⟨stmt, hmem⟩ := Tree.mem_ids.1
      (hkept.mem_following_of_mem_operands hslot hp (Slot.mem_operands_of_writes hwrites))
    obtain rfl : stmt = p.2 :=
      Tree.stmt_unique hkept.nodup ((Slot.subset_of_mem_slots hslot).2 hmem) hp
    cases (Slot.writtenIn_eq_false_iff.1 hunwritten _ hmem).symm.trans hwrites
  cases (Tree.leadsTo_eq_false_of_forall hnone).symm.trans hpair

/-- When the optimizer has come to its end on a verified kernel, no store is left in the block of
its slot behind the last statement there that reads the slot, and no loop with stores in it. So of
two stores there with nothing about the slot between them, even the second one is gone, if nothing
behind it reads the slot. A branch with stores is only left if the slot is read in its block. -/
theorem optimizeSlots_spent {c : Context} {kernel : Kernel} (h : c.Verified kernel) :
    ∃ outcome c', optimizeSlots kernel.body none c = .ok (outcome, c') ∧
      ∀ stats, outcome.result = .ok stats → ∀ slot ∈ (c'.tree kernel.body).slots,
        slot.Spent (slot.readIn slot.following) slot.following := by
  obtain ⟨outcome, c', hrun, -, hall⟩ :=
    h.kept.finished_optimizeSlots (Work.lasts_spent false kernel.body)
  exact ⟨outcome, c', hrun, hall⟩

namespace OverwrittenKernel

/-- A slot that is written twice before it is read, lane by lane, and once more after that. -/
def text : List Char :=
  "kernel @k \x7b %a = arg 0 : i32 %b = arg 1 : i32 %x = alloca : i32 local_store %x, %a
    local_store %x, %b %l = local_load [%x[0], %x[0]] : i32x2 print %l local_store %x, %a \x7d".toList

/-- What the text is parsed to. -/
def context : Context where
  stmts := #[⟨.arg 0, some ⟨.i32, 1⟩, some ⟨0⟩⟩, ⟨.arg 1, some ⟨.i32, 1⟩, some ⟨0⟩⟩,
    ⟨.alloca, some ⟨.i32, 1⟩, some ⟨0⟩⟩, ⟨.store ⟨2⟩ ⟨0⟩, none, some ⟨0⟩⟩,
    ⟨.store ⟨2⟩ ⟨1⟩, none, some ⟨0⟩⟩, ⟨.load [⟨⟨2⟩, 0⟩, ⟨⟨2⟩, 0⟩], some ⟨.i32, 2⟩, some ⟨0⟩⟩,
    ⟨.print ⟨5⟩, none, some ⟨0⟩⟩, ⟨.store ⟨2⟩ ⟨0⟩, none, some ⟨0⟩⟩]
  blocks := #[⟨[⟨0⟩, ⟨1⟩, ⟨2⟩, ⟨3⟩, ⟨4⟩, ⟨5⟩, ⟨6⟩, ⟨7⟩], none⟩]
  uses := [⟨⟨2⟩, ⟨3⟩, 0⟩, ⟨⟨0⟩, ⟨3⟩, 1⟩, ⟨⟨2⟩, ⟨4⟩, 0⟩, ⟨⟨1⟩, ⟨4⟩, 1⟩, ⟨⟨2⟩, ⟨5⟩, 0⟩, ⟨⟨2⟩, ⟨5⟩, 1⟩,
    ⟨⟨5⟩, ⟨6⟩, 0⟩, ⟨⟨2⟩, ⟨7⟩, 0⟩, ⟨⟨0⟩, ⟨7⟩, 1⟩]

theorem verified : context.Verified ⟨"k", ⟨0⟩⟩ :=
  have hparse : parseKernel text .empty = .ok (.ok ⟨"k", ⟨0⟩⟩, context) := by decide +kernel
  Parsed.empty.tidy.verified hparse (by decide +kernel)

end OverwrittenKernel

open OverwrittenKernel in
/-- The store behind the load is taken out, and the slot that is left is spent. -/
theorem optimizeSlots_spent_overwritten : context.Verified ⟨"k", ⟨0⟩⟩ ∧
    ∃ outcome c', optimizeSlots ⟨0⟩ none context = .ok (outcome, c') ∧
      outcome.result.map Stats.removedStores = .ok 1 ∧
      ∃ slot ∈ (c'.tree ⟨0⟩).slots, slot.Spent (slot.readIn slot.following) slot.following := by
  obtain ⟨outcome, c', hrun, hall⟩ := optimizeSlots_spent verified
  obtain ⟨events, stats, d, slot, hd, hstats, hslot⟩ : ∃ events stats d slot,
      optimizeSlots ⟨0⟩ none context = .ok (⟨events, .ok stats⟩, d) ∧ stats.removedStores = 1 ∧
        slot ∈ (d.tree ⟨0⟩).slots :=
    ⟨_, _, _, _, rfl, rfl, List.mem_cons_self⟩
  obtain ⟨rfl, rfl⟩ := Prod.mk.inj (Except.ok.inj (hrun.symm.trans hd))
  exact ⟨verified, _, c', hrun, congrArg Except.ok hstats, slot, hslot, hall stats rfl slot hslot⟩

open OverwrittenKernel in
/-- A store is left in front of another one to the same slot, and nothing between them reads or
writes the slot. -/
theorem exists_overwritten_store : context.Verified ⟨"k", ⟨0⟩⟩ ∧
    ∃ events stats c' slot, optimizeSlots ⟨0⟩ none context = .ok (⟨events, .ok stats⟩, c') ∧
      slot ∈ (c'.tree ⟨0⟩).slots ∧
      (c'.tree ⟨0⟩).leadsTo slot.stores
        (fun stmt => !slot.reads stmt.kind && !slot.writes stmt.kind) slot.stores = true :=
  ⟨verified, _, _, _, _, rfl, List.mem_cons_self, rfl⟩

end KernelIR
