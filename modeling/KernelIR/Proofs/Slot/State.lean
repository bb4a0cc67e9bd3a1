import KernelIR.Slot.State

/-!
# Laws of slot states

What joins do to the knowledge about a slot. `SlotState.mergeIf` treats the latest store
in one of four ways (`MergedStores`) and the latest atomic operation in one of two
(`MergedAtomics`); all else about a join follows from these.

Two relations between the state in front of statements and the state behind them matter
later. Statements that do not write the slot leave all but the marks of reading
(`SameStores`), and a store or an atomic operation that is the latest one behind the
statements was so in front of them or is one of them (`Leads`).
-/

namespace KernelIR

namespace SlotState

variable {before thenState elseState merged : SlotState}

/-! ## Branches -/

/-- How a join comes by its latest store. -/
inductive MergedStores (before thenState elseState merged : SlotState) : Prop where
  /-- Nothing has written the slot. -/
  | idle (stored : merged.stored = false) (last : merged.lastStore? = before.lastStore?)
    (value : merged.lastValue? = before.lastValue?) (holds : merged.storeHolds = before.storeHolds)
    (read : merged.storeRead = before.storeRead)
  /-- Both branches keep the store in front of them. -/
  | kept (lastThen : thenState.lastStore? = before.lastStore?)
    (lastElse : elseState.lastStore? = before.lastStore?)
    (last : merged.lastStore? = before.lastStore?) (value : merged.lastValue? = before.lastValue?)
    (holds : merged.storeHolds = (thenState.storeHolds && elseState.storeHolds))
    (read : merged.storeRead = (before.storeRead || thenState.storeRead || elseState.storeRead))
  /-- Both branches end with the same value. The store of the first stands for both. -/
  | joined (holdsThen : thenState.storeHolds = true) (holdsElse : elseState.storeHolds = true)
    (changed : ¬(thenState.lastStore? = before.lastStore? ∧ elseState.lastStore? =
      before.lastStore?))
    (same : thenState.lastStore? = elseState.lastStore? ∨
      thenState.lastValue? = elseState.lastValue?)
    (last : merged.lastStore? = thenState.lastStore?)
    (value : merged.lastValue? = thenState.lastValue?) (holds : merged.storeHolds = true)
    (read : merged.storeRead = (thenState.storeRead || elseState.storeRead))
  /-- The contents are not known. At most a store to remove is left. -/
  | dropped
    (changed : ¬(thenState.lastStore? = before.lastStore? ∧ elseState.lastStore? =
      before.lastStore?))
    (last : merged.lastStore? = (newStore? before thenState).or (newStore? before elseState))
    (holds : merged.storeHolds = false) (read : merged.storeRead = false)
    (apart : ¬(thenState.storeHolds = true ∧ elseState.storeHolds = true ∧
      (thenState.lastStore? = elseState.lastStore? ∨ thenState.lastValue? = elseState.lastValue?)))

/-- How a join comes by its latest atomic operation. -/
inductive MergedAtomics (before thenState elseState merged : SlotState) : Prop where
  | kept (lastThen : thenState.lastAtomic? = before.lastAtomic?)
    (lastElse : elseState.lastAtomic? = before.lastAtomic?)
    (last : merged.lastAtomic? = before.lastAtomic?)
    (unread : merged.atomicUnread = (thenState.atomicUnread && elseState.atomicUnread))
  | changed (last : merged.lastAtomic? =
      (newAtomic? before thenState).or (newAtomic? before elseState))

/-- A slot is written in a branch if it is in one of the blocks. -/
@[simp] theorem mergeIf_stored : (mergeIf before thenState elseState).stored =
    (thenState.stored || elseState.stored) := by
  simp only [mergeIf, mergeAtomics, mergeStores]
  grind

/-- It is read in a branch if it is in one of the blocks. -/
@[simp] theorem mergeIf_loaded : (mergeIf before thenState elseState).loaded =
    (thenState.loaded || elseState.loaded) := by
  simp only [mergeIf, mergeAtomics, mergeStores]
  grind

@[simp] theorem mergeIf_region : (mergeIf before thenState elseState).region = before.region := by
  simp only [mergeIf, mergeAtomics, mergeStores]
  grind

/-- Only what is known about stores matters. -/
theorem MergedStores.congr {merged' : SlotState}
    (h : MergedStores before thenState elseState merged) (hstored : merged'.stored = merged.stored)
    (hlast : merged'.lastStore? = merged.lastStore?)
    (hvalue : merged'.lastValue? = merged.lastValue?)
    (hholds : merged'.storeHolds = merged.storeHolds)
    (hread : merged'.storeRead = merged.storeRead) :
    MergedStores before thenState elseState merged' := by
  cases h with
  | idle stored last value holds read =>
    exact .idle (hstored.trans stored) (hlast.trans last) (hvalue.trans value)
      (hholds.trans holds) (hread.trans read)
  | kept lastThen lastElse last value holds read =>
    exact .kept lastThen lastElse (hlast.trans last) (hvalue.trans value) (hholds.trans holds)
      (hread.trans read)
  | joined holdsThen holdsElse changed same last value holds read =>
    exact .joined holdsThen holdsElse changed same (hlast.trans last) (hvalue.trans value)
      (hholds.trans holds) (hread.trans read)
  | dropped changed last holds read apart =>
    exact .dropped changed (hlast.trans last) (hholds.trans holds) (hread.trans read) apart

/-- A join of the latest stores is one of the ways in `MergedStores`. -/
theorem mergedStores_mergeStores (hlast : merged.lastStore? = before.lastStore?)
    (hvalue : merged.lastValue? = before.lastValue?) :
    MergedStores before thenState elseState (mergeStores before thenState elseState merged) := by
  unfold mergeStores
  by_cases hun : thenState.lastStore? = before.lastStore? ∧ elseState.lastStore? = before.lastStore?
  · have heq : thenState.lastStore? = elseState.lastStore? := hun.1.trans hun.2.symm
    simp only [hun.1, hun.2, BEq.rfl, Bool.and_self, Bool.true_or, Bool.and_true, if_true]
    split
    · next h => exact .kept hun.1 hun.2 hlast hvalue h.symm rfl
    · next h => exact .kept hun.1 hun.2 hlast hvalue (by simpa using h) rfl
  · have hun' : ¬(thenState.lastStore? == before.lastStore? &&
        elseState.lastStore? == before.lastStore?) = true := by simpa using hun
    dsimp only
    rw [if_neg hun', if_neg hun']
    split
    · next h =>
      simp only [Bool.and_eq_true, Bool.or_eq_true, beq_iff_eq] at h
      exact .joined h.1.1 h.1.2 hun h.2 rfl rfl rfl rfl
    · next h =>
      refine .dropped hun rfl rfl rfl fun hsame => h ?_
      simpa [and_assoc] using hsame

/-- So is the join of whole states. -/
theorem mergedStores (before thenState elseState : SlotState) :
    MergedStores before thenState elseState (mergeIf before thenState elseState) := by
  have hatomics : ∀ merged, MergedStores before thenState elseState merged →
      MergedStores before thenState elseState
        (mergeAtomics before thenState elseState merged) := by
    intro merged h
    unfold mergeAtomics
    split <;> exact h.congr rfl rfl rfl rfl rfl
  unfold mergeIf
  refine hatomics _ ?_
  split
  · exact mergedStores_mergeStores rfl rfl
  · next h => exact .idle (by simpa using h) rfl rfl rfl rfl

/-- A join of the latest atomic operations is one of those in `MergedAtomics`. -/
theorem mergedAtomics (before thenState elseState : SlotState) :
    MergedAtomics before thenState elseState (mergeIf before thenState elseState) := by
  have hmerged : ∀ merged : SlotState, merged.lastAtomic? = before.lastAtomic? →
      MergedAtomics before thenState elseState
        (mergeAtomics before thenState elseState merged) := by
    intro merged hlast
    unfold mergeAtomics
    split
    · next h => exact .kept h.1 h.2 hlast rfl
    · exact .changed rfl
  unfold mergeIf
  refine hmerged _ ?_
  unfold mergeStores
  grind

/-- A store that a branch brought in is its latest one, and is unread. -/
theorem lastStore?_of_newStore? {branch : SlotState} {s : StmtId}
    (h : newStore? before branch = some s) :
    branch.lastStore? = some s ∧ branch.lastStore? ≠ before.lastStore? ∧
      branch.storeRead = false := by
  unfold newStore? at h
  split at h
  · next hnew => exact ⟨h, hnew.1, by simpa using hnew.2⟩
  · cases h

/-- An atomic operation that a branch brought in is its latest one, and is unread. -/
theorem lastAtomic?_of_newAtomic? {branch : SlotState} {s : StmtId}
    (h : newAtomic? before branch = some s) : branch.lastAtomic? = some s ∧
      branch.lastAtomic? ≠ before.lastAtomic? ∧ branch.atomicUnread = true := by
  unfold newAtomic? at h
  split at h
  · next hnew => exact ⟨h, hnew.1, hnew.2⟩
  · cases h

/-! ## Loops -/

/-- A loop writes the slot if its body does, or if it counts with it. -/
@[simp] theorem mergeLoop_stored {body : SlotState} {binds : Bool} :
    (mergeLoop before body binds).stored = (before.stored || body.stored || binds) := by
  unfold mergeLoop
  cases binds <;> cases hs : body.stored <;> cases hl : body.loaded <;> simp [load, start]

/-- It reads the slot if its body does, or if it counts with it. -/
@[simp] theorem mergeLoop_loaded {body : SlotState} {binds : Bool} :
    (mergeLoop before body binds).loaded = (before.loaded || body.loaded || binds) := by
  unfold mergeLoop
  cases binds <;> cases hs : body.stored <;> cases hl : body.loaded <;> simp [load, start]

@[simp] theorem mergeLoop_region {body : SlotState} {binds : Bool} :
    (mergeLoop before body binds).region = before.region := by
  unfold mergeLoop
  cases binds <;> cases hs : body.stored <;> cases hl : body.loaded <;> simp [load, start]

/-! ## Statements that do not write -/

/-- Nothing but the marks of reading differs. -/
structure SameStores (st st' : SlotState) : Prop where
  stored : st'.stored = st.stored
  lastStore? : st'.lastStore? = st.lastStore?
  lastValue? : st'.lastValue? = st.lastValue?
  storeHolds : st'.storeHolds = st.storeHolds
  lastAtomic? : st'.lastAtomic? = st.lastAtomic?
  region : st'.region = st.region

namespace SameStores

variable {st st' st'' body : SlotState}

theorem refl (st : SlotState) : SameStores st st :=
  ⟨rfl, rfl, rfl, rfl, rfl, rfl⟩

/-- A load changes nothing about the stores. -/
theorem load (st : SlotState) : SameStores st st.load :=
  ⟨rfl, rfl, rfl, rfl, rfl, rfl⟩

theorem trans (h : SameStores st st') (h' : SameStores st' st'') : SameStores st st'' :=
  ⟨h'.stored.trans h.stored, h'.lastStore?.trans h.lastStore?, h'.lastValue?.trans h.lastValue?,
    h'.storeHolds.trans h.storeHolds, h'.lastAtomic?.trans h.lastAtomic?, h'.region.trans h.region⟩

/-- Branches without writes change nothing about the stores. -/
theorem mergeIf (hthen : SameStores before thenState) (helse : SameStores before elseState) :
    SameStores before (mergeIf before thenState elseState) := by
  have hstored : (SlotState.mergeIf before thenState elseState).stored = before.stored := by
    simp [hthen.stored, helse.stored]
  have hatomic : (SlotState.mergeIf before thenState elseState).lastAtomic? =
      before.lastAtomic? := by
    cases mergedAtomics before thenState elseState with
    | kept _ _ last => exact last
    | changed last =>
      unfold SlotState.mergeIf mergeAtomics
      rw [if_pos ⟨hthen.lastAtomic?, helse.lastAtomic?⟩]
      unfold mergeStores
      grind
  cases mergedStores before thenState elseState with
  | idle _ last value holds _ => exact ⟨hstored, last, value, holds, hatomic, mergeIf_region⟩
  | kept _ _ last value holds _ =>
    exact ⟨hstored, last, value, by rw [holds, hthen.storeHolds, helse.storeHolds, Bool.and_self],
      hatomic, mergeIf_region⟩
  | joined _ _ changed => exact absurd ⟨hthen.lastStore?, helse.lastStore?⟩ changed
  | dropped changed => exact absurd ⟨hthen.lastStore?, helse.lastStore?⟩ changed

/-- Neither does a loop whose body does not write. -/
theorem mergeLoop (hbody : body.stored = false) (before : SlotState) :
    SameStores before (mergeLoop before body false) := by
  unfold SlotState.mergeLoop
  cases hloaded : body.loaded <;> constructor <;> simp [hbody, SlotState.load]

end SameStores

/-! ## Latest stores and atomic operations -/

/-- What is latest behind statements was latest in front of them or is one of them. -/
structure Leads (ids : List StmtId) (st st' : SlotState) : Prop where
  store : st'.lastStore? = st.lastStore? ∨ ∀ s, st'.lastStore? = some s → s ∈ ids
  atomic : st'.lastAtomic? = st.lastAtomic? ∨ ∀ s, st'.lastAtomic? = some s → s ∈ ids
  holds : st'.storeHolds = true →
    (st.storeHolds = true ∧ st'.lastStore? = st.lastStore? ∧ st'.lastValue? = st.lastValue?) ∨
      ∃ s ∈ ids, st'.lastStore? = some s

namespace Leads

variable {ids ids' : List StmtId} {st st' st'' body : SlotState}

/-- Where nothing is written, all that is latest was there before. -/
theorem of_sameStores (h : SameStores st st') : Leads ids st st' :=
  ⟨.inl h.lastStore?, .inl h.lastAtomic?,
    fun hh => .inl ⟨h.storeHolds ▸ hh, h.lastStore?, h.lastValue?⟩⟩

/-- After a store, it is the latest one. -/
theorem storeOf (st : SlotState) (id value : StmtId) : Leads [id] st (st.store id value) := by
  constructor <;> simp [SlotState.store]

/-- After an atomic operation, it is the latest one. -/
theorem atomicOf (st : SlotState) (id : StmtId) : Leads [id] st (st.atomic id) := by
  constructor <;> simp [SlotState.atomic]

/-- What is latest may come from more statements. -/
theorem mono (h : Leads ids st st') (hsub : ids ⊆ ids') : Leads ids' st st' where
  store := h.store.imp_right fun hs s he => hsub (hs s he)
  atomic := h.atomic.imp_right fun hs s he => hsub (hs s he)
  holds hh := (h.holds hh).imp_right fun ⟨s, hs, he⟩ => ⟨s, hsub hs, he⟩

theorem trans (h : Leads ids st st') (h' : Leads ids st' st'') : Leads ids st st'' where
  store := by
    rcases h'.store with heq | hs
    · exact h.store.imp heq.trans fun hs s he => hs s (heq.symm.trans he)
    · exact .inr hs
  atomic := by
    rcases h'.atomic with heq | hs
    · exact h.atomic.imp heq.trans fun hs s he => hs s (heq.symm.trans he)
    · exact .inr hs
  holds hh := by
    rcases h'.holds hh with ⟨hmid, hlast, hvalue⟩ | hs
    · rcases h.holds hmid with ⟨hst, hlast', hvalue'⟩ | ⟨s, hs, he⟩
      · exact .inl ⟨hst, hlast.trans hlast', hvalue.trans hvalue'⟩
      · exact .inr ⟨s, hs, hlast.trans he⟩
    · exact .inr hs

/-- A store that a branch brought in is one of its statements. -/
theorem newStore?_mem (h : Leads ids before st) {s : StmtId}
    (hs : newStore? before st = some s) : s ∈ ids :=
  have hnew := lastStore?_of_newStore? hs
  h.store.resolve_left hnew.2.1 s hnew.1

theorem newAtomic?_mem (h : Leads ids before st) {s : StmtId}
    (hs : newAtomic? before st = some s) : s ∈ ids :=
  have hnew := lastAtomic?_of_newAtomic? hs
  h.atomic.resolve_left hnew.2.1 s hnew.1

/-- At a join, what is latest comes from one of the blocks or from before. -/
theorem mergeIf (hthen : Leads ids before thenState) (helse : Leads ids before elseState) :
    Leads ids before (mergeIf before thenState elseState) where
  store := by
    cases mergedStores before thenState elseState with
    | idle _ last => exact .inl last
    | kept _ _ last => exact .inl last
    | joined _ _ _ _ last =>
      rw [last]
      exact hthen.store
    | dropped _ last =>
      refine .inr fun s hs => ?_
      rw [last, Option.or_eq_some_iff] at hs
      rcases hs with hs | ⟨-, hs⟩
      · exact hthen.newStore?_mem hs
      · exact helse.newStore?_mem hs
  atomic := by
    cases mergedAtomics before thenState elseState with
    | kept _ _ last => exact .inl last
    | changed last =>
      refine .inr fun s hs => ?_
      rw [last, Option.or_eq_some_iff] at hs
      rcases hs with hs | ⟨-, hs⟩
      · exact hthen.newAtomic?_mem hs
      · exact helse.newAtomic?_mem hs
  holds hh := by
    cases mergedStores before thenState elseState with
    | idle _ last value holds => exact .inl ⟨holds ▸ hh, last, value⟩
    | kept lastThen _ last value holds =>
      rw [holds, Bool.and_eq_true] at hh
      rcases hthen.holds hh.1 with ⟨hb, -, -⟩ | ⟨s, hs, he⟩
      · exact .inl ⟨hb, last, value⟩
      · exact .inr ⟨s, hs, last.trans (lastThen.symm.trans he)⟩
    | joined holdsThen _ _ _ last value =>
      rw [last, value]
      exact hthen.holds holdsThen
    | dropped _ _ holds =>
      rw [holds] at hh
      cases hh

/-- After a loop, what is latest comes from its body or from before. -/
theorem mergeLoop (hbody : Leads ids (start .mayHaveStores) body) (before : SlotState)
    (binds : Bool) : Leads ids before (mergeLoop before body binds) := by
  have hstore : ∀ s, body.lastStore? = some s → s ∈ ids := by
    rcases hbody.store with heq | hs
    · simp [heq, start]
    · exact hs
  have hatomic : ∀ s, body.lastAtomic? = some s → s ∈ ids := by
    rcases hbody.atomic with heq | hs
    · simp [heq, start]
    · exact hs
  cases binds with
  | true => constructor <;> simp [SlotState.mergeLoop, start]
  | false =>
    cases hs : body.stored with
    | false => exact of_sameStores (SameStores.mergeLoop hs before)
    | true =>
      have hlast : (SlotState.mergeLoop before body false).lastStore? = body.lastStore? ∧
          (SlotState.mergeLoop before body false).lastAtomic? = body.lastAtomic? ∧
          (SlotState.mergeLoop before body false).storeHolds = false := by
        simp [SlotState.mergeLoop, hs]
      exact ⟨.inr fun s h => hstore s (hlast.1.symm.trans h),
        .inr fun s h => hatomic s (hlast.2.1.symm.trans h), by simp [hlast.2.2]⟩

/-- Branches without a common statement that end with the same store had it in front of
them. -/
theorem lastStore?_of_same {ids₁ ids₂ : List StmtId} (hthen : Leads ids₁ before thenState)
    (helse : Leads ids₂ before elseState) (hdisjoint : ∀ s ∈ ids₁, s ∉ ids₂)
    (holdsThen : thenState.storeHolds = true) (holdsElse : elseState.storeHolds = true)
    (h : thenState.lastStore? = elseState.lastStore?) :
    thenState.lastStore? = before.lastStore? ∧ elseState.lastStore? = before.lastStore? := by
  rcases hthen.holds holdsThen with ⟨-, hl, -⟩ | ⟨x, hx, hxe⟩
  · exact ⟨hl, h.symm.trans hl⟩
  · rcases helse.holds holdsElse with ⟨-, hl, -⟩ | ⟨y, hy, hye⟩
    · exact ⟨h.trans hl, hl⟩
    · obtain rfl : x = y := Option.some.inj (hxe.symm.trans (h.trans hye))
      exact absurd hy (hdisjoint x hx)

/-- A value that is known behind a branch is known at the end of both blocks. -/
theorem forwardable?_of_mergeIf {ids₁ ids₂ : List StmtId} (hthen : Leads ids₁ before thenState)
    (helse : Leads ids₂ before elseState) (hdisjoint : ∀ s ∈ ids₁, s ∉ ids₂)
    (hfresh : ∀ s, before.lastStore? = some s → s ∉ ids₁ ∧ s ∉ ids₂)
    (hidle : (SlotState.mergeIf before thenState elseState).stored = false →
      before.storeHolds = false) {v : StmtId}
    (h : (SlotState.mergeIf before thenState elseState).forwardable? = some v) :
    thenState.forwardable? = some v ∧ elseState.forwardable? = some v := by
  unfold forwardable? at h
  split at h
  · next hh =>
    cases mergedStores before thenState elseState with
    | idle stored _ _ holds => simp [holds, hidle stored] at hh
    | kept lastThen lastElse _ value holds =>
      rw [holds, Bool.and_eq_true] at hh
      have hsame : ∀ {st : SlotState} {ids : List StmtId}, Leads ids before st →
          st.lastStore? = before.lastStore? →
          (∀ s, before.lastStore? = some s → s ∉ ids) → st.storeHolds = true →
          st.forwardable? = some v := by
        intro st ids hst hlast hnew hholds
        rcases hst.holds hholds with ⟨-, -, hv⟩ | ⟨s, hs, he⟩
        · rw [forwardable?, if_pos hholds, hv, ← value, h]
        · exact absurd hs (hnew s (hlast.symm.trans he))
      exact ⟨hsame hthen lastThen (fun s hs => (hfresh s hs).1) hh.1,
        hsame helse lastElse (fun s hs => (hfresh s hs).2) hh.2⟩
    | joined holdsThen holdsElse changed same _ value =>
      have hthenv : thenState.lastValue? = some v := value.symm.trans h
      have helsev : elseState.lastValue? = some v := by
        rcases same with hlast | hvalue
        · exact absurd (hthen.lastStore?_of_same helse hdisjoint holdsThen holdsElse hlast) changed
        · exact hvalue.symm.trans hthenv
      exact ⟨by rw [forwardable?, if_pos holdsThen, hthenv],
        by rw [forwardable?, if_pos holdsElse, helsev]⟩
    | dropped _ _ holds => simp [holds] at hh
  · cases h

end Leads

end SlotState

end KernelIR
