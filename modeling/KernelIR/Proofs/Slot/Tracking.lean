import KernelIR.Proofs.Slot.Walk

/-!
# What a walk keeps track of

The stores and atomic operations that a walk remembers are statements of the tree, and a
value that the slot is known to hold is visible where it is known (`Slot.Tracks`). The
joins are where this needs care : if both branches end with the same value, it was
visible in front of them, because no statement is in both.

`Point.Inv` puts this together with the shape of what is still to come. It holds where the
walk behind a slot begins (`exists_site_of_mem_slots`) and is kept from point to point
(`Point.Inv.next`), so it holds wherever the walk comes to (`Point.Inv.reaches`).
-/

namespace KernelIR

namespace Slot

/-- The latest statements are what they are taken for, in the tree `root`, and the value
that is known to be in the slot is visible. -/
structure Tracks (slot : Slot) (root : Tree) (scope : List StmtId) (st : SlotState) : Prop where
  idle : st.stored = false →
    st.lastStore? = none ∧ st.lastAtomic? = none ∧ st.storeHolds = false
  store : ∀ s, st.lastStore? = some s →
    ∃ v stmt, (s, stmt) ∈ root.preorder ∧ slot.action stmt.kind = .store v
  atomic : ∀ s, st.lastAtomic? = some s →
    ∃ stmt, (s, stmt) ∈ root.preorder ∧ slot.action stmt.kind = .atomic
  holds : st.storeHolds = true → ∃ s v stmt, st.lastStore? = some s ∧ st.lastValue? = some v ∧
    v ∈ scope ∧ (s, stmt) ∈ root.preorder ∧ slot.action stmt.kind = .store v

variable {slot : Slot} {root : Tree} {scope : List StmtId}

namespace Tracks

variable {st st' before thenState elseState body : SlotState}

theorem start (region : Region) : slot.Tracks root scope (.start region) := by
  constructor <;> simp [SlotState.start]

theorem mono (h : slot.Tracks root scope st) {scope' : List StmtId} (hs : scope ⊆ scope') :
    slot.Tracks root scope' st where
  idle := h.idle
  store := h.store
  atomic := h.atomic
  holds hh :=
    have ⟨s, v, stmt, hlast, hvalue, hv, hm⟩ := h.holds hh
    ⟨s, v, stmt, hlast, hvalue, hs hv, hm⟩

theorem of_sameStores (h : slot.Tracks root scope st) (hs : SlotState.SameStores st st') :
    slot.Tracks root scope st' where
  idle hst := by
    rw [hs.lastStore?, hs.lastAtomic?, hs.storeHolds]
    exact h.idle (hs.stored ▸ hst)
  store s he := h.store s (hs.lastStore? ▸ he)
  atomic s he := h.atomic s (hs.lastAtomic? ▸ he)
  holds hh := by
    rw [hs.lastStore?, hs.lastValue?]
    exact h.holds (hs.storeHolds ▸ hh)

/-- The region is of no account. -/
theorem withRegion (h : slot.Tracks root scope st) (region : Region) :
    slot.Tracks root scope { st with region := region } :=
  ⟨h.idle, h.store, h.atomic, h.holds⟩

theorem storeOf {id v : StmtId} {stmt : Stmt} (hm : (id, stmt) ∈ root.preorder)
    (ha : slot.action stmt.kind = .store v) (hv : v ∈ scope) (st : SlotState) :
    slot.Tracks root scope (st.store id v) := by
  constructor <;> simp [SlotState.store]
  · exact ⟨v, stmt, hm, ha⟩
  · exact ⟨hv, stmt, hm, ha⟩

theorem atomicOf {id : StmtId} {stmt : Stmt} (hm : (id, stmt) ∈ root.preorder)
    (ha : slot.action stmt.kind = .atomic) (st : SlotState) :
    slot.Tracks root scope (st.atomic id) := by
  constructor <;> simp [SlotState.atomic]
  exact ⟨stmt, hm, ha⟩

/-- A join of branches without a common statement. -/
theorem mergeIf {ids₁ ids₂ scope₁ scope₂ : List StmtId} (hbefore : slot.Tracks root scope before)
    (hthen : slot.Tracks root scope₁ thenState) (helse : slot.Tracks root scope₂ elseState)
    (lthen : SlotState.Leads ids₁ before thenState) (lelse : SlotState.Leads ids₂ before elseState)
    (hmono : before.stored = true → thenState.stored = true)
    (hdisjoint : ∀ s ∈ ids₁, s ∉ ids₂)
    (hfresh : ∀ s, before.lastStore? = some s → s ∉ ids₁)
    (hscope : ∀ v ∈ scope₁, v ∈ scope₂ → v ∈ scope) :
    slot.Tracks root scope (before.mergeIf thenState elseState) where
  idle hst := by
    rw [SlotState.mergeIf_stored, Bool.or_eq_false_iff] at hst
    have hst₀ : before.stored = false := by
      by_contra hne
      simp [hmono (by simpa using hne)] at hst
    obtain ⟨b₁, b₂, b₃⟩ := hbefore.idle hst₀
    obtain ⟨t₁, t₂, t₃⟩ := hthen.idle hst.1
    obtain ⟨e₁, e₂, e₃⟩ := helse.idle hst.2
    refine ⟨?_, ?_, ?_⟩
    · cases SlotState.mergedStores before thenState elseState with
      | idle _ last => exact last.trans b₁
      | kept _ _ last => exact last.trans b₁
      | joined holdsThen => simp [t₃] at holdsThen
      | dropped changed => exact absurd ⟨t₁.trans b₁.symm, e₁.trans b₁.symm⟩ changed
    · cases SlotState.mergedAtomics before thenState elseState with
      | kept _ _ last => exact last.trans b₂
      | changed last => simp [last, SlotState.newAtomic?, t₂, e₂]
    · cases SlotState.mergedStores before thenState elseState with
      | idle _ _ _ holds => exact holds.trans b₃
      | kept _ _ _ _ holds => simp [holds, t₃]
      | joined holdsThen => simp [t₃] at holdsThen
      | dropped _ _ holds => exact holds
  store s hs := by
    cases SlotState.mergedStores before thenState elseState with
    | idle _ last => exact hbefore.store s (last ▸ hs)
    | kept _ _ last => exact hbefore.store s (last ▸ hs)
    | joined _ _ _ _ last => exact hthen.store s (last ▸ hs)
    | dropped _ last =>
      rw [last, Option.or_eq_some_iff] at hs
      rcases hs with hs | ⟨-, hs⟩
      · exact hthen.store s (SlotState.lastStore?_of_newStore? hs).1
      · exact helse.store s (SlotState.lastStore?_of_newStore? hs).1
  atomic s hs := by
    cases SlotState.mergedAtomics before thenState elseState with
    | kept _ _ last => exact hbefore.atomic s (last ▸ hs)
    | changed last =>
      rw [last, Option.or_eq_some_iff] at hs
      rcases hs with hs | ⟨-, hs⟩
      · exact hthen.atomic s (SlotState.lastAtomic?_of_newAtomic? hs).1
      · exact helse.atomic s (SlotState.lastAtomic?_of_newAtomic? hs).1
  holds hh := by
    cases SlotState.mergedStores before thenState elseState with
    | idle _ last value holds =>
      rw [last, value]
      exact hbefore.holds (holds ▸ hh)
    | kept lastThen _ last value holds =>
      rw [holds, Bool.and_eq_true] at hh
      rw [last, value]
      rcases lthen.holds hh.1 with ⟨hb, -, -⟩ | ⟨s, hs, he⟩
      · exact hbefore.holds hb
      · exact absurd hs (hfresh s (lastThen.symm.trans he))
    | joined holdsThen holdsElse changed same last value =>
      obtain ⟨s, v, stmt, ht₁, ht₂, hv, hm, ha⟩ := hthen.holds holdsThen
      obtain ⟨s', v', -, he₁, he₂, hv', -, -⟩ := helse.holds holdsElse
      refine ⟨s, v, stmt, last.trans ht₁, value.trans ht₂, ?_, hm, ha⟩
      rcases same with heq | heq
      · exact absurd (lthen.lastStore?_of_same lelse hdisjoint holdsThen holdsElse heq) changed
      · obtain rfl : v = v' := Option.some.inj (ht₂.symm.trans (heq.trans he₂))
        exact hscope v hv hv'
    | dropped _ _ holds => simp [holds] at hh

theorem mergeLoop {scope' : List StmtId} (hbefore : slot.Tracks root scope before)
    (hbody : slot.Tracks root scope' body) (binds : Bool) :
    slot.Tracks root scope (before.mergeLoop body binds) := by
  cases binds with
  | true => constructor <;> simp [SlotState.mergeLoop, SlotState.start]
  | false =>
    cases hs : body.stored with
    | false => exact hbefore.of_sameStores (.mergeLoop hs before)
    | true =>
      constructor <;> simp [SlotState.mergeLoop, hs]
      · exact hbody.store
      · exact hbody.atomic

end Tracks

/-! ## The invariant of a walk -/

/-- What holds at a point of a walk through the tree `root`. -/
structure Point.Inv (slot : Slot) (root : Tree) (x : Point) : Prop where
  shaped : x.tree.Shaped
  nodup : x.tree.ids.Nodup
  sites : ∀ p ∈ x.tree.sites x.scope, p ∈ root.sites []
  fresh : ∀ v ∈ x.scope, v ∉ x.tree.ids
  /-- The latest statements are not still to come. -/
  past : ∀ s, x.state.lastStore? = some s ∨ x.state.lastAtomic? = some s → s ∉ x.tree.ids
  noStores : x.state.region = .noStores → slot.writtenIn x.tree = false
  tracks : slot.Tracks root x.scope x.state

namespace Point.Inv

variable {id : StmtId} {stmt : Stmt} {first second rest t : Tree} {st st' : SlotState}

theorem site (h : Inv slot root ⟨.cons id stmt first second rest, scope, st⟩) :
    (⟨id, stmt, scope⟩ : Site) ∈ root.sites [] :=
  h.sites _ List.mem_cons_self

theorem mem_preorder (h : Inv slot root ⟨.cons id stmt first second rest, scope, st⟩) :
    (id, stmt) ∈ root.preorder :=
  Tree.mem_preorder_of_mem_sites h.site

/-- Into the first block, with knowledge about nothing that is still to come there. -/
theorem intoFirstWith (h : Inv slot root ⟨.cons id stmt first second rest, scope, st⟩)
    (hpast : ∀ s, st'.lastStore? = some s ∨ st'.lastAtomic? = some s → s ∉ first.ids)
    (hno : st'.region = .noStores → slot.writtenIn first = false)
    (htracks : slot.Tracks root scope st') : Inv slot root ⟨first, scope, st'⟩ := by
  have hn := h.nodup
  simp only [Tree.ids_cons, List.nodup_cons, List.nodup_append] at hn
  refine ⟨h.shaped.2.2.1, hn.2.1.1, fun p hp => h.sites p ?_, fun v hv hm => h.fresh v hv ?_,
    hpast, hno, htracks⟩
  · simp [Tree.sites, hp]
  · simp [hm]

theorem intoSecond (h : Inv slot root ⟨.cons id stmt first second rest, scope, st⟩) :
    Inv slot root ⟨second, scope, st⟩ := by
  have hn := h.nodup
  simp only [Tree.ids_cons, List.nodup_cons, List.nodup_append] at hn
  refine ⟨h.shaped.2.2.2.1, hn.2.1.2.1, fun p hp => h.sites p ?_, fun v hv hm => h.fresh v hv ?_,
    fun s hs hm => h.past s hs ?_, fun hr => ?_, h.tracks⟩
  · simp [Tree.sites, hp]
  · simp [hm]
  · simp [hm]
  · have := h.noStores hr
    simp only [writtenIn_cons, Bool.or_eq_false_iff] at this
    exact this.1.2

theorem intoFirst (h : Inv slot root ⟨.cons id stmt first second rest, scope, st⟩) :
    Inv slot root ⟨first, scope, st⟩ := by
  refine h.intoFirstWith (fun s hs hm => h.past s hs ?_) (fun hr => ?_) h.tracks
  · simp [hm]
  · have := h.noStores hr
    simp only [writtenIn_cons, Bool.or_eq_false_iff] at this
    exact this.1.1.2

theorem intoBody (h : Inv slot root ⟨.cons id stmt first second rest, scope, st⟩) :
    Inv slot root ⟨first, scope, .start .mayHaveStores⟩ :=
  h.intoFirstWith (by simp [SlotState.start]) (by simp [SlotState.start]) (.start _)

/-- What one statement makes of the state, if the walks of its blocks keep track. -/
theorem visited (h : Inv slot root ⟨.cons id stmt first second rest, scope, st⟩)
    {isSlot : StmtId → Bool} (hroot : ∀ p ∈ root.sites [], p.Fits isSlot)
    (hfirst : ∀ {st st'}, Inv slot root ⟨first, scope, st⟩ → slot.scan first st = .ok st' →
      slot.Tracks root (first.scopeAfter scope) st')
    (hsecond : ∀ {st st'}, Inv slot root ⟨second, scope, st⟩ → slot.scan second st = .ok st' →
      slot.Tracks root (second.scopeAfter scope) st')
    (hv : slot.visit id stmt first second st = .ok st') : slot.Tracks root scope st' := by
  have hn := h.nodup
  simp only [Tree.ids_cons, List.nodup_cons, List.nodup_append, List.mem_append] at hn
  cases visited_of_visit hv with
  | pass => exact h.tracks
  | @store v ha =>
    refine .storeOf h.mem_preorder ha ((hroot _ h.site).mem_scope ?_) st
    simp [action_eq_store ha, Kind.operands]
  | atomic ha => exact .atomicOf h.mem_preorder ha st
  | load => exact h.tracks.of_sameStores (.load st)
  | branch ha hthen helse =>
    refine h.tracks.mergeIf (hfirst h.intoFirst hthen) (hsecond h.intoSecond helse)
      (scan_leads hthen)
      (scan_leads helse) (fun hst => ?_) (fun s hs hs' => ?_) (fun s hs hm => ?_)
      fun v hv₁ hv₂ => ?_
    · rw [(scan_flags h.intoFirst.shaped h.intoFirst.noStores hthen).1, hst]
      rfl
    · exact hn.2.1.2.2 s hs s hs' rfl
    · exact h.intoFirst.past s (.inl hs) hm
    · rcases Tree.mem_or_mem_of_mem_scopeAfter hv₁ with hv₁ | hv₁
      · exact hv₁
      · rcases Tree.mem_or_mem_of_mem_scopeAfter hv₂ with hv₂ | hv₂
        · exact hv₂
        · exact absurd rfl (hn.2.1.2.2 v hv₁ v hv₂)
  | inner ha hregion hbody =>
    exact h.tracks.of_sameStores (scan_sameStores (h.intoFirst.noStores hregion) hbody)
  | @loop binds ha hbinds hregion bodyEnd hbody =>
    exact h.tracks.mergeLoop (hfirst h.intoBody hbody) binds

/-- Behind a statement. -/
theorem afterOf (h : Inv slot root ⟨.cons id stmt first second rest, scope, st⟩)
    (hv : slot.visit id stmt first second st = .ok st') (htracks : slot.Tracks root scope st') :
    Inv slot root ⟨rest, stmt.scopeAfter id scope, st'⟩ := by
  have hn := h.nodup
  simp only [Tree.ids_cons, List.nodup_cons, List.nodup_append, List.mem_append] at hn
  have hregion := (visit_flags h.shaped h.noStores hv).1
  have hleads := scan_leads ((scan_single id stmt).trans hv)
  have hids : ∀ s, s ∈ (Tree.cons id stmt first second .nil).ids → s ∉ rest.ids := by
    intro s hs hm
    simp only [Tree.ids_cons, Tree.ids_nil, List.append_nil, List.mem_cons, List.mem_append] at hs
    rcases hs with rfl | hs
    · exact hn.1 (.inr hm)
    · exact hn.2.2.2 s hs s hm rfl
  refine ⟨h.shaped.2.2.2.2, hn.2.2.1, fun p hp => h.sites p ?_, fun v hv hm => ?_,
    fun s hs hm => ?_,
    fun hr => ?_, htracks.mono (Tree.subset_scopeAfter stmt id scope)⟩
  · simp [Tree.sites, hp]
  · rcases Tree.mem_scopeAfter.1 hv with hv | ⟨rfl, -⟩
    · exact h.fresh v hv (by simp [hm])
    · exact hn.1 (.inr hm)
  · rcases hs with hs | hs
    · rcases hleads.store with heq | hin
      · exact h.past s (.inl (heq.symm.trans hs)) (by simp [hm])
      · exact hids s (hin s hs) hm
    · rcases hleads.atomic with heq | hin
      · exact h.past s (.inr (heq.symm.trans hs)) (by simp [hm])
      · exact hids s (hin s hs) hm
  · have := h.noStores (hregion.symm.trans hr)
    simp only [writtenIn_cons, Bool.or_eq_false_iff] at this
    exact this.2

variable {isSlot : StmtId → Bool} (hroot : ∀ p ∈ root.sites [], p.Fits isSlot)
include hroot

/-- A walk keeps track of the slot from one end of a tree to the other. -/
theorem scan (h : Inv slot root ⟨t, scope, st⟩) (hs : slot.scan t st = .ok st') :
    slot.Tracks root (t.scopeAfter scope) st' := by
  induction t generalizing scope st st' with
  | nil =>
    obtain rfl := Except.ok.inj hs
    exact h.tracks
  | cons id stmt first second rest ih₁ ih₂ ih₃ =>
    obtain ⟨mid, hv, hr⟩ := scan_cons_eq_ok hs
    exact ih₃ (h.afterOf hv (h.visited hroot ih₁ ih₂ hv)) hr

theorem next {x y : Point} (h : Inv slot root x) (hxy : slot.Next x y) : Inv slot root y := by
  cases hxy with
  | after hv =>
    exact h.afterOf hv (h.visited hroot (fun hi hs => hi.scan hroot hs)
      (fun hi hs => hi.scan hroot hs) hv)
  | first => exact h.intoFirst
  | second => exact h.intoSecond
  | inner => exact h.intoFirst
  | body => exact h.intoBody
  | @again id stmt first second rest scope st bodyEnd binds ha hregion hbody hrewalk =>
    simp only [SlotState.needsRewalk, Bool.and_eq_true, Bool.not_eq_true'] at hrewalk
    have hbinds : binds = false := hrewalk.1.1.1.1
    have hstored : bodyEnd.stored = false := hrewalk.1.1.1.2
    have hwritten : slot.writtenIn first = false := by
      have := (scan_flags h.intoBody.shaped h.intoBody.noStores hbody).1
      rw [hstored] at this
      simpa [SlotState.start] using this.symm
    subst hbinds
    have hsame := SlotState.SameStores.mergeLoop hstored st
    refine h.intoFirstWith (fun s hs => ?_) (fun _ => hwritten)
      ((h.tracks.of_sameStores hsame).withRegion .noStores)
    exact h.intoFirst.past s
      (hs.imp (hsame.lastStore?.symm.trans ·) (hsame.lastAtomic?.symm.trans ·))

theorem reaches {x y : Point} (h : Inv slot root x) (hxy : slot.Reaches x y) :
    Inv slot root y := by
  induction hxy with
  | refl => exact h
  | tail _ hnext ih => exact ih.next hroot hnext

end Point.Inv

/-! ## Where a walk begins -/

/-- A slot of a tree is declared at a site of it, and its walk begins right behind. -/
theorem exists_site_of_mem_slots {t : Tree} (ht : t.Shaped) (hn : t.ids.Nodup)
    (hsites : ∀ p ∈ t.sites scope, p ∈ root.sites []) (hfresh : ∀ v ∈ scope, v ∉ t.ids)
    (h : slot ∈ t.slots) : ∃ stmt scope', (⟨slot.id, stmt, scope'⟩ : Site) ∈ t.sites scope ∧
      stmt.kind = .alloca ∧ slot.type? = stmt.type? ∧
      Point.Inv slot root ⟨slot.following, slot.id :: scope', .start .outside⟩ := by
  induction t generalizing scope with
  | nil => cases h
  | cons id stmt first second rest ih₁ ih₂ ih₃ =>
    simp only [Tree.ids_cons, List.nodup_cons, List.nodup_append, List.mem_append] at hn
    simp only [Tree.ids_cons, List.mem_cons, List.mem_append, not_or] at hfresh
    simp only [Tree.sites, List.mem_cons, List.mem_append] at hsites
    have hnested : slot ∈ first.slots ++ second.slots ++ rest.slots →
        ∃ stmt' scope', (⟨slot.id, stmt', scope'⟩ : Site) ∈
            (Tree.cons id stmt first second rest).sites scope ∧ stmt'.kind = .alloca ∧
          slot.type? = stmt'.type? ∧
          Point.Inv slot root ⟨slot.following, slot.id :: scope', .start .outside⟩ := by
      simp only [Tree.sites, List.mem_cons, List.mem_append]
      rintro ((h | h) | h)
      · obtain ⟨u, sc, hm, hu⟩ := ih₁ ht.2.2.1 hn.2.1.1 (fun p hp => hsites p (by tauto))
          (fun v hv => (hfresh v hv).2.1.1) h
        exact ⟨u, sc, by tauto, hu⟩
      · obtain ⟨u, sc, hm, hu⟩ := ih₂ ht.2.2.2.1 hn.2.1.2.1 (fun p hp => hsites p (by tauto))
          (fun v hv => (hfresh v hv).2.1.2) h
        exact ⟨u, sc, by tauto, hu⟩
      · have hafter : ∀ v ∈ stmt.scopeAfter id scope, v ∉ rest.ids := by
          intro v hv
          rcases Tree.mem_scopeAfter.1 hv with hv | ⟨rfl, -⟩
          · exact (hfresh v hv).2.2
          · exact fun hm => hn.1 (.inr hm)
        obtain ⟨u, sc, hm, hu⟩ := ih₃ ht.2.2.2.2 hn.2.2.1 (fun p hp => hsites p (by tauto)) hafter h
        exact ⟨u, sc, by tauto, hu⟩
    simp only [Tree.slots] at h
    split at h
    · next halloca =>
      rcases List.mem_cons.1 h with rfl | h
      · have hkind : stmt.kind = .alloca := by
          cases hk : stmt.kind <;> simp_all [Kind.isAlloca]
        refine ⟨stmt, scope, List.mem_cons_self, hkind, rfl, ht.2.2.2.2, hn.2.2.1,
          fun p hp => hsites p (.inr (.inr ?_)), fun v hv => ?_, by simp [SlotState.start],
          by simp [SlotState.start], .start _⟩
        · simpa [Stmt.scopeAfter, hkind, Kind.hasValue] using hp
        · rcases List.mem_cons.1 hv with rfl | hv
          · exact fun hm => hn.1 (.inr hm)
          · exact (hfresh v hv).2.2
      · exact hnested h
    · exact hnested h

/-- Where a slot is visible, a statement stands behind its declaration. -/
theorem mem_following_of_mem_scope {t : Tree} (hn : t.ids.Nodup) (hfresh : ∀ v ∈ scope, v ∉ t.ids)
    (h : slot ∈ t.slots) {p : Site} (hp : p ∈ t.sites scope) (hv : slot.id ∈ p.scope) :
    p.id ∈ slot.following.ids := by
  induction t generalizing scope with
  | nil => cases h
  | cons id stmt first second rest ih₁ ih₂ ih₃ =>
    have hout : slot.id ∉ scope := fun hm => hfresh _ hm (subset_of_mem_slots h).1
    simp only [Tree.ids_cons, List.nodup_cons, List.nodup_append, List.mem_append] at hn
    simp only [Tree.ids_cons, List.mem_cons, List.mem_append, not_or] at hfresh
    obtain ⟨hid, ⟨hn₁, hn₂, hd₁⟩, hn₃, hd₂⟩ := hn
    have hafter : ∀ v ∈ stmt.scopeAfter id scope, v ∉ rest.ids := by
      intro v hv
      rcases Tree.mem_scopeAfter.1 hv with hv | ⟨rfl, -⟩
      · exact (hfresh v hv).2.2
      · exact fun hm => hid (.inr hm)
    -- a slot of one part is visible in no other part
    have hpart : ∀ {t : Tree} {scope : List StmtId}, p ∈ t.sites scope → slot.id ∉ scope →
        slot.id ∈ t.ids := by
      intro t scope hp hout
      rcases Tree.mem_scope_of_mem_sites hp hv with hm | ⟨u, hm, -⟩
      · exact absurd hm hout
      · exact Tree.mem_ids.2 ⟨u, hm⟩
    have hlater : slot.id ≠ id → slot.id ∉ stmt.scopeAfter id scope := by
      intro hne hm
      rcases Tree.mem_scopeAfter.1 hm with hm | ⟨heq, -⟩
      · exact hout hm
      · exact hne heq
    have hnested : slot ∈ first.slots ++ second.slots ++ rest.slots →
        p.id ∈ slot.following.ids := by
      simp only [List.mem_append]
      simp only [Tree.sites, List.mem_cons, List.mem_append] at hp
      rintro ((hs | hs) | hs) <;> have hmem := (subset_of_mem_slots hs).1 <;>
        rcases hp with rfl | (hp | hp) | hp
      · exact absurd hv hout
      · exact ih₁ hn₁ (fun v hv => (hfresh v hv).2.1.1) hs hp
      · exact absurd rfl (hd₁ _ hmem _ (hpart hp hout))
      · refine absurd rfl (hd₂ _ (.inl hmem) _ (hpart hp (hlater ?_)))
        rintro rfl
        exact hid (.inl (.inl hmem))
      · exact absurd hv hout
      · exact absurd rfl (hd₁ _ (hpart hp hout) _ hmem)
      · exact ih₂ hn₂ (fun v hv => (hfresh v hv).2.1.2) hs hp
      · refine absurd rfl (hd₂ _ (.inr hmem) _ (hpart hp (hlater ?_)))
        rintro rfl
        exact hid (.inl (.inr hmem))
      · exact absurd hv hout
      · exact absurd rfl (hd₂ _ (.inl (hpart hp hout)) _ hmem)
      · exact absurd rfl (hd₂ _ (.inr (hpart hp hout)) _ hmem)
      · exact ih₃ hn₃ hafter hs hp
    simp only [Tree.slots] at h
    split at h
    · rcases List.mem_cons.1 h with rfl | h
      · simp only [Tree.sites, List.mem_cons, List.mem_append] at hp
        rcases hp with rfl | (hp | hp) | hp
        · exact absurd hv hout
        · exact absurd (.inl (.inl (hpart hp hout))) hid
        · exact absurd (.inl (.inr (hpart hp hout))) hid
        · exact Tree.mem_ids_of_mem_sites hp
      · exact hnested h
    · exact hnested h

/-- The walk behind a slot of the tree `root` comes to a point. -/
def Walks (slot : Slot) (root : Tree) (x : Point) : Prop :=
  ∃ p ∈ root.sites [], p.id = slot.id ∧
    slot.Reaches ⟨slot.following, slot.id :: p.scope, .start .outside⟩ x

theorem Walks.inv {x : Point} (h : slot.Walks root x) (ht : root.Shaped) (hn : root.ids.Nodup)
    {isSlot : StmtId → Bool} (hroot : ∀ p ∈ root.sites [], p.Fits isSlot)
    (hslot : slot ∈ root.slots) : Point.Inv slot root x := by
  obtain ⟨p, hp, hid, hreach⟩ := h
  obtain ⟨stmt, scope, hsite, -, -, hinv⟩ :=
    exists_site_of_mem_slots ht hn (fun _ hp => hp) (by simp) hslot
  obtain rfl := Tree.site_unique hn hp hsite hid
  exact hinv.reaches hroot hreach

/-- An analysis that asks for a rewrite has met a load, or has found something useless at
the end of the walk. -/
theorem analyze_eq_rewrite {used : Bool} {rewrite : Rewrite}
    (h : slot.analyze root used = .error (.rewrite rewrite)) (scope : List StmtId) :
    (∃ x, slot.Reaches ⟨slot.following, scope, .start .outside⟩ x ∧ slot.Asks rewrite x) ∨
      ∃ st, slot.scan slot.following (.start .outside) = .ok st ∧
        leftover? root used st = some rewrite := by
  unfold analyze at h
  cases hs : slot.scan slot.following (.start .outside) with
  | error halt =>
    rw [hs] at h
    obtain rfl : halt = .rewrite rewrite := Except.error.inj h
    exact .inl (reaches_of_halt hs scope)
  | ok st =>
    rw [hs] at h
    refine .inr ⟨st, rfl, ?_⟩
    simp only [bind, Except.bind] at h
    split at h
    · next r hr =>
      cases h
      exact hr
    · cases h

/-- An analysis without a rewrite has walked to the end and has found nothing useless there. -/
theorem analyze_eq_ok {used : Bool} (h : slot.analyze root used = .ok ()) :
    ∃ st, slot.scan slot.following (.start .outside) = .ok st ∧ leftover? root used st = none := by
  unfold analyze at h
  cases hs : slot.scan slot.following (.start .outside) with
  | error halt =>
    rw [hs] at h
    cases h
  | ok st =>
    rw [hs] at h
    refine ⟨st, rfl, ?_⟩
    simp only [bind, Except.bind] at h
    split at h
    · cases h
    · assumption

end Slot

end KernelIR
