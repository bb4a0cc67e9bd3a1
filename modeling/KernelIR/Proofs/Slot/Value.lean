import KernelIR.Proofs.Execution.Frame
import KernelIR.Proofs.Slot.Tracking
import KernelIR.Proofs.Sweep
import KernelIR.Proofs.Text.Resolve

/-!
# What is known about a slot is so

`Slot.Shows` says what a state of a walk claims about a memory : where it reads zero the
slot holds zeros, and where a value can be forwarded the slot holds what this value is at
that time. Executing statements that the walk has passed keeps this (`Shows.scan`), and
an execution of the whole tree shows it in front of every point that the walk comes to,
however often it gets there (`Shows.reaches`). A loop body is the case to look at : it is
entered with any contents at all on the first walk, and on the second one with contents
that no iteration changes.

So the analysis is right about every load that it meets, whenever this load executes
(`contents_of_reaches`).
-/

namespace KernelIR

variable {V : Type}

namespace Slot

/-- What is known about the contents of the slot is so in a memory. -/
structure Shows (slot : Slot) (I : Interpretation V) (st : SlotState) (m : Memory V) : Prop where
  declared : (m.cell? slot.id).isSome = true
  zero : st.readsZero = true → m.contents slot.id = I.zeros slot.type?
  holds : ∀ v, st.forwardable? = some v → m.contents slot.id = m.value v

variable {slot : Slot} {root : Tree} {scope : List StmtId} {I : Interpretation V}
  {st st' : SlotState} {m m' : Memory V} {id : StmtId} {stmt : Stmt}
  {first second rest t : Tree} {budget : Nat}

namespace Shows

/-- Less may be known. -/
theorem of_imp (h : slot.Shows I st m) (hzero : st'.readsZero = true → st.readsZero = true)
    (hholds : ∀ v, st'.forwardable? = some v → st.forwardable? = some v) :
    slot.Shows I st' m :=
  ⟨h.declared, fun hz => h.zero (hzero hz), fun v hv => h.holds v (hholds v hv)⟩

theorem of_sameStores (h : slot.Shows I st m) (hs : SlotState.SameStores st st') :
    slot.Shows I st' m := by
  refine h.of_imp (fun hz => ?_) fun v hv => ?_
  · simpa only [SlotState.readsZero, hs.stored, hs.region] using hz
  · simpa only [SlotState.forwardable?, hs.storeHolds, hs.lastValue?] using hv

/-- The slot and the value that it is known to hold have not changed. -/
theorem frame (h : slot.Shows I st m) (hcell : m'.cell? slot.id = m.cell? slot.id)
    (hvalue : ∀ v, st.forwardable? = some v → m'.value v = m.value v) : slot.Shows I st m' := by
  have hcontents : m'.contents slot.id = m.contents slot.id := by
    simp only [Memory.contents, hcell]
  refine ⟨hcell ▸ h.declared, fun hz => hcontents.trans (h.zero hz), fun v hv => ?_⟩
  rw [hcontents, hvalue v hv, h.holds v hv]

/-- What is known about any contents at all. -/
theorem unknown (h : (m.cell? slot.id).isSome = true) :
    slot.Shows I (.start .mayHaveStores) m := by
  refine ⟨h, fun hz => ?_, fun v hv => ?_⟩
  · simp [SlotState.start, SlotState.readsZero] at hz
  · simp [SlotState.start, SlotState.forwardable?] at hv

end Shows

/-- What is known right behind the declaration. -/
theorem Shows.start (h : m.cell? slot.id = some ⟨I.zeros slot.type?, slot.id⟩) :
    slot.Shows I (.start .outside) m := by
  refine ⟨by simp [h], fun _ => by simp [Memory.contents, h], fun v hv => ?_⟩
  simp [SlotState.start, SlotState.forwardable?] at hv

theorem mem_scope_of_forwardable? (h : slot.Tracks root scope st) {v : StmtId}
    (hv : st.forwardable? = some v) : v ∈ scope := by
  unfold SlotState.forwardable? at hv
  split at hv
  · next hholds =>
    obtain ⟨-, w, -, -, hw, hmem, -⟩ := h.holds hholds
    rwa [← Option.some.inj (hw.symm.trans hv)]
  · cases hv

/-- Statements that do not write the slot keep what is known about it. -/
theorem Shows.run (h : slot.Shows I st m) (hi : Point.Inv slot root ⟨t, scope, st⟩)
    (hslot : slot.id ∈ scope) (hw : slot.writtenIn t = false) :
    slot.Shows I st (t.run I budget m).memory :=
  h.frame (Tree.cell?_run I budget hw (hi.fresh _ hslot)) fun _ hv =>
    Tree.value_run I budget (hi.fresh _ (mem_scope_of_forwardable? hi.tracks hv))

theorem writtenIn_single (ht : (Tree.cons id stmt first second rest).Shaped)
    (hb : ∀ b, slot.action stmt.kind ≠ .branch b) (hl : ∀ b d, slot.action stmt.kind ≠ .loop b d)
    (hw : slot.writes stmt.kind = false) :
    slot.writtenIn (.cons id stmt first second .nil) = false := by
  obtain ⟨rfl, rfl⟩ := eq_nil_of_action ht hb hl
  simp [writtenIn_cons, hw]

/-- In front of one statement alone. -/
theorem Point.Inv.single (h : Inv slot root ⟨.cons id stmt first second rest, scope, st⟩) :
    Inv slot root ⟨.cons id stmt first second .nil, scope, st⟩ := by
  obtain ⟨hid₁, hid₂, hf, hs, -⟩ := h.shaped
  have hsub : (Tree.cons id stmt first second .nil).ids ⊆
      (Tree.cons id stmt first second rest).ids := by
    simp only [Tree.ids_cons, Tree.ids_nil]
    grind
  have hn := h.nodup
  simp only [Tree.ids_cons, List.nodup_cons, List.nodup_append, List.mem_append] at hn
  refine ⟨⟨hid₁, hid₂, hf, hs, trivial⟩, ?_, fun p hp => h.sites p ?_,
    fun v hv hm => h.fresh v hv (hsub hm), fun s hl hm => h.past s hl (hsub hm),
    fun hr => ?_, h.tracks⟩
  · simp only [Tree.ids_cons, Tree.ids_nil, List.append_nil, List.nodup_cons, List.mem_append]
    exact ⟨fun hm => hn.1 (.inl hm), List.nodup_append.2 hn.2.1⟩
  · simp only [Tree.sites, List.append_nil, List.mem_cons] at hp ⊢
    exact hp.imp_right fun hp => List.mem_append_left _ hp
  · have := h.noStores hr
    simp only [writtenIn_cons, writtenIn_nil, Bool.or_eq_false_iff, and_true] at this ⊢
    exact this.1

namespace Shows

/-- What is known behind a statement is so when it has been executed. -/
theorem visit (h : slot.Shows I st m)
    (hi : Point.Inv slot root ⟨.cons id stmt first second rest, scope, st⟩)
    (hslot : slot.id ∈ scope)
    (hfirst : ∀ {st st' m}, Point.Inv slot root ⟨first, scope, st⟩ → slot.Shows I st m →
      slot.scan first st = .ok st' → (first.run I budget m).signal = .normal →
      slot.Shows I st' (first.run I budget m).memory)
    (hsecond : ∀ {st st' m}, Point.Inv slot root ⟨second, scope, st⟩ → slot.Shows I st m →
      slot.scan second st = .ok st' → (second.run I budget m).signal = .normal →
      slot.Shows I st' (second.run I budget m).memory)
    (hv : slot.visit id stmt first second st = .ok st')
    (hn : ((Tree.cons id stmt first second .nil).run I budget m).signal = .normal) :
    slot.Shows I st' ((Tree.cons id stmt first second .nil).run I budget m).memory := by
  have hdeclared := Tree.isSome_cell?_run I budget (t := .cons id stmt first second .nil) h.declared
  have hleaf := @writtenIn_single slot _ _ _ _ _ hi.shaped
  cases visited_of_visit hv with
  | pass ha =>
    exact h.run hi.single hslot (hleaf (by simp [ha]) (by simp [ha]) (by simp [writes, ha]))
  | @store v ha =>
    have hk := action_eq_store ha
    have hne : (m.cell? slot.id).map (fun _ => (⟨m.value v, id⟩ : Cell V)) =
      some ⟨m.value v, id⟩ := by
      obtain ⟨cell, hcell⟩ := Option.isSome_iff_exists.1 h.declared
      simp [hcell]
    rw [Tree.run_single]
    refine ⟨?_, fun hz => ?_, fun w hw => ?_⟩
    · rwa [Tree.run_single] at hdeclared
    · simp [SlotState.store, SlotState.readsZero] at hz
    · obtain rfl : v = w := by simpa [SlotState.store, SlotState.forwardable?] using hw
      simp [Interpretation.node, Interpretation.exec, hk, Memory.contents, Memory.cell?_write, hne]
  | atomic ha =>
    refine ⟨hdeclared, fun hz => ?_, fun w hw => ?_⟩
    · simp [SlotState.atomic, SlotState.readsZero] at hz
    · simp [SlotState.atomic, SlotState.forwardable?] at hw
  | load ha =>
    exact (h.run hi.single hslot (hleaf (by simp [ha]) (by simp [ha])
      (by simp [writes, ha]))).of_sameStores (.load st)
  | @branch ha thenState elseState hthen helse =>
    obtain ⟨cond, _, _, _, _, hk, -⟩ := action_eq_branch ha
    have hids := hi.nodup
    simp only [Tree.ids_cons, List.nodup_cons, List.nodup_append, List.mem_append] at hids
    have hflags := scan_flags hi.intoFirst.shaped hi.intoFirst.noStores hthen
    have hzero : (st.mergeIf thenState elseState).readsZero = true →
        thenState.readsZero = true ∧ elseState.readsZero = true := by
      simp only [SlotState.readsZero, SlotState.mergeIf_stored, SlotState.mergeIf_region,
        scan_region hthen, scan_region helse]
      grind
    have hvalue : ∀ v, (st.mergeIf thenState elseState).forwardable? = some v →
        thenState.forwardable? = some v ∧ elseState.forwardable? = some v := by
      refine fun v hv => (scan_leads hthen).forwardable?_of_mergeIf (scan_leads helse)
        (fun s hs hs' => hids.2.1.2.2 s hs s hs' rfl)
        (fun s hs => ⟨hi.intoFirst.past s (.inl hs), hi.intoSecond.past s (.inl hs)⟩)
        (fun hstored => (hi.tracks.idle ?_).2.2) hv
      rw [SlotState.mergeIf_stored, hflags.1] at hstored
      grind
    rw [Tree.run_single] at hn ⊢
    simp only [Interpretation.node, hk] at hn ⊢
    split at hn
    · next hc =>
      rw [if_pos hc]
      exact (hfirst hi.intoFirst h hthen hn).of_imp (fun hz => (hzero hz).1) fun v hv =>
        (hvalue v hv).1
    · next hc =>
      rw [if_neg hc]
      exact (hsecond hi.intoSecond h helse hn).of_imp (fun hz => (hzero hz).2)
        fun v hv => (hvalue v hv).2
  | inner ha hregion hbody =>
    exact (h.run hi.single hslot (hi.single.noStores hregion)).of_sameStores
      (scan_sameStores (hi.intoFirst.noStores hregion) hbody)
  | @loop binds ha hbinds hregion bodyEnd hbody =>
    -- only a body without stores leaves anything to show
    have hstored : bodyEnd.stored = slot.writtenIn first := by
      have := (scan_flags hi.intoBody.shaped hi.intoBody.noStores hbody).1
      simpa [SlotState.start] using this
    by_cases hw : slot.writtenIn (.cons id stmt first second .nil) = false
    · have hfree := hw
      simp only [writtenIn_cons, Bool.or_eq_false_iff] at hfree
      obtain rfl : binds = false := by
        have := hfree.1.1.1
        unfold writes at this
        rw [ha] at this
        cases binds with
        | false => rfl
        | true => cases this
      exact (h.run hi.single hslot hw).of_sameStores (.mergeLoop (hstored.trans hfree.1.1.2) st)
    · have hsecond := hi.shaped.2.1 (@secondBlock?_of_action slot _ (by simp [ha]))
      have hany : binds = true ∨ bodyEnd.stored = true := by
        rw [hstored]
        simp only [writtenIn_cons, hsecond, writtenIn_nil, writes, ha] at hw
        cases binds with
        | false => exact .inr (by simpa using hw)
        | true => exact .inl rfl
      refine ⟨hdeclared, fun hz => ?_, fun v hv => ?_⟩
      · simp only [SlotState.readsZero, SlotState.mergeLoop_stored] at hz
        rcases hany with h | h <;> simp [h] at hz
      · rcases hany with h | h
        · simp [h, SlotState.mergeLoop, SlotState.start, SlotState.forwardable?] at hv
        · cases binds <;>
            simp [h, SlotState.mergeLoop, SlotState.start, SlotState.forwardable?] at hv

variable {isSlot : StmtId → Bool} (hroot : ∀ p ∈ root.sites [], p.Fits isSlot)
include hroot

/-- What is known at the end of a walk is so when its statements have been executed. -/
theorem scan (h : slot.Shows I st m) (hi : Point.Inv slot root ⟨t, scope, st⟩)
    (hslot : slot.id ∈ scope) (hs : slot.scan t st = .ok st')
    (hn : (t.run I budget m).signal = .normal) : slot.Shows I st' (t.run I budget m).memory := by
  induction t generalizing scope st st' m with
  | nil =>
    obtain rfl := Except.ok.inj hs
    exact h
  | cons id stmt first second rest ih₁ ih₂ ih₃ =>
    obtain ⟨mid, hv, hr⟩ := scan_cons_eq_ok hs
    rw [Tree.run_cons] at hn ⊢
    have hnode : ((Tree.cons id stmt first second .nil).run I budget m).signal = .normal := by
      by_contra hne
      rw [Result.andThen_of_ne hne] at hn
      exact hne hn
    rw [Result.andThen_normal hnode] at hn ⊢
    have hi' : Point.Inv slot root ⟨rest, stmt.scopeAfter id scope, mid⟩ :=
      hi.next hroot (.after hv)
    exact ih₃ (h.visit hi hslot (fun hi h hs hn => ih₁ h hi hslot hs hn)
      (fun hi h hs hn => ih₂ h hi hslot hs hn) hv hnode) hi'
      (Tree.subset_scopeAfter stmt id scope hslot) hr hn

end Shows

/-! ## Points in an execution -/

theorem Next.ids_subset {x y : Point} (h : slot.Next x y) : y.tree.ids ⊆ x.tree.ids := by
  cases h <;> simp only [Tree.ids_cons] <;> grind

theorem Reaches.ids_subset {x y : Point} (h : slot.Reaches x y) : y.tree.ids ⊆ x.tree.ids := by
  induction h with
  | refl => exact List.Subset.refl _
  | tail _ hn ih => exact List.Subset.trans hn.ids_subset ih

theorem Next.scope_subset {x y : Point} (h : slot.Next x y) : x.scope ⊆ y.scope := by
  cases h with
  | after => exact Tree.subset_scopeAfter _ _ _
  | _ => exact List.Subset.refl _

/-- A loop leaves a slot that is not among its counters. -/
theorem Shows.write_counter (h : slot.Shows I st m) {masked : Bool}
    (ha : slot.action stmt.kind = .loop masked false) {s : StmtId} (hs : s ∈ stmt.kind.counters)
    (contents : List V) : slot.Shows I st (m.write id s contents) := by
  have hne : slot.id ≠ s := by
    rintro rfl
    have hw := writes_eq_true_iff.2 (stmt.kind.counters_subset_written hs)
    unfold writes at hw
    rw [ha] at hw
    cases hw
  refine h.frame ?_ fun v _ => rfl
  rw [Memory.cell?_write, if_neg hne]

variable {isSlot : StmtId → Bool}

/-- In front of every next point that an execution comes to, what is known there is so. -/
theorem Shows.next {x y : Point} (h : slot.Shows I x.state m) (hi : Point.Inv slot root x)
    (hroot : ∀ p ∈ root.sites [], p.Fits isSlot) (hslot : slot.id ∈ x.scope) (hxy : slot.Next x y)
    {reader : StmtId} {u : Stmt} {n : Memory V} (hreader : reader ∈ y.tree.ids)
    (ho : .reached reader u n ∈ (x.tree.run I budget m).observations) :
    ∃ m₁, slot.Shows I y.state m₁ ∧
      .reached reader u n ∈ (y.tree.run I budget m₁).observations := by
  have hinv := hi.next hroot hxy
  -- all cases but the first stay in the first statement
  have hnested : ∀ {id stmt first second rest},
      (Tree.cons id stmt first second rest).ids.Nodup →
      .reached reader u n ∈ ((Tree.cons id stmt first second rest).run I budget m).observations →
      reader ∈ first.ids ∨ reader ∈ second.ids →
      .reached reader u n ∈
        ((Tree.cons id stmt first second .nil).run I budget m).observations := by
    intro id stmt first second rest hids ho hreader
    simp only [Tree.ids_cons, List.nodup_cons, List.nodup_append, List.mem_append] at hids
    rcases mem_run_cons ho with ho | ⟨-, ho⟩
    · exact ho
    · exact absurd rfl (hids.2.2.2 reader hreader reader (Tree.mem_ids_of_reached I budget ho))
  have hbranch : ∀ {id stmt first second rest cond a b d e},
      stmt.kind = .branch cond a b d e → (Tree.cons id stmt first second rest).ids.Nodup →
      .reached reader u n ∈ ((Tree.cons id stmt first second rest).run I budget m).observations →
      reader ∈ first.ids ∨ reader ∈ second.ids →
      .reached reader u n ∈ (first.run I budget m).observations ∨
        .reached reader u n ∈ (second.run I budget m).observations := by
    intro id stmt first second rest cond a b d e hk hids ho hreader
    have ho := hnested hids ho hreader
    simp only [Tree.ids_cons, List.nodup_cons, List.mem_append] at hids
    rw [Tree.run_single, List.mem_cons] at ho
    rcases ho with heq | ho
    · obtain ⟨rfl, -⟩ := Observation.reached.inj heq
      exact absurd (.inl hreader) hids.1
    · simp only [Interpretation.node, hk] at ho
      split at ho
      · exact .inl ho
      · exact .inr ho
  have hbody : ∀ {id stmt first second rest} {p : Prop},
      (Tree.cons id stmt first second rest).ids.Nodup → reader ∈ first.ids →
      (reader = id ∧ u = stmt) ∨ p → p := by
    intro id stmt first second rest p hids hreader h
    simp only [Tree.ids_cons, List.nodup_cons, List.mem_append] at hids
    refine h.resolve_left ?_
    rintro ⟨rfl, -⟩
    exact hids.1 (.inl (.inl hreader))
  have hids := hi.nodup
  cases hxy with
  | @after id stmt first second rest scope st st' hv =>
    rcases mem_run_cons ho with ho | ⟨hn, ho⟩
    · have hmem := Tree.mem_ids_of_reached I budget ho
      simp only [Tree.ids_cons, Tree.ids_nil, List.append_nil, List.nodup_cons, List.nodup_append,
        List.mem_cons, List.mem_append] at hids hmem
      rcases hmem with rfl | hmem
      · exact absurd (.inr hreader) hids.1
      · exact absurd rfl (hids.2.2.2 reader hmem reader hreader)
    · exact ⟨_, h.visit hi hslot (fun hi h => h.scan hroot hi hslot)
        (fun hi h => h.scan hroot hi hslot) hv hn, ho⟩
  | @first id stmt first second rest scope st ha =>
    obtain ⟨cond, _, _, _, _, hk, -⟩ := action_eq_branch ha
    have ho := hbranch hk hids ho (.inl hreader)
    simp only [Tree.ids_cons, List.nodup_cons, List.nodup_append, List.mem_append] at hids
    rcases ho with ho | ho
    · exact ⟨m, h, ho⟩
    · exact absurd rfl (hids.2.1.2.2 reader hreader reader (Tree.mem_ids_of_reached I budget ho))
  | @second id stmt first second rest scope st thenState ha hthen =>
    obtain ⟨cond, _, _, _, _, hk, -⟩ := action_eq_branch ha
    have ho := hbranch hk hids ho (.inr hreader)
    simp only [Tree.ids_cons, List.nodup_cons, List.nodup_append, List.mem_append] at hids
    rcases ho with ho | ho
    · exact absurd rfl (hids.2.1.2.2 reader (Tree.mem_ids_of_reached I budget ho) reader hreader)
    · exact ⟨m, h, ho⟩
  | inner ha hregion =>
    exact hbody hids hreader (exists_of_reached_loop ha
      (fun m hm => hm.run hinv hslot (hinv.noStores hregion))
      (fun s hs contents m hm => hm.write_counter ha hs contents) h
      (hnested hids ho (.inl hreader)))
  | body ha hbinds hregion =>
    refine hbody hids hreader (exists_of_reached_loop ha
      (fun m hm => .unknown (Tree.isSome_cell?_run I budget hm.declared))
      (fun s hs contents m hm => .unknown ?_) (.unknown h.declared)
      (hnested hids ho (.inl hreader)))
    rcases m.cell?_write_cases _ slot.id s contents with heq | ⟨-, -, heq⟩
    · rw [heq]
      exact hm.declared
    · simp [heq]
  | @again id stmt first second rest scope st bodyEnd binds ha hregion hscan hrewalk =>
    have hrewalk' := hrewalk
    simp only [SlotState.needsRewalk, Bool.and_eq_true, Bool.not_eq_true',
      Bool.or_eq_true] at hrewalk'
    obtain ⟨⟨⟨⟨rfl, hstored⟩, -⟩, -⟩, hknown⟩ := hrewalk'
    have hsame := SlotState.SameStores.mergeLoop hstored st
    -- contents that are known in front of the loop are so for every iteration
    have hshows : slot.Shows I { st.mergeLoop bodyEnd false with region := .noStores } m := by
      refine h.of_imp (fun hz => ?_) fun v hv => ?_
      · rcases hknown with hknown | hknown
        · exact hknown
        · simp only [SlotState.readsZero, hsame.stored, Bool.and_eq_true, Bool.not_eq_true'] at hz
          have hidle : st.storeHolds = false := (hi.tracks.idle hz.1).2.2
          simp [hidle] at hknown
      · simpa only [SlotState.forwardable?, hsame.storeHolds, hsame.lastValue?] using hv
    exact hbody hids hreader (exists_of_reached_loop ha
      (fun m hm => hm.run hinv hslot (hinv.noStores rfl))
      (fun s hs contents m hm => hm.write_counter ha hs contents) hshows
      (hnested hids ho (.inl hreader)))

theorem Shows.reaches {x y : Point} (h : slot.Shows I x.state m) (hi : Point.Inv slot root x)
    (hroot : ∀ p ∈ root.sites [], p.Fits isSlot) (hslot : slot.id ∈ x.scope)
    (hxy : slot.Reaches x y) {reader : StmtId} {u : Stmt} {n : Memory V}
    (hreader : reader ∈ y.tree.ids)
    (ho : .reached reader u n ∈ (x.tree.run I budget m).observations) :
    ∃ m₁, slot.Shows I y.state m₁ ∧
      .reached reader u n ∈ (y.tree.run I budget m₁).observations := by
  induction hxy using Relation.ReflTransGen.head_induction_on generalizing m with
  | refl => exact ⟨m, h, ho⟩
  | head hxz hzy ih =>
    obtain ⟨m₁, h₁, ho₁⟩ := h.next hi hroot hslot hxz (Reaches.ids_subset hzy hreader) ho
    exact ih h₁ (hi.next hroot hxz) (hxz.scope_subset hslot) ho₁

/-- What the walk behind a slot knows in front of a statement is so in every memory in which
this statement is reached. -/
theorem shows_of_reached (hshaped : root.Shaped) (hnodup : root.ids.Nodup)
    (hroot : ∀ p ∈ root.sites [], p.Fits isSlot) (h : slot ∈ root.slots)
    (hwalk : slot.Walks root ⟨.cons id stmt first second rest, scope, st⟩) {u : Stmt}
    {n : Memory V} (ho : .reached id u n ∈ (root.run I budget m).observations) :
    slot.Shows I st n := by
  have hpoint := hwalk.inv hshaped hnodup hroot h
  obtain ⟨p, hp, hid, hreach⟩ := hwalk
  have hinv := Walks.inv ⟨p, hp, hid, .refl⟩ hshaped hnodup hroot h
  have hhead : id ∈ (Tree.cons id stmt first second rest).ids := by simp
  obtain ⟨m₀, h₀, ho₀⟩ :=
    exists_declared_of_mem_slots hnodup h (Reaches.ids_subset hreach hhead) ho
  obtain ⟨m₁, h₁, ho₁⟩ :=
    (Shows.start h₀).reaches hinv hroot List.mem_cons_self hreach hhead ho₀
  obtain ⟨-, rfl⟩ := eq_of_reached_head hpoint.nodup ho₁
  exact h₁

end Slot

/-- The analysis of a verified kernel is right. In the tree of any sweep, whatever the walk
behind a slot knows in front of a statement, such as a load of the slot, is so each time
that this statement executes : the slot holds zeros if it is known to read zero, and
otherwise a value that can be forwarded, which is visible to the statement, is what the
slot holds. -/
theorem contents_of_reaches {c₀ c : Context} {text : List Char} {kernel : Kernel} (h₀ : Parsed c₀)
    (hparse : parseKernel text c₀ = .ok (.ok kernel, c)) (hverify : c.verify kernel = .ok ())
    {w : Work} (hw : (Work.start c).Reaches kernel.body w) {slot : Slot}
    (hslot : slot ∈ (w.context.tree kernel.body).slots) {load : StmtId} {stmt : Stmt}
    {first second rest : Tree} {scope : List StmtId} {st : SlotState}
    (hwalk : slot.Walks (w.context.tree kernel.body)
      ⟨.cons load stmt first second rest, scope, st⟩) :
    ⟨load, stmt, scope⟩ ∈ (w.context.tree kernel.body).sites [] ∧
      (∀ v, st.forwardable? = some v → v ∈ scope) ∧
      ∀ (I : Interpretation V) (budget : Nat) (m n : Memory V),
        .reached load stmt n ∈ ((w.context.tree kernel.body).run I budget m).observations →
        (st.readsZero = true → n.contents slot.id = I.zeros slot.type?) ∧
          (st.readsZero = false → ∀ v, st.forwardable? = some v →
            n.contents slot.id = n.value v) := by
  have hsound := hw.sound (h₀.tidy.sound hparse hverify)
  have hshaped := Context.shaped_tree w.context kernel.body
  have hpoint := hwalk.inv hshaped hsound.nodup hsound.valid.fits hslot
  refine ⟨hpoint.site, fun v hv => Slot.mem_scope_of_forwardable? hpoint.tracks hv,
    fun I budget m n ho => ?_⟩
  have hshows := Slot.shows_of_reached hshaped hsound.nodup hsound.valid.fits hslot hwalk ho
  exact ⟨hshows.zero, fun _ => hshows.holds⟩

namespace LoopKernel

/-- A kernel with a loop that reads what was stored in front of it. -/
def text : List Char :=
  "kernel @k \x7b %a = alloca : i32 %v = arg 0 : i32 local_store %a, %v while \x7b
    %c = arg 1 : u1 while_control %c %x = local_load %a : i32 print %x \x7d \x7d".toList

def load : Stmt :=
  ⟨.load [⟨⟨0⟩, 0⟩], some ⟨.i32, 1⟩, some ⟨1⟩⟩

/-- What the text is parsed to. -/
def context : Context where
  stmts := #[⟨.alloca, some ⟨.i32, 1⟩, some ⟨0⟩⟩, ⟨.arg 0, some ⟨.i32, 1⟩, some ⟨0⟩⟩,
    ⟨.store ⟨0⟩ ⟨1⟩, none, some ⟨0⟩⟩, ⟨.arg 1, some ⟨.u1, 1⟩, some ⟨1⟩⟩,
    ⟨.leave ⟨3⟩, none, some ⟨1⟩⟩, load, ⟨.print ⟨5⟩, none, some ⟨1⟩⟩,
    ⟨.loop none ⟨1⟩, none, some ⟨0⟩⟩]
  blocks := #[⟨[⟨0⟩, ⟨1⟩, ⟨2⟩, ⟨7⟩], none⟩, ⟨[⟨3⟩, ⟨4⟩, ⟨5⟩, ⟨6⟩], some ⟨7⟩⟩]
  uses := [⟨⟨0⟩, ⟨2⟩, 0⟩, ⟨⟨1⟩, ⟨2⟩, 1⟩, ⟨⟨3⟩, ⟨4⟩, 0⟩, ⟨⟨0⟩, ⟨5⟩, 0⟩, ⟨⟨5⟩, ⟨6⟩, 0⟩]

theorem parse : parseKernel text .empty = .ok (.ok ⟨"k", ⟨0⟩⟩, context) := by decide +kernel

theorem verify : context.verify ⟨"k", ⟨0⟩⟩ = .ok () := by decide +kernel

def slot : Slot :=
  ⟨⟨0⟩, some ⟨.i32, 1⟩, [⟨1⟩, ⟨2⟩, ⟨7⟩].foldr (context.graft (context.treeAt 1)) .nil⟩

/-- Every condition holds. -/
def always : Interpretation Nat where
  blank := 0
  zero _ := 0
  const _ _ _ := 0
  arg index _ _ := index + 1
  binary _ _ _ _ _ := 0
  atomic _ _ _ _ := 0
  truth _ := true
  range _ _ := []
  tuples _ := []
  const_zero _ _ _ := rfl

end LoopKernel

open LoopKernel in
/-- The load in the loop is met twice, and the second time with a value that it reads. -/
theorem contents_of_reaches_loop : parseKernel text .empty = .ok (.ok ⟨"k", ⟨0⟩⟩, context) ∧
    context.verify ⟨"k", ⟨0⟩⟩ = .ok () ∧
    ∃ n, .reached ⟨5⟩ load n ∈ ((context.tree ⟨0⟩).run always 1 .empty).observations ∧
      n.contents ⟨0⟩ = n.value ⟨1⟩ := by
  have hslot : slot ∈ (context.tree ⟨0⟩).slots := .head _
  have hsite : (⟨⟨0⟩, ⟨.alloca, some ⟨.i32, 1⟩, some ⟨0⟩⟩, []⟩ : Site) ∈
      (context.tree ⟨0⟩).sites [] := .head _
  have hbody : slot.scan ([⟨3⟩, ⟨4⟩, ⟨5⟩, ⟨6⟩].foldr (context.graft (context.treeAt 0)) .nil)
      (.start .mayHaveStores) = .ok (SlotState.start .mayHaveStores).load := rfl
  have hreach : slot.Reaches ⟨slot.following, [⟨0⟩], .start .outside⟩
      ⟨.cons ⟨5⟩ load .nil .nil
        ([⟨6⟩].foldr (context.graft (context.treeAt 0)) .nil), [⟨3⟩, ⟨1⟩, ⟨0⟩],
        ((SlotState.start .noStores).store ⟨2⟩ ⟨1⟩).load⟩ :=
    .head (.after rfl) (.head (.after rfl) (.head (.again rfl (by decide) hbody rfl)
      (.head (.after rfl) (.head (.after rfl) .refl))))
  obtain ⟨-, -, hread⟩ := contents_of_reaches .empty parse verify (w := .start context) .refl
    hslot ⟨_, hsite, rfl, hreach⟩
  obtain ⟨n, hn⟩ : ∃ n,
    .reached ⟨5⟩ load n ∈ ((context.tree ⟨0⟩).run always 1 .empty).observations :=
    ⟨_, .tail _ (.tail _ (.tail _ (.tail _ (.tail _ (.tail _ (.head _))))))⟩
  exact ⟨parse, verify, n, hn, (hread always 1 .empty n hn).2 rfl _ rfl⟩

end KernelIR
