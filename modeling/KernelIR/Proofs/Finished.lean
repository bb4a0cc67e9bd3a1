import KernelIR.Proofs.Rejection

/-!
# Finished slots

A slot that offered no rewrite is finished, and no later sweep looks at it again. What the analysis
has shown of such a slot then lasts to the end if the rewrites of other slots keep it
(`Work.Reaches.of_finished`), and at the end every slot of the tree is finished
(`Context.Kept.finished_optimizeSlots`).

These rewrites are exchanges, and none of them takes out a statement that names the slot
(`Context.Kept.not_mem_operands_old`).
-/

namespace KernelIR

namespace Context

variable {c : Context} {t : Tree} {slots : List Slot} {finished : List StmtId}

/-- What the analysis shows of slots holds of all that are finished by a sweep, if it holds of those
that were finished before. -/
theorem sweep_finished {Q : Slot → Prop} (hnodup : (slots.map Slot.id).Nodup)
    (hdone : ∀ slot ∈ slots, slot.analyze t (c.chain slot.id ≠ []) = .ok () → Q slot)
    (hfinished : ∀ slot ∈ slots, slot.id ∈ finished → Q slot) :
    ∀ slot ∈ slots, slot.id ∈ (c.sweep t slots finished).finished → Q slot := by
  induction slots generalizing finished with
  | nil => simp
  | cons slot rest ih =>
    obtain ⟨hnot, hnodup⟩ := List.nodup_cons.1 hnodup
    have ih := fun finished => @ih finished hnodup fun q hq =>
      hdone q (List.mem_cons_of_mem slot hq)
    have hrest := fun q hq => hfinished q (List.mem_cons_of_mem slot hq)
    rw [sweep]
    split
    · next hmem =>
      intro q hq hid
      rcases List.mem_cons.1 hq with rfl | hq
      · exact hfinished q List.mem_cons_self hmem
      · exact ih finished hrest q hq hid
    · split
      · exact hfinished
      · next ha =>
        intro q hq hid
        rcases List.mem_cons.1 hq with rfl | hq
        · exact hdone q List.mem_cons_self ha
        · refine ih (slot.id :: finished) (fun r hr hid => ?_) q hq hid
          rcases List.mem_cons.1 hid with heq | hid
          · exact absurd (heq ▸ List.mem_map_of_mem hr) hnot
          · exact hrest r hr hid

theorem subset_finished_sweep (c : Context) (t : Tree) (slots : List Slot)
    (finished : List StmtId) :
    finished ⊆ (c.sweep t slots finished).finished := by
  induction slots generalizing finished with
  | nil => exact List.Subset.refl _
  | cons slot rest ih =>
    rw [sweep]
    split
    · exact ih finished
    · split
      · exact List.Subset.refl _
      · exact fun s hs => ih (slot.id :: finished) (List.mem_cons_of_mem _ hs)

/-- A sweep that does not end early has finished all slots. -/
theorem mem_finished_of_halt?_eq_none (h : (c.sweep t slots finished).halt? = none) :
    ∀ slot ∈ slots, slot.id ∈ (c.sweep t slots finished).finished := by
  induction slots generalizing finished with
  | nil => simp
  | cons slot rest ih =>
    rw [sweep] at h ⊢
    split at h
    · next hmem =>
      rw [if_pos hmem]
      rintro q (_ | ⟨_, hq⟩)
      · exact subset_finished_sweep c t rest finished hmem
      · exact ih h q hq
    · next hmem =>
      rw [if_neg hmem]
      split at h
      · cases h
      · rintro q (_ | ⟨_, hq⟩)
        · exact subset_finished_sweep c t rest (slot.id :: finished) List.mem_cons_self
        · exact ih h q hq

/-- The slot at which a sweep ends early is not finished. -/
theorem not_mem_finished_of_halt? {s : StmtId} {halt : Halt}
    (h : (c.sweep t slots finished).halt? = some (s, halt)) :
    s ∉ (c.sweep t slots finished).finished := by
  induction slots generalizing finished with
  | nil => cases h
  | cons slot rest ih =>
    rw [sweep] at h ⊢
    split at h
    · next hmem =>
      rw [if_pos hmem]
      exact ih h
    · next hmem =>
      rw [if_neg hmem]
      split at h
      · obtain ⟨rfl, -⟩ : slot.id = s ∧ _ := by simpa using h
        exact hmem
      · exact ih h

variable {root : BlockId} {strict : Bool} {slot q : Slot} {rewrite : Rewrite}

/-- A rewrite on a slot takes out no statement that names another slot. -/
theorem Kept.not_mem_operands_old (h : c.Kept strict root)
    (ha : c.Allows (c.tree root) slot rewrite) (hq : q ∈ (c.tree root).slots) (hne : q.id ≠ slot.id)
    {stmt : Stmt} (hm : (rewrite.old slot.id, stmt) ∈ (c.tree root).preorder) :
    q.id ∉ stmt.kind.operands := by
  obtain ⟨declaration, scope, hsite, halloca, -⟩ := h.exists_site_of_mem_slots hq
  have hslot : c.isSlot q.id = true := by
    rw [isSlot_of_stmt? (stmt?_of_mem_treeAt (Tree.mem_preorder_of_mem_sites hsite)),
      show declaration.kind = .alloca from halloca]
    rfl
  have hload : ∀ {k : Kind}, k.isRegularLoadOf slot.id = true → q.id ∉ k.operands := by
    intro k hregular hop
    cases k with
    | load lanes =>
      rw [show lanes = (List.range lanes.length).map (⟨slot.id, ·⟩) by
        simpa [Kind.isRegularLoadOf] using hregular] at hop
      obtain ⟨_, -, hid⟩ : ∃ a < lanes.length, slot.id = q.id := by
        simpa [Kind.operands] using hop
      exact hne hid.symm
    | _ => simp [Kind.isRegularLoadOf] at hregular
  -- the value of a store or an atomic operation is no slot
  have hvalue : ∀ {v : StmtId}, c.isSlot v = false → q.id ∉ [slot.id, v] := by
    intro v hv hop
    rcases List.mem_pair.1 hop with heq | rfl
    · exact hne heq
    · simp [hv] at hslot
  obtain ⟨p, hp, hpid, rfl⟩ := Tree.exists_site_of_mem_preorder hm []
  have hfits := h.valid.fits p hp
  cases ha with
  | zeroFold hm' _ hregular _ =>
    rw [Tree.stmt_unique h.nodup hm hm']
    exact hload hregular
  | forward hp' _ hregular _ _ =>
    rw [Tree.stmt_unique h.nodup hm (Tree.mem_preorder_of_mem_sites hp')]
    exact hload hregular
  | deadStore hm' haction =>
    have hkind := Slot.action_eq_store haction
    rw [← Tree.stmt_unique h.nodup hm hm'] at hkind
    rw [hkind]
    exact hvalue (hfits.isSlot_of_store hkind).2
  | deadAtomic hm' haction _ =>
    obtain ⟨op, v, hkind⟩ := Slot.action_eq_atomic haction
    rw [← Tree.stmt_unique h.nodup hm hm'] at hkind
    rw [hkind]
    exact hvalue (hfits.isSlot_of_atomic hkind).2
  | deadAlloca hm' hkind _ =>
    rw [Tree.stmt_unique h.nodup hm hm', hkind]
    exact List.not_mem_nil

end Context

namespace Work

variable {root : BlockId} {w w' : Work} {strict : Bool}

/-- A property of slots in a tree that an analysis without a rewrite shows, and that exchanges keep
which do not take out statements that name the slot. -/
structure Lasts (strict : Bool) (root : BlockId) (Q : Slot → Tree → Prop) : Prop where
  shown : ∀ {c : Context} {slot : Slot}, c.Kept strict root → slot ∈ (c.tree root).slots →
    slot.analyze (c.tree root) (c.chain slot.id ≠ []) = .ok () → Q slot (c.tree root)
  keeps : ∀ {c : Context} {slot : Slot} {e : Exchange}, c.Kept strict root →
    slot ∈ (c.tree root).slots → e.Apt (c.tree root) →
    (∀ stmt, (e.old, stmt) ∈ (c.tree root).preorder → slot.id ∉ stmt.kind.operands) →
    Q slot (c.tree root) →
    Q { slot with following := slot.following.exchange e } ((c.tree root).exchange e)

/-- The property holds of the finished slots. -/
def HoldsOfFinished (root : BlockId) (Q : Slot → Tree → Prop) (w : Work) : Prop :=
  ∀ slot ∈ (w.context.tree root).slots, slot.id ∈ w.progress.finished →
    Q slot (w.context.tree root)

variable {Q : Slot → Tree → Prop}

/-- A sweep finishes slots of which the analysis shows the property. -/
theorem HoldsOfFinished.sweep (h : w.HoldsOfFinished root Q) (hw : w.context.Kept strict root)
    (hshown : ∀ slot ∈ (w.context.tree root).slots,
      slot.analyze (w.context.tree root) (w.context.chain slot.id ≠ []) = .ok () →
        Q slot (w.context.tree root)) :
    ∀ slot ∈ (w.context.tree root).slots, slot.id ∈ (w.sweep root).finished →
      Q slot (w.context.tree root) :=
  Context.sweep_finished (Tree.nodup_slots hw.nodup) hshown h

/-- The rewrite of a sweep leaves the property with the slots that are finished, if the exchange
that it comes to does. -/
theorem Makes.holdsOfFinished {slot : Slot} {rewrite : Rewrite}
    (hmakes : Makes root w slot rewrite w') (hw : w.context.Kept strict root) {e : Exchange}
    (he : rewrite.exchange slot.id ⟨w.context.stmts.size⟩
      (w.context.home? (rewrite.old slot.id)) = e)
    (hkeeps : ∀ q ∈ (w.context.tree root).slots, q.id ∈ (w.sweep root).finished → q.id ≠ slot.id →
      Q { q with following := q.following.exchange e } ((w.context.tree root).exchange e)) :
    w'.HoldsOfFinished root Q := by
  have hapt := hw.apt hmakes.allows (w.context.home? (rewrite.old slot.id))
  rw [HoldsOfFinished, hmakes.exchange]
  subst he
  intro q' hq' hfinished
  rw [Tree.slots_exchange hapt (Context.shaped_tree _ _)] at hq'
  obtain ⟨q, hq, rfl⟩ := List.mem_map.1 hq'
  obtain ⟨event, hprogress⟩ := hmakes.progress
  rw [hprogress] at hfinished
  refine hkeeps q (List.mem_filter.1 hq).1 hfinished fun heq => ?_
  exact Context.not_mem_finished_of_halt? hmakes.halt (heq ▸ hfinished)

theorem HoldsOfFinished.step (h : w.HoldsOfFinished root Q) (hQ : Lasts strict root Q)
    (hw : w.context.Kept strict root) (hstep : Step root w w') : w'.HoldsOfFinished root Q := by
  obtain ⟨-, slot, rewrite, hmakes⟩ := hstep.makes hw
  refine hmakes.holdsOfFinished hw rfl fun q hq hfinished hne => ?_
  refine hQ.keeps hw hq (hw.apt hmakes.allows _) (fun stmt hm => ?_)
    (h.sweep hw (fun _ hslot => hQ.shown hw hslot) q hq hfinished)
  rw [Rewrite.old_exchange] at hm
  exact hw.not_mem_operands_old hmakes.allows hq hne hm

theorem Reaches.of_finished (h : Reaches root w w') (hQ : Lasts strict root Q)
    (hw : w.context.Kept strict root) (hstart : w.HoldsOfFinished root Q) :
    w'.HoldsOfFinished root Q := by
  induction h with
  | refl => exact hstart
  | tail hreach hstep ih => exact ih.step hQ (Reaches.kept hreach hw) hstep

end Work

/-- When the optimizer has come to its end, such a property holds of every slot of the tree. -/
theorem Context.Kept.finished_optimizeSlots {c : Context} {root : BlockId} {strict : Bool}
    (h : c.Kept strict root) {Q : Slot → Tree → Prop} (hQ : Work.Lasts strict root Q) :
    ∃ outcome c', KernelIR.optimizeSlots root none c = .ok (outcome, c') ∧ c'.Kept strict root ∧
      ∀ stats, outcome.result = .ok stats → ∀ slot ∈ (c'.tree root).slots,
        Q slot (c'.tree root) := by
  obtain ⟨outcome, w, hrun, hreach, hsettles⟩ := h.optimizeSlots_none
  have hw := hreach.kept h
  have hfinished := hreach.of_finished hQ h fun _ _ hm => absurd hm List.not_mem_nil
  refine ⟨outcome, w.context, hrun, hw, fun stats hstats slot hslot => ?_⟩
  rw [hstats] at hsettles
  cases hsettles with
  | fixpoint hhalt =>
    exact hfinished.sweep hw (fun _ hslot => hQ.shown hw hslot) slot hslot
      (Context.mem_finished_of_halt?_eq_none hhalt slot hslot)

end KernelIR
