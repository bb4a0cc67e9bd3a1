import KernelIR.Proofs.Slot.Rewrite

/-!
# Sweeps

Between two sweeps the work consists of the progress so far and the context (`Work`).
`Work.Step` is a sweep that makes a rewrite, and `Work.Reaches` any number of them. What
a step comes to is said once, by `Work.Makes`, and every step keeps what the next one relies
on (`Work.Step.makes`). Whatever the limit of sweeps is, the optimizer goes from step to step
until it stops, and nothing is refused on the way (`Kept.sweeps`).
-/

namespace KernelIR

/-- The work between two sweeps. -/
structure Work where
  progress : Progress
  context : Context

namespace Work

/-- The work in front of the first sweep. -/
def start (c : Context) : Work :=
  ⟨.start, c⟩

/-- What the next sweep comes to. -/
def sweep (root : BlockId) (w : Work) : Sweep :=
  w.context.sweep (w.context.tree root) (w.context.tree root).slots w.progress.finished

/-- The progress after a sweep that made a rewrite. -/
def advance (root : BlockId) (w : Work) (rewrite : Rewrite) (event : Event) : Progress :=
  let stats := { w.progress.stats with sweeps := w.progress.stats.sweeps + 1 }
  ⟨(w.sweep root).finished,
    w.progress.events ++ (w.sweep root).events ++ [event, .restarting rewrite stats.sweeps],
    stats.record rewrite⟩

/-- A sweep that makes a rewrite on a slot. -/
inductive Step (root : BlockId) : Work → Work → Prop where
  | mk {w : Work} {slot : StmtId} {rewrite : Rewrite} {event : Event} {c' : Context}
    (halt : (w.sweep root).halt? = some (slot, .rewrite rewrite))
    (apply : rewrite.apply slot w.context = .ok (event, c')) :
    Step root w ⟨w.advance root rewrite event, c'⟩

/-- Any number of sweeps that make rewrites. -/
def Reaches (root : BlockId) : Work → Work → Prop :=
  Relation.ReflTransGen (Step root)

end Work

namespace Context

variable {c c' : Context} {root : BlockId}

/-- A sweep ends early at a slot that is not finished and whose analysis says so. -/
theorem sweep_halt {t : Tree} {slots : List Slot} {finished : List StmtId} {s : StmtId}
    {halt : Halt} (h : (c.sweep t slots finished).halt? = some (s, halt)) :
    ∃ slot ∈ slots, slot.id = s ∧ slot.id ∉ finished ∧
      slot.analyze t (c.chain slot.id ≠ []) = .error halt := by
  induction slots generalizing finished with
  | nil => cases h
  | cons slot rest ih =>
    rw [sweep] at h
    split at h
    · obtain ⟨q, hq, hid, hnot, ha⟩ := ih h
      exact ⟨q, List.mem_cons_of_mem slot hq, hid, hnot, ha⟩
    · next hnot =>
      split at h
      · next halt' ha =>
        obtain ⟨rfl, rfl⟩ : slot.id = s ∧ halt' = halt := by simpa using h
        exact ⟨slot, List.mem_cons_self, rfl, hnot, ha⟩
      · obtain ⟨q, hq, hid, hq', ha⟩ := ih h
        exact ⟨q, List.mem_cons_of_mem slot hq, hid,
          fun hm => hq' (List.mem_cons_of_mem slot.id hm), ha⟩

end Context

namespace Work

variable {root : BlockId} {w w' : Work} {strict : Bool}

/-- A sweep makes this rewrite on this slot. -/
structure Makes (root : BlockId) (w : Work) (slot : Slot) (rewrite : Rewrite) (w' : Work) :
    Prop where
  mem_slots : slot ∈ (w.context.tree root).slots
  unfinished : slot.id ∉ w.progress.finished
  halt : (w.sweep root).halt? = some (slot.id, .rewrite rewrite)
  asked : slot.analyze (w.context.tree root) (w.context.chain slot.id ≠ []) =
    .error (.rewrite rewrite)
  allows : w.context.Allows (w.context.tree root) slot rewrite
  progress : ∃ event, w'.progress = w.advance root rewrite event
  tree : w'.context.tree root = rewrite.onTree slot.id ⟨w.context.stmts.size⟩
    (w.context.home? (rewrite.old slot.id)) (w.context.tree root)

/-- The rewrite that a sweep asks for is made. -/
theorem makes_of_halt (hw : w.context.Kept strict root) {s : StmtId} {rewrite : Rewrite}
    (hhalt : (w.sweep root).halt? = some (s, .rewrite rewrite)) :
    ∃ slot event c', rewrite.apply s w.context = .ok (event, c') ∧ c'.Kept strict root ∧
      Makes root w slot rewrite ⟨w.advance root rewrite event, c'⟩ := by
  obtain ⟨slot, hslot, rfl, hnot, ha⟩ := Context.sweep_halt hhalt
  have hallows := hw.allows hslot ha
  obtain ⟨event, c', happly, hkept, htree⟩ := hw.apply hallows
  exact ⟨slot, event, c', happly, hkept, hslot, hnot, hhalt, ha, hallows, ⟨event, rfl⟩, htree⟩

theorem Step.makes (h : Step root w w') (hw : w.context.Kept strict root) :
    w'.context.Kept strict root ∧ ∃ slot rewrite, Makes root w slot rewrite w' := by
  cases h with
  | mk halt apply =>
    obtain ⟨slot, event, c', happly, hkept, hmakes⟩ := makes_of_halt hw halt
    obtain ⟨rfl, rfl⟩ := Prod.mk.inj (Except.ok.inj (apply.symm.trans happly))
    exact ⟨hkept, slot, _, hmakes⟩

theorem Reaches.kept (h : Reaches root w w') (hw : w.context.Kept strict root) :
    w'.context.Kept strict root := by
  induction h with
  | refl => exact hw
  | tail _ hstep ih => exact (hstep.makes ih).1

theorem Step.sound (h : Step root w w') (hw : w.context.Sound root) : w'.context.Sound root :=
  (h.makes hw.kept).1.sound

theorem Reaches.sound (h : Reaches root w w') (hw : w.context.Sound root) :
    w'.context.Sound root :=
  (h.kept hw.kept).sound

end Work

namespace Work

/-- The counts of work that no sweep can go on with. -/
def final (w : Work) : Stats :=
  { w.progress.stats with sweeps := w.progress.stats.sweeps + 1, reachedFixpoint := true }

/-- How sweeps end : nothing is left to do, a statement is not handled, or the limit is
reached. -/
inductive Ends (root : BlockId) (w : Work) : Except PassError Stats → Prop where
  | fixpoint (h : (w.sweep root).halt? = none) : Ends root w (.ok w.final)
  | violation {s : StmtId} {error : PassError}
    (h : (w.sweep root).halt? = some (s, .violation error)) : Ends root w (.error error)
  | limit : Ends root w (.ok w.progress.stats)

/-- One sweep, and the others after it. -/
theorem sweeps_succ {root : BlockId} {w : Work} (h : (w.context.block? root).isSome = true)
    (bound : Nat) : sweeps root (bound + 1) w.progress w.context =
      match (w.sweep root).halt? with
      | none => .ok (⟨w.progress.events ++ (w.sweep root).events ++ [.finished w.final],
          .ok w.final⟩, w.context)
      | some (_, .violation error) =>
        .ok (⟨w.progress.events ++ (w.sweep root).events, .error error⟩, w.context)
      | some (s, .rewrite rewrite) =>
        match rewrite.apply s w.context with
        | .error misuse => .error misuse
        | .ok (event, c') => sweeps root bound (w.advance root rewrite event) c' := by
  have hpresent : ¬(w.context.block? root).isNone = true := by
    cases hb : w.context.block? root <;> simp_all
  rw [sweeps]
  change (if (w.context.block? root).isNone = true then _ else _ : Edit Outcome) w.context = _
  rw [if_neg hpresent]
  change (match (w.sweep root).halt? with
    | none => _
    | some (_, .violation error) => _
    | some (slot, .rewrite rewrite) => _ : Edit Outcome) w.context = _
  cases (w.sweep root).halt? with
  | none => rfl
  | some p =>
    obtain ⟨s, rewrite | error⟩ := p
    · dsimp only [bind, StateT.bind, Except.bind]
      cases rewrite.apply s w.context <;> rfl
    · rfl

end Work

namespace Context

variable {c : Context} {root : BlockId} {strict : Bool}

/-- Sweeps below a verified block are never refused, and end at work that steps lead to. -/
theorem Kept.sweeps {w : Work} (h : w.context.Kept strict root) (bound : Nat) :
    ∃ outcome w', KernelIR.sweeps root bound w.progress w.context = .ok (outcome, w'.context) ∧
      w.Reaches root w' ∧ w'.Ends root outcome.result := by
  induction bound generalizing w with
  | zero => exact ⟨_, w, rfl, .refl, .limit⟩
  | succ bound ih =>
    rw [Work.sweeps_succ h.present]
    cases hhalt : (w.sweep root).halt? with
    | none => exact ⟨_, w, rfl, .refl, .fixpoint hhalt⟩
    | some p =>
      obtain ⟨s, rewrite | error⟩ := p
      · obtain ⟨-, event, c', happly, hkept, -⟩ := Work.makes_of_halt h hhalt
        obtain ⟨outcome, w', hrun, hreach, hends⟩ :=
          ih (w := ⟨w.advance root rewrite event, c'⟩) hkept
        refine ⟨outcome, w', ?_, .head (.mk hhalt happly) hreach, hends⟩
        simpa only [happly] using hrun
      · exact ⟨_, w, rfl, .refl, .violation hhalt⟩

/-- The optimizer is not refused anything, whatever the limit. -/
theorem Kept.optimizeSlots (h : c.Kept strict root) (maxSweeps? : Option Nat) :
    ∃ outcome w, KernelIR.optimizeSlots root maxSweeps? c = .ok (outcome, w.context) ∧
      (Work.start c).Reaches root w ∧ w.Ends root outcome.result :=
  Kept.sweeps (w := .start c) h _

theorem Sound.optimizeSlots (h : c.Sound root) (maxSweeps? : Option Nat) :
    ∃ outcome w, KernelIR.optimizeSlots root maxSweeps? c = .ok (outcome, w.context) ∧
      (Work.start c).Reaches root w ∧ w.Ends root outcome.result :=
  h.kept.optimizeSlots maxSweeps?

end Context

end KernelIR
