import KernelIR.Proofs.Fixpoint

/-!
# The limit of sweeps

`Work.Runs` is the optimizer without a limit : sweep after sweep, each told from the work in
front of it, until one finds nothing or meets a statement that is not handled. Nothing in it
bounds the sweeps. Since every rewrite takes an access out, it comes to its end
(`Kept.exists_runs`).

A limit cuts this run and changes nothing else in it. `optimizeSlots_limits` says so of every
limit : the work after some sweeps of the run is the work that the optimizer has after as many
sweeps of its own, and it stops there or where the run stops, whichever is first. Each sweep
before the last one makes a rewrite, and only the last one can end at a fixpoint, so the counts
tell the two apart.
-/

namespace KernelIR

namespace Stats

variable (s : Stats) (rewrite : Rewrite)

@[simp] theorem totalRewrites_record :
    (s.record rewrite).totalRewrites = s.totalRewrites + 1 := by
  cases rewrite <;> simp only [record, totalRewrites] <;> omega

@[simp] theorem sweeps_record : (s.record rewrite).sweeps = s.sweeps := by
  cases rewrite <;> rfl

@[simp] theorem reachedFixpoint_record :
    (s.record rewrite).reachedFixpoint = s.reachedFixpoint := by
  cases rewrite <;> rfl

/-- The counts after a number of sweeps of which each made a rewrite. -/
structure After (n : Nat) (s : Stats) : Prop where
  sweeps : s.sweeps = n
  totalRewrites : s.totalRewrites = n
  reachedFixpoint : s.reachedFixpoint = false

end Stats

namespace Work

variable {root : BlockId} {w w' : Work} {outcome outcome' : Outcome} {c c' : Context}
  {n total total' : Nat} {strict : Bool}

/-! ## The run without a limit -/

/-- A number of sweeps that make rewrites. -/
inductive Steps (root : BlockId) : Nat → Work → Work → Prop where
  | refl {w : Work} : Steps root 0 w w
  | head {n : Nat} {w v w' : Work} (step : Step root w v) (steps : Steps root n v w') :
    Steps root (n + 1) w w'

/-- The outcome of a sweep that finds nothing. -/
def settled (root : BlockId) (w : Work) : Outcome :=
  ⟨w.progress.events ++ (w.sweep root).events ++ [.finished w.final], .ok w.final⟩

/-- The outcome of a sweep that meets a statement that is not handled. -/
def rejected (root : BlockId) (w : Work) (error : PassError) : Outcome :=
  ⟨w.progress.events ++ (w.sweep root).events, .error error⟩

/-- The outcome in front of a sweep that is not allowed. -/
def stopped (w : Work) : Outcome :=
  ⟨w.progress.events ++ [.sweepLimit w.progress.stats.sweeps], .ok w.progress.stats⟩

/-- Sweeps without a limit, with their number, their outcome and the context they leave. -/
inductive Runs (root : BlockId) : Nat → Work → Outcome → Context → Prop where
  | fixpoint {w : Work} (halt : (w.sweep root).halt? = none) :
    Runs root 1 w (w.settled root) w.context
  | violation {w : Work} {s : StmtId} {error : PassError}
    (halt : (w.sweep root).halt? = some (s, .violation error)) :
    Runs root 1 w (w.rejected root error) w.context
  | again {n : Nat} {w w' : Work} {outcome : Outcome} {c : Context} (step : Step root w w')
    (runs : Runs root n w' outcome c) : Runs root (n + 1) w outcome c

theorem Step.det {v : Work} (h : Step root w w') (h' : Step root w v) : w' = v := by
  cases h with
  | mk halt apply =>
    cases h' with
    | mk halt' apply' =>
      obtain ⟨rfl, hrewrite⟩ := Prod.mk.inj (Option.some.inj (halt.symm.trans halt'))
      obtain rfl := Halt.rewrite.inj hrewrite
      obtain ⟨rfl, rfl⟩ := Prod.mk.inj (Except.ok.inj (apply.symm.trans apply'))
      rfl

/-- Work has one run at most. -/
theorem Runs.det (h : Runs root total w outcome c) (h' : Runs root total' w outcome' c') :
    total = total' ∧ outcome = outcome' ∧ c = c' := by
  induction h generalizing total' with
  | fixpoint halt =>
    cases h' with
    | fixpoint => exact ⟨rfl, rfl, rfl⟩
    | violation halt' => simp [halt] at halt'
    | again step => cases step with | mk halt' => simp [halt] at halt'
  | violation halt =>
    cases h' with
    | fixpoint halt' => simp [halt] at halt'
    | violation halt' =>
      obtain ⟨-, rfl⟩ : _ ∧ _ = _ := by simpa [halt] using halt'
      exact ⟨rfl, rfl, rfl⟩
    | again step => cases step with | mk halt' => simp [halt] at halt'
  | again step _ ih =>
    cases h' with
    | fixpoint halt' => cases step with | mk halt => simp [halt] at halt'
    | violation halt' => cases step with | mk halt => simp [halt] at halt'
    | again step' runs' =>
      obtain rfl := step.det step'
      obtain ⟨rfl, hrest⟩ := ih runs'
      exact ⟨rfl, hrest⟩

theorem Steps.reaches (h : Steps root n w w') : w.Reaches root w' := by
  induction h with
  | refl => exact .refl
  | head step _ ih => exact .head step ih

/-- A run goes through the work after each sweep but its last. -/
theorem Runs.steps (h : Runs root total w outcome c) (hn : n < total) :
    ∃ w', Steps root n w w' ∧ Runs root (total - n) w' outcome c := by
  induction h generalizing n with
  | fixpoint halt =>
    obtain rfl : n = 0 := Nat.lt_one_iff.1 hn
    exact ⟨_, .refl, .fixpoint halt⟩
  | violation halt =>
    obtain rfl : n = 0 := Nat.lt_one_iff.1 hn
    exact ⟨_, .refl, .violation halt⟩
  | again step runs ih =>
    cases n with
    | zero => exact ⟨_, .refl, .again step runs⟩
    | succ n =>
      obtain ⟨w', hsteps, hruns⟩ := ih (Nat.lt_of_succ_lt_succ hn)
      rw [Nat.add_sub_add_right]
      exact ⟨w', .head step hsteps, hruns⟩

/-! ## The counts of a run -/

theorem Step.after (h : Step root w w') (hw : w.progress.stats.After n) :
    w'.progress.stats.After (n + 1) := by
  cases h with
  | mk halt apply =>
    constructor
    · simp [advance, hw.sweeps]
    · rw [← hw.totalRewrites]
      exact Stats.totalRewrites_record _ _
    · simp [advance, hw.reachedFixpoint]

theorem Steps.after {m : Nat} (h : Steps root n w w') (hw : w.progress.stats.After m) :
    w'.progress.stats.After (m + n) := by
  induction h generalizing m with
  | refl => exact hw
  | head step _ ih =>
    rw [Nat.add_comm _ 1, ← Nat.add_assoc]
    exact ih (step.after hw)

theorem Steps.after_start (h : Steps root n (start c) w) : w.progress.stats.After n := by
  simpa using h.after (m := 0) ⟨rfl, rfl, rfl⟩

/-- A run that is not rejected has found its fixpoint in the last sweep, and made a rewrite in
every other one. -/
theorem Runs.fixpoint_of_ok (h : Runs root total w outcome c) (hw : w.progress.stats.After n)
    {stats : Stats} (hok : outcome.result = .ok stats) : stats.sweeps = n + total ∧
      n + total = stats.totalRewrites + 1 ∧ stats.reachedFixpoint = true := by
  induction h generalizing n with
  | fixpoint halt =>
    obtain rfl := Except.ok.inj hok
    exact ⟨congrArg (· + 1) hw.sweeps, congrArg (· + 1) hw.totalRewrites.symm, rfl⟩
  | violation halt => cases hok
  | again step _ ih =>
    rw [Nat.add_comm _ 1, ← Nat.add_assoc]
    exact ih (step.after hw) hok

theorem Runs.fixpoint_of_ok_start (h : Runs root total (start c) outcome c') {stats : Stats}
    (hok : outcome.result = .ok stats) : stats.sweeps = total ∧
      total = stats.totalRewrites + 1 ∧ stats.reachedFixpoint = true := by
  simpa using h.fixpoint_of_ok (n := 0) ⟨rfl, rfl, rfl⟩ hok

/-! ## Sweeps and the run -/

theorem Step.sweeps_add_one (h : Step root w w') (hw : w.context.Kept strict root) (bound : Nat) :
    sweeps root (bound + 1) w.progress w.context = sweeps root bound w'.progress w'.context := by
  cases h with
  | mk halt apply =>
    rw [sweeps_succ hw.present, halt]
    simp only [apply]

/-- Allowed sweeps are used up one by one. -/
theorem Steps.sweeps_add (h : Steps root n w w') (hw : w.context.Kept strict root) (bound : Nat) :
    sweeps root (bound + n) w.progress w.context = sweeps root bound w'.progress w'.context := by
  induction h with
  | refl => rfl
  | head step _ ih =>
    rw [← Nat.add_assoc, step.sweeps_add_one hw]
    exact ih (step.makes hw).1

/-- Sweeps that are enough for the run have its outcome. -/
theorem Runs.sweeps_add (h : Runs root total w outcome c) (hw : w.context.Kept strict root)
    (bound : Nat) : sweeps root (bound + total) w.progress w.context = .ok (outcome, c) := by
  induction h with
  | fixpoint halt =>
    rw [sweeps_succ hw.present, halt]
    rfl
  | violation halt =>
    rw [sweeps_succ hw.present, halt]
    rfl
  | again step _ ih =>
    rw [← Nat.add_assoc, step.sweeps_add_one hw]
    exact ih (step.makes hw).1

/-! ## Limits -/

section Limits

variable (hc : c.Kept strict root) {limit : Nat}
include hc

theorem Steps.optimizeSlots_of_le (h : Steps root n (start c) w) (hn : n ≤ limit) :
    optimizeSlots root (some limit) c = sweeps root (limit - n) w.progress w.context := by
  have hsweeps := h.sweeps_add hc (limit - n)
  rwa [Nat.sub_add_cancel hn] at hsweeps

/-- A limit that is enough for the run changes nothing. -/
theorem Runs.optimizeSlots_of_le (h : Runs root total (start c) outcome c')
    (hlimit : total ≤ limit) :
    optimizeSlots root (some limit) c = .ok (outcome, c') := by
  have hsweeps := h.sweeps_add hc (limit - total)
  rwa [Nat.sub_add_cancel hlimit] at hsweeps

/-- A limit that is not enough leaves the work of the run after as many sweeps. -/
theorem Runs.optimizeSlots_of_lt (h : Runs root total (start c) outcome c')
    (hlimit : limit < total) :
    ∃ w, Steps root limit (start c) w ∧
      optimizeSlots root (some limit) c = .ok (w.stopped, w.context) ∧
      w.progress.stats.After limit := by
  obtain ⟨w, hsteps, -⟩ := h.steps hlimit
  refine ⟨w, hsteps, ?_, hsteps.after_start⟩
  rw [hsteps.optimizeSlots_of_le hc (Nat.le_refl limit), Nat.sub_self]
  rfl

/-- Whatever the limit is, only the sweep that finds the fixpoint makes no rewrite. -/
theorem Runs.sweeps_of_reachedFixpoint (h : Runs root total (start c) outcome c')
    {events : List Event} {stats : Stats} {c'' : Context}
    (hrun : optimizeSlots root (some limit) c = .ok (⟨events, .ok stats⟩, c''))
    (hfixpoint : stats.reachedFixpoint = true) : stats.sweeps = stats.totalRewrites + 1 := by
  rcases Nat.lt_or_ge limit total with hlimit | hlimit
  · obtain ⟨w, -, hstopped, hafter⟩ := h.optimizeSlots_of_lt hc hlimit
    obtain ⟨heq, -⟩ := Prod.mk.inj (Except.ok.inj (hstopped.symm.trans hrun))
    have hstats : w.progress.stats = stats := Except.ok.inj (congrArg Outcome.result heq)
    rw [← hstats, hafter.reachedFixpoint] at hfixpoint
    cases hfixpoint
  · have henough := h.optimizeSlots_of_le hc hlimit
    obtain ⟨rfl, -⟩ := Prod.mk.inj (Except.ok.inj (henough.symm.trans hrun))
    obtain ⟨hsweeps, htotal, -⟩ := h.fixpoint_of_ok_start rfl
    exact hsweeps.trans htotal

end Limits

end Work

namespace Context

variable {root : BlockId} {strict : Bool}

/-- Every run comes to an end, since there is an access less in front of each sweep. -/
theorem Kept.exists_runs {w : Work} (h : w.context.Kept strict root) :
    ∃ total outcome c', w.Runs root total outcome c' ∧
      total ≤ (w.context.tree root).count Kind.isAccess + 1 := by
  induction hcount : (w.context.tree root).count Kind.isAccess using Nat.strongRecOn
    generalizing w with
  | ind count ih =>
    cases hhalt : (w.sweep root).halt? with
    | none => exact ⟨1, _, _, .fixpoint hhalt, Nat.le_add_left 1 count⟩
    | some p =>
      obtain ⟨s, rewrite | error⟩ := p
      · obtain ⟨-, event, c', happly, hkept, -⟩ := Work.makes_of_halt h hhalt
        have hstep : Work.Step root w ⟨w.advance root rewrite event, c'⟩ := .mk hhalt happly
        have hlt := hcount ▸ hstep.count_lt h
        obtain ⟨total, outcome, c'', hruns, hle⟩ :=
          ih _ hlt (w := ⟨w.advance root rewrite event, c'⟩) hkept rfl
        exact ⟨total + 1, outcome, c'', .again hstep hruns, by omega⟩
      · exact ⟨1, _, _, .violation hhalt, Nat.le_add_left 1 count⟩

end Context

/-- Without a limit, one more sweep is allowed than there are accesses. -/
theorem optimizeSlots_none_eq (root : BlockId) (c : Context) : optimizeSlots root none c =
    optimizeSlots root (some ((c.tree root).count Kind.isAccess + 1)) c := by
  rw [← Tree.length_find]
  rfl

/-- The optimizer without a limit comes to an end on a verified kernel, after at most one more
sweep than there are accesses. With a limit it goes through the same work, and ends the same
if the limit is enough, or else in front of the first sweep that it does not allow. -/
theorem optimizeSlots_limits {c : Context} {kernel : Kernel} (h : c.Verified kernel) :
    ∃ total outcome c', (Work.start c).Runs kernel.body total outcome c' ∧
      total ≤ (c.tree kernel.body).count Kind.isAccess + 1 ∧
      optimizeSlots kernel.body none c = .ok (outcome, c') ∧
      (∀ n < total, ∃ w, Work.Steps kernel.body n (.start c) w ∧
        w.Runs kernel.body (total - n) outcome c' ∧
        ∀ limit, n ≤ limit → optimizeSlots kernel.body (some limit) c =
          sweeps kernel.body (limit - n) w.progress w.context) ∧
      (∀ limit, total ≤ limit → optimizeSlots kernel.body (some limit) c = .ok (outcome, c')) ∧
      (∀ limit < total, ∃ w, Work.Steps kernel.body limit (.start c) w ∧
        optimizeSlots kernel.body (some limit) c = .ok (w.stopped, w.context) ∧
        w.progress.stats.After limit) ∧
      ∀ maxSweeps? events stats c'',
        optimizeSlots kernel.body maxSweeps? c = .ok (⟨events, .ok stats⟩, c'') →
        stats.reachedFixpoint = true → stats.sweeps = stats.totalRewrites + 1 := by
  obtain ⟨total, outcome, c', hruns, hle⟩ := Context.Kept.exists_runs (w := .start c) h.kept
  have henough : ∀ limit, total ≤ limit → optimizeSlots kernel.body (some limit) c =
      .ok (outcome, c') := fun _ => hruns.optimizeSlots_of_le h.kept
  refine ⟨total, outcome, c', hruns, hle, ?_, fun n hn => ?_, henough,
    fun _ => hruns.optimizeSlots_of_lt h.kept, fun maxSweeps? _ _ _ hrun => ?_⟩
  · rw [optimizeSlots_none_eq]
    exact henough _ hle
  · obtain ⟨w, hsteps, hrest⟩ := hruns.steps hn
    exact ⟨w, hsteps, hrest, fun _ => hsteps.optimizeSlots_of_le h.kept⟩
  · cases maxSweeps? with
    | none =>
      rw [optimizeSlots_none_eq] at hrun
      exact hruns.sweeps_of_reachedFixpoint h.kept hrun
    | some limit => exact hruns.sweeps_of_reachedFixpoint h.kept hrun

namespace SingleKernel

/-- A kernel that is left with its argument. -/
def text : List Char :=
  "kernel @k \x7b %a = alloca : i32 %v = arg 0 : i32 local_store %a, %v %x = local_load %a : i32
    print %x \x7d".toList

/-- What the text is parsed to. -/
def context : Context where
  stmts := #[⟨.alloca, some ⟨.i32, 1⟩, some ⟨0⟩⟩, ⟨.arg 0, some ⟨.i32, 1⟩, some ⟨0⟩⟩,
    ⟨.store ⟨0⟩ ⟨1⟩, none, some ⟨0⟩⟩, ⟨.load [⟨⟨0⟩, 0⟩], some ⟨.i32, 1⟩, some ⟨0⟩⟩,
    ⟨.print ⟨3⟩, none, some ⟨0⟩⟩]
  blocks := #[⟨[⟨0⟩, ⟨1⟩, ⟨2⟩, ⟨3⟩, ⟨4⟩], none⟩]
  uses := [⟨⟨0⟩, ⟨2⟩, 0⟩, ⟨⟨1⟩, ⟨2⟩, 1⟩, ⟨⟨0⟩, ⟨3⟩, 0⟩, ⟨⟨3⟩, ⟨4⟩, 0⟩]

end SingleKernel

open SingleKernel in
/-- Four sweeps are made of a kernel with three accesses, and with a limit of two it is left
after two rewrites. -/
theorem optimizeSlots_limits_single :
    parseKernel text .empty = .ok (.ok ⟨"k", ⟨0⟩⟩, context) ∧
    context.verify ⟨"k", ⟨0⟩⟩ = .ok () ∧ (context.tree ⟨0⟩).count Kind.isAccess = 3 ∧
    ∃ outcome c', (Work.start context).Runs ⟨0⟩ 4 outcome c' ∧
      optimizeSlots ⟨0⟩ none context = .ok (outcome, c') ∧
      optimizeSlots ⟨0⟩ (some 4) context = .ok (outcome, c') ∧
      ∃ w, Work.Steps ⟨0⟩ 2 (.start context) w ∧
        optimizeSlots ⟨0⟩ (some 2) context = .ok (w.stopped, w.context) ∧
        w.progress.stats.After 2 := by
  have hparse : parseKernel text .empty = .ok (.ok ⟨"k", ⟨0⟩⟩, context) := by decide +kernel
  have hverify : context.verify ⟨"k", ⟨0⟩⟩ = .ok () := by decide +kernel
  obtain ⟨total, outcome, c', hruns, -, hnone, -, henough, hshort, -⟩ :=
    optimizeSlots_limits (Parsed.empty.tidy.verified hparse hverify)
  obtain ⟨events, stats, d, hrun, hsweeps⟩ : ∃ events stats d,
      optimizeSlots ⟨0⟩ none context = .ok (⟨events, .ok stats⟩, d) ∧ stats.sweeps = 4 :=
    ⟨_, _, _, rfl, rfl⟩
  obtain ⟨rfl, rfl⟩ := Prod.mk.inj (Except.ok.inj (hnone.symm.trans hrun))
  obtain rfl : 4 = total := hsweeps.symm.trans (hruns.fixpoint_of_ok_start rfl).1
  exact ⟨hparse, hverify, by decide +kernel, _, c', hruns, hnone, henough 4 (Nat.le_refl 4),
    hshort 2 (by decide)⟩

end KernelIR
