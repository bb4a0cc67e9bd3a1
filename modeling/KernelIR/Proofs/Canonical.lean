import KernelIR.Proofs.Lockstep
import KernelIR.Proofs.Safety
import KernelIR.Proofs.Text.Numbering

/-!
# Optimizing the canonical form

The canonical form of a text has lost its names, its layout and the way in which its constants were
written. It is parsed to a tree that is like the one of the text, and with the same numbers
(`exists_load_of_printSource`), so both are optimized in step. What comes out is the same in
everything : the text, the counts, the events that are reported, and the statement that is not
handled, if there is one (`optimizeSource_of_printSource`).
-/

namespace KernelIR

/-! ## The stages -/

section Stages

variable {source text : List Char} {kernel : Kernel} {c c' : Context} {maxSweeps? : Option Nat}

theorem loadSource_of_parseKernel (hparse : parseKernel source c = .ok (.ok kernel, c'))
    (hverify : c'.verify kernel = .ok ()) : loadSource source c = .ok (.ok kernel, c') := by
  simp only [loadSource, bind, StateT.bind, Except.bind, hparse, get, getThe, MonadStateOf.get,
    StateT.get, pure, Except.pure, hverify]
  rfl

theorem exists_of_printSource (h : printSource source = .ok (.ok text)) :
    ∃ kernel c, loadSource source .empty = .ok (.ok kernel, c) ∧
      c.printKernel kernel = .ok text := by
  unfold printSource at h
  obtain ⟨⟨result, c⟩, hload, h⟩ := exists_of_bind_eq_ok h
  cases result with
  | error e => cases h
  | ok kernel =>
    obtain ⟨text', hprint, h⟩ := exists_of_bind_eq_ok h
    cases h
    exact ⟨kernel, c, hload, hprint⟩

/-- What is reported of an outcome, if `text` is the text that it comes to. -/
def Outcome.report (outcome : Outcome) (kernel : Kernel) (text : List Char) : Report :=
  match outcome.result with
  | .error error => ⟨outcome.events, .error (.pass error)⟩
  | .ok stats =>
    ⟨outcome.events ++ [.optimized kernel.name stats.totalRewrites], .ok ⟨text, stats⟩⟩

theorem optimizeSource_eq_report {outcome : Outcome}
    (hload : loadSource source .empty = .ok (.ok kernel, c))
    (hrun : optimizeSlots kernel.body maxSweeps? c = .ok (outcome, c'))
    (hverify : c'.verify kernel = .ok ()) (hprint : c'.printKernel kernel = .ok text) :
    optimizeSource source maxSweeps? = .ok (outcome.report kernel text) := by
  simp only [optimizeSource, hload, hrun, bind, Except.bind, Outcome.report]
  cases outcome.result with
  | error error => rfl
  | ok stats =>
    simp only [hverify, hprint]
    rfl

end Stages

/-- The canonical form of a text is parsed and verified to a kernel of the same name. Its tree is
like that of the text, and has the same numbers. -/
theorem exists_load_of_printSource {source text : List Char}
    (h : printSource source = .ok (.ok text)) : ∃ kernel c d,
      loadSource source .empty = .ok (.ok kernel, c) ∧
        loadSource text .empty = .ok (.ok kernel, d) ∧
      c.stmts.size = d.stmts.size ∧
      (c.tree kernel.body).Like Reprints (· = ·) (d.tree kernel.body) := by
  obtain ⟨kernel, c, hload, hprint⟩ := exists_of_printSource h
  obtain ⟨hparse, hverify⟩ := loadSource_eq_ok hload
  obtain ⟨name, body⟩ := kernel
  obtain ⟨rfl, hnumbered, hsize⟩ := numbered_of_parseKernel hparse
  obtain ⟨text', d, hprint', hparse', hlike⟩ :=
    (Context.Tidy.empty.readable hparse).exists_parse .empty
  obtain rfl : text = text' := Except.ok.inj (hprint.symm.trans hprint')
  obtain ⟨-, hnumbered', hsize'⟩ := numbered_of_parseKernel hparse'
  have hsame := (hlike.eq_of_ids_eq (hlike.ids_eq hnumbered hnumbered')).mono
    (fun _ _ h => h.reprints) fun _ _ h => h
  have hbare : ((d.tree ⟨0⟩).rename id).bare = (c.tree ⟨0⟩).bare := by
    rw [Tree.rename_id, ← (c.tree ⟨0⟩).rename_id]
    exact (Tree.Like.bare_eq hsame).symm
  have hfits := Context.fits_of_bare_eq hbare Function.injective_id
    ((verify_eq_ok_iff_fits hparse).1 hverify)
  exact ⟨⟨name, ⟨0⟩⟩, c, d, hload,
    loadSource_of_parseKernel hparse' ((verify_eq_ok_iff_fits hparse').2 hfits),
    by rw [hsize, hsize', hsame.size_eq], hsame⟩

/-- Kernels that are alike are optimized alike, and come to the same text. -/
theorem exists_optimizeSlots_of_like {source text : List Char} {kernel : Kernel} {c d : Context}
    (hload : loadSource source .empty = .ok (.ok kernel, c))
    (hload' : loadSource text .empty = .ok (.ok kernel, d)) (hsize : c.stmts.size = d.stmts.size)
    (hlike : (c.tree kernel.body).Like Reprints (· = ·) (d.tree kernel.body))
    (maxSweeps? : Option Nat) : ∃ outcome c' d' text',
      optimizeSlots kernel.body maxSweeps? c = .ok (outcome, c') ∧
      optimizeSlots kernel.body maxSweeps? d = .ok (outcome, d') ∧
      c'.verify kernel = .ok () ∧ d'.verify kernel = .ok () ∧
      c'.printKernel kernel = .ok text' ∧ d'.printKernel kernel = .ok text' := by
  obtain ⟨hparse, hverify⟩ := loadSource_eq_ok hload
  obtain ⟨hparse', hverify'⟩ := loadSource_eq_ok hload'
  have hsound := Context.Tidy.empty.sound hparse hverify
  have hsound' := Context.Tidy.empty.sound hparse' hverify'
  have hmatch : Work.Matches Reprints id kernel.body kernel.body (.start c) (.start d) :=
    ⟨rfl, fun i => by rw [id, Work.start, Work.start, hsize], hlike⟩
  obtain ⟨outcome, w, w', text', hrun, hrun', hreach, hreach', hprint, hprint'⟩ :=
    exists_optimizeSlots_of_matches Function.injective_id rfl hsound hsound'
      (Context.Tidy.empty.readable hparse) (Context.Tidy.empty.readable hparse') hmatch maxSweeps?
  rw [Outcome.rename_id] at hrun'
  exact ⟨outcome, w.context, w'.context, text', hrun, hrun', (hreach.sound hsound).verify rfl,
    (hreach'.sound hsound').verify rfl, hprint, hprint'⟩

/-- Optimizing the canonical form of a text comes to the same report as optimizing the text,
whatever the limit of sweeps is : the same text and counts, or the same statement that is not
handled. -/
theorem optimizeSource_of_printSource {source text : List Char}
    (h : printSource source = .ok (.ok text)) (maxSweeps? : Option Nat) :
    ∃ report, optimizeSource source maxSweeps? = .ok report ∧
      optimizeSource text maxSweeps? = .ok report ∧
      ∀ e, report.result = .error e → ∃ error, e = .pass error := by
  obtain ⟨kernel, c, d, hload, hload', hsize, hlike⟩ := exists_load_of_printSource h
  obtain ⟨outcome, c', d', text', hrun, hrun', hverify, hverify', hprint, hprint'⟩ :=
    exists_optimizeSlots_of_like hload hload' hsize hlike maxSweeps?
  refine ⟨outcome.report kernel text', optimizeSource_eq_report hload hrun hverify hprint,
    optimizeSource_eq_report hload' hrun' hverify' hprint', fun e he => ?_⟩
  unfold Outcome.report at he
  split at he
  · exact ⟨_, (Except.error.inj he).symm⟩
  · cases he

namespace ZeroKernel

/-- A kernel that prints zeros of both signs from a slot. -/
def source : List Char :=
  "kernel @k \x7b %zeros = const [0.0, -0.0] : f32x2 %slot = alloca : f32x2
    local_store %slot, %zeros %read = local_load %slot : f32x2 print %read \x7d".toList

/-- Its canonical form, where equal zeros have one sign. -/
def text : List Char :=
  "kernel @k \x7b
  %0 = const 0.0 : f32x2
  %1 = alloca : f32x2
  local_store %1, %0
  %2 = local_load %1 : f32x2
  print %2
\x7d
".toList

end ZeroKernel

open ZeroKernel in
/-- The lanes of the constant are others, and three rewrites are made of both. -/
theorem optimizeSource_of_printSource_zeros : printSource source = .ok (.ok text) ∧
    ∃ report, optimizeSource source none = .ok report ∧ optimizeSource text none = .ok report ∧
      report.result.map (·.stats.totalRewrites) = .ok 3 := by
  have hprint : printSource source = .ok (.ok text) := by decide +kernel
  have hcount : (optimizeSource source none).map (·.result.map (·.stats.totalRewrites)) =
      .ok (.ok 3) := by decide +kernel
  obtain ⟨report, hsource, htext, -⟩ := optimizeSource_of_printSource hprint none
  rw [hsource] at hcount
  exact ⟨hprint, report, hsource, htext, Except.ok.inj hcount⟩

end KernelIR
