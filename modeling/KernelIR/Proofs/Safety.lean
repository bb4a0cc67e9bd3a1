import KernelIR.Pipeline
import KernelIR.Proofs.Sweep
import KernelIR.Proofs.Text.Resolve

/-!
# Safety of the optimizer

A kernel that the verifier accepts stays one that it accepts, sweep by sweep, and no
operation on the context is refused on the way : not in the optimizer, nor when the result
is printed. So the optimizer only fails on statements that its analysis does not handle,
and the check of its result never does (`optimizeSource_of_verified`).
-/

namespace KernelIR

/-- What is listed in a block, owned by a statement or recorded as a use exists. -/
structure Context.Closed (c : Context) : Prop where
  listed : ∀ {b s}, s ∈ c.listed b → (c.stmt? s).isSome = true
  owned : ∀ {s stmt b}, c.stmt? s = some stmt → b ∈ stmt.kind.blocks → (c.block? b).isSome = true
  used : ∀ u ∈ c.uses, (c.stmt? u.value).isSome = true ∧ (c.stmt? u.user).isSome = true

theorem Stmt.Sized.isPrintable {stmt : Stmt} (h : stmt.Sized) : stmt.isPrintable = true := by
  obtain ⟨hwidth, hlanes⟩ := h
  have hnonempty : ∀ {α : Type} (lanes : List α), lanes.length = stmt.width → 1 ≤ stmt.width →
      (!lanes.isEmpty) = true := by
    intro α lanes hlen hw
    cases lanes with
    | nil => simp at hlen; omega
    | cons => rfl
  unfold Stmt.isPrintable
  split
  · next lanes hk =>
    rw [hk] at hlanes hwidth
    exact hnonempty lanes hlanes (hwidth rfl)
  · next lanes hk =>
    rw [hk] at hlanes hwidth
    exact hnonempty lanes hlanes (hwidth rfl)
  · rfl

namespace Context.Sound

variable {c : Context} {root : BlockId} (h : c.Sound root)
include h

theorem closed : c.Closed where
  listed hs := by
    obtain ⟨stmt, hstmt, -⟩ := Option.bind_eq_some_iff.1 (h.intact.home hs)
    rw [hstmt]
    rfl
  owned hs hb := by
    obtain ⟨block, hblock, -⟩ := Option.bind_eq_some_iff.1 (h.intact.owner hs hb)
    rw [hblock]
    rfl
  used := h.defined

theorem verify {kernel : Kernel} (hbody : kernel.body = root) : c.verify kernel = .ok () :=
  (verify_eq_ok_iff h.intact kernel).2 (hbody ▸ h.valid)

/-- A sound kernel has a text. -/
theorem printKernel {kernel : Kernel} (hbody : kernel.body = root) :
    ∃ text, c.printKernel kernel = .ok text := by
  have hfind : ((c.tree root).find fun _ stmt => !stmt.isPrintable) = [] := by
    simp only [Tree.find_eq_filter, List.map_eq_nil_iff, List.filter_eq_nil_iff]
    intro p hp
    simp [(h.sized p hp).isPrintable]
  have hcheck : (c.tree root).checkPrintable = .ok () := by
    unfold Tree.checkPrintable
    rw [hfind]
  have hpresent : ¬(c.block? kernel.body).isNone = true := by
    have := h.present
    cases hb : c.block? kernel.body <;> simp_all
  unfold Context.printKernel
  rw [if_neg hpresent, hbody, hcheck]
  exact ⟨_, rfl⟩

end Context.Sound

theorem loadSource_eq_ok {source : List Char} {kernel : Kernel} {c c' : Context}
    (h : loadSource source c = .ok (.ok kernel, c')) :
    parseKernel source c = .ok (.ok kernel, c') ∧ c'.verify kernel = .ok () := by
  simp only [loadSource, bind, StateT.bind, Except.bind] at h
  cases hp : parseKernel source c with
  | error misuse =>
    rw [hp] at h
    cases h
  | ok p =>
    obtain ⟨r, c₁⟩ := p
    simp only [hp] at h
    cases r with
    | error e => cases h
    | ok k =>
      simp only [get, getThe, MonadStateOf.get, StateT.bind, StateT.get, bind, Except.bind, pure,
        Except.pure] at h
      cases hv : c₁.verify k with
      | error e =>
        rw [hv] at h
        cases h
      | ok u =>
        rw [hv] at h
        cases h
        exact ⟨rfl, hv⟩

theorem exists_of_verifySource {source : List Char} (h : verifySource source = .ok (.ok ())) :
    ∃ kernel c, loadSource source .empty = .ok (.ok kernel, c) := by
  simp only [verifySource, bind, Except.bind] at h
  cases hl : loadSource source .empty with
  | error misuse =>
    rw [hl] at h
    cases h
  | ok p =>
    obtain ⟨r, c⟩ := p
    rw [hl] at h
    cases r with
    | error e => cases h
    | ok kernel => exact ⟨kernel, c, rfl⟩

/-- Optimizing the text of a valid kernel. At the end of every sweep the kernel is valid
and has a text, with any limit no operation is refused, and the only errors are about
statements that the analysis does not handle. -/
theorem optimizeSource_of_verified {source : List Char} (h : verifySource source = .ok (.ok ()))
    (maxSweeps? : Option Nat) :
    ∃ kernel c, loadSource source .empty = .ok (.ok kernel, c) ∧
      (∀ w, (Work.start c).Reaches kernel.body w → w.context.Closed ∧
        w.context.verify kernel = .ok () ∧ ∃ text, w.context.printKernel kernel = .ok text) ∧
      (∃ outcome w, optimizeSlots kernel.body maxSweeps? c = .ok (outcome, w.context) ∧
        (Work.start c).Reaches kernel.body w ∧ w.Ends kernel.body outcome.result) ∧
      ∃ report, optimizeSource source maxSweeps? = .ok report ∧
        ∀ e, report.result = .error e → ∃ error, e = .pass error := by
  obtain ⟨kernel, c, hload⟩ := exists_of_verifySource h
  obtain ⟨hparse, hverify⟩ := loadSource_eq_ok hload
  have hsound := Context.Tidy.empty.sound hparse hverify
  obtain ⟨outcome, w, hrun, hreach, hends⟩ := hsound.optimizeSlots maxSweeps?
  have hw := hreach.sound hsound
  refine ⟨kernel, c, hload, fun v hv => ?_, ⟨outcome, w, hrun, hreach, hends⟩, ?_⟩
  · have hv := hv.sound hsound
    exact ⟨hv.closed, hv.verify rfl, hv.printKernel rfl⟩
  · obtain ⟨text, htext⟩ : ∃ text, w.context.printKernel kernel = .ok text := hw.printKernel rfl
    simp only [optimizeSource, hload, hrun, bind, Except.bind]
    cases hresult : outcome.result with
    | error e => exact ⟨_, rfl, fun e' he => ⟨e, (Except.error.inj he).symm⟩⟩
    | ok stats =>
      simp only [hw.verify rfl, htext]
      exact ⟨_, rfl, fun e' he => by cases he⟩

/-- A load in a loop that reads what was stored in front of it. -/
theorem optimizeSource_of_verified_loop :
    let source := "kernel @k \x7b %a = alloca : i32 %c = arg 0 : u1 %v = const 7 : i32
      local_store %a, %v while \x7b while_control %c %x = local_load %a : i32 print %x \x7d \x7d".toList
    verifySource source = .ok (.ok ()) ∧ ∃ report, optimizeSource source (some 1) = .ok report ∧
      ∀ e, report.result = .error e → ∃ error, e = .pass error := by
  intro source
  have hvalid : verifySource source = .ok (.ok ()) := by decide +kernel
  obtain ⟨_, _, _, _, _, hreport⟩ := optimizeSource_of_verified hvalid (some 1)
  exact ⟨hvalid, hreport⟩

end KernelIR
