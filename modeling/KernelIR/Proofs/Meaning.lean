import KernelIR.Proofs.Execution.Rewrite

/-!
# The optimizer keeps the meaning

No sweep shows in the executions of a kernel, as long as it does not remove a store of which a
join has forgotten that it is read (`Work.Forgets`). So an optimized kernel ends and prints like
the one that it was made from, whatever the limit of sweeps was (`prints_of_optimizeSlots`).
Kernels without `else` are always of this kind (`Work.Reaches.not_forgets`).

`ForgetfulKernel` is a kernel where a join does forget, and a store is lost that is printed.
-/

namespace KernelIR

/-- Executions of both trees end in the same way and print the same. -/
def Tree.Alike (t t' : Tree) : Prop :=
  ∀ {V : Type} (I : Interpretation V) (budget : Nat),
    (t'.run I budget .empty).signal = (t.run I budget .empty).signal ∧
      (t'.run I budget .empty).prints = (t.run I budget .empty).prints

namespace Work

variable {root : BlockId} {w w' : Work}

/-- The next sweep removes a store that a join has forgotten a reading of. -/
def Forgets (root : BlockId) (w : Work) : Prop :=
  ∃ slot ∈ (w.context.tree root).slots, ∃ s x,
    (w.sweep root).halt? = some (slot.id, .rewrite (.deadStore s)) ∧
      slot.Walks (w.context.tree root) x ∧ slot.Forgets s x

/-- A rewrite that is made is an exchange. -/
theorem Makes.exchange {slot : Slot} {rewrite : Rewrite} (h : Makes root w slot rewrite w') :
    w'.context.tree root = (w.context.tree root).exchange (rewrite.exchange slot.id
      ⟨w.context.stmts.size⟩ (w.context.home? (rewrite.old slot.id))) := by
  rw [h.tree, Rewrite.onTree_eq_exchange]
  obtain ⟨stmt, hm, -⟩ := h.allows.exists_old
  rw [Rewrite.old_exchange]
  exact fun heq => Context.fresh_not_mem_ids (heq ▸ Tree.mem_ids_of_mem_preorder hm)

/-- A rewrite that is made does not show, except where it removes a store that a join has forgotten
a reading of. -/
theorem Makes.justified {slot : Slot} {rewrite : Rewrite} (h : Makes root w slot rewrite w')
    (hw : w.context.Sound root) (htyped : (w.context.tree root).Typed)
    (hf : ∀ s, rewrite = .deadStore s → ∀ x, slot.Walks (w.context.tree root) x →
      ¬slot.Forgets s x) :
    (rewrite.exchange slot.id ⟨w.context.stmts.size⟩
      (w.context.home? (rewrite.old slot.id))).Justified (w.context.tree root) :=
  hw.justified h.mem_slots htyped h.asked hf _

/-- Steps keep what is stored to the types of the slots, whether they show or not. -/
theorem Step.typed (h : Step root w w') (hw : w.context.Sound root)
    (htyped : (w.context.tree root).Typed) : (w'.context.tree root).Typed := by
  obtain ⟨-, slot, rewrite, hmakes⟩ := h.makes hw.kept
  rw [hmakes.exchange]
  refine (hw.kept.apt hmakes.allows _).typed ?_ (fun p hp v hv => ?_) htyped
  · cases rewrite with
    | deadStore s =>
      rintro stmt hm u (hu | hu)
      · rw [Tree.stmt_unique hw.nodup hu hm]
      · cases hu
    | _ => exact (hmakes.justified hw htyped (by simp)).type
  · obtain ⟨u, hu, -⟩ := hw.exists_of_mem_operands hp hv
    exact ⟨u, hu⟩

theorem Reaches.typed (h : Reaches root w w') (hw : w.context.Sound root)
    (htyped : (w.context.tree root).Typed) : (w'.context.tree root).Typed := by
  induction h with
  | refl => exact htyped
  | tail hreach hstep ih => exact hstep.typed (Reaches.sound hreach hw) ih

/-- A step that forgets nothing does not show. -/
theorem Step.alike (h : Step root w w') (hw : w.context.Sound root)
    (htyped : (w.context.tree root).Typed) (hf : ¬w.Forgets root) :
    (w.context.tree root).Alike (w'.context.tree root) := by
  obtain ⟨-, slot, rewrite, hmakes⟩ := h.makes hw.kept
  rw [hmakes.exchange]
  exact (hmakes.justified hw htyped fun s heq x hwalk hx =>
    hf ⟨slot, hmakes.mem_slots, s, x, heq ▸ hmakes.halt, hwalk, hx⟩).run

theorem Reaches.alike (h : Reaches root w w') (hw : w.context.Sound root)
    (htyped : (w.context.tree root).Typed) (hf : ∀ v, Reaches root w v → ¬v.Forgets root) :
    (w.context.tree root).Alike (w'.context.tree root) := by
  induction h with
  | refl => exact fun I budget => ⟨rfl, rfl⟩
  | @tail v v' hreach hstep ih =>
    intro V I budget
    obtain ⟨hsignal, hprints⟩ :=
      hstep.alike (Reaches.sound hreach hw) (Reaches.typed hreach hw htyped) (hf v hreach) I budget
    exact ⟨hsignal.trans (ih I budget).1, hprints.trans (ih I budget).2⟩

/-! ## Kernels without `else` -/

theorem not_forgets (hw : w.context.Sound root)
    (h : ∀ p ∈ (w.context.tree root).preorder, p.2.kind.secondBlock? = none) :
    ¬w.Forgets root := by
  rintro ⟨slot, hslot, s, ⟨t, scope, st⟩, -, hwalk, hx⟩
  obtain ⟨id, stmt, first, second, rest, thenState, elseState, rfl, -, -, -, -, -, -, -, -, -, -, -,
    hexposes⟩ := hx
  have hpoint := hwalk.inv (Context.shaped_tree _ _) hw.nodup hw.valid.fits hslot
  obtain rfl := hpoint.shaped.2.1 (h _ hpoint.mem_preorder)
  cases hexposes

/-- Nothing is forgotten on the way, if no statement has a second block. -/
theorem Reaches.not_forgets (h : Reaches root w w') (hw : w.context.Sound root)
    (hsecond : ∀ p ∈ (w.context.tree root).preorder, p.2.kind.secondBlock? = none) :
    ¬w'.Forgets root := by
  refine Work.not_forgets (Reaches.sound h hw) ?_
  induction h with
  | refl => exact hsecond
  | tail hreach hstep ih =>
    intro q hq
    obtain ⟨-, slot, rewrite, hmakes⟩ := hstep.makes (Reaches.kept hreach hw.kept)
    rw [hmakes.exchange] at hq
    rcases Exchange.mem_preorder_exchange hq with hnew | ⟨p, hp, -, rfl⟩
    · cases rewrite <;> simp only [Rewrite.exchange, reduceCtorEq, Option.some.injEq] at hnew
      subst hnew
      rfl
    · simpa [Stmt.mapKind, Kind.replace] using ih p hp

end Work

/-- Optimizing a verified kernel keeps its meaning, with any limit of sweeps, if stores and
atomic operations keep to the types of their slots and no sweep removes a store that a join has
forgotten a reading of. -/
theorem prints_of_optimizeSlots {c₀ c : Context} {text : List Char} {kernel : Kernel}
    (h₀ : Parsed c₀) (hparse : parseKernel text c₀ = .ok (.ok kernel, c))
    (hverify : c.verify kernel = .ok ()) (htyped : (c.tree kernel.body).Typed)
    (hf : ∀ w, (Work.start c).Reaches kernel.body w → ¬w.Forgets kernel.body)
    (maxSweeps? : Option Nat) :
    ∃ outcome c', optimizeSlots kernel.body maxSweeps? c = .ok (outcome, c') ∧
      (c.tree kernel.body).Alike (c'.tree kernel.body) := by
  have hsound := h₀.tidy.sound hparse hverify
  obtain ⟨outcome, w, hrun, hreach, -⟩ := hsound.optimizeSlots maxSweeps?
  exact ⟨outcome, w.context, hrun, hreach.alike hsound htyped hf⟩

open LoopKernel in
/-- The kernel with a loop prints the same, however often its body runs. -/
theorem prints_of_optimizeSlots_loop : parseKernel text .empty = .ok (.ok ⟨"k", ⟨0⟩⟩, context) ∧
    context.verify ⟨"k", ⟨0⟩⟩ = .ok () ∧ (context.tree ⟨0⟩).Typed ∧
    ∃ outcome c', optimizeSlots ⟨0⟩ none context = .ok (outcome, c') ∧
      ((c'.tree ⟨0⟩).run always 2 .empty).prints = [[1], [1]] := by
  have htyped : (context.tree ⟨0⟩).Typed := by decide +kernel
  have hsecond : ∀ p ∈ (context.tree ⟨0⟩).preorder, p.2.kind.secondBlock? = none := by
    decide +kernel
  have hsound := Parsed.empty.tidy.sound parse verify
  obtain ⟨outcome, c', hrun, halike⟩ := prints_of_optimizeSlots .empty parse verify htyped
    (fun w hw => hw.not_forgets hsound hsecond) none
  exact ⟨parse, verify, htyped, outcome, c', hrun, (halike always 2).2⟩

namespace ForgetfulKernel

/-- One branch leaves the store in front of it, and the other one reads it before it stores
the same value again. -/
def text : List Char :=
  "kernel @k \x7b %c = arg 0 : u1 %v = arg 1 : i32 %a = alloca : i32 local_store %a, %v
    if %c \x7b \x7d else \x7b %t = atomic_add %a, %v : i32 print %t local_store %a, %v \x7d \x7d".toList

/-- What the text is parsed to. -/
def context : Context where
  stmts := #[⟨.arg 0, some ⟨.u1, 1⟩, some ⟨0⟩⟩, ⟨.arg 1, some ⟨.i32, 1⟩, some ⟨0⟩⟩,
    ⟨.alloca, some ⟨.i32, 1⟩, some ⟨0⟩⟩, ⟨.store ⟨2⟩ ⟨1⟩, none, some ⟨0⟩⟩,
    ⟨.atomic .add ⟨2⟩ ⟨1⟩, some ⟨.i32, 1⟩, some ⟨2⟩⟩, ⟨.print ⟨4⟩, none, some ⟨2⟩⟩,
    ⟨.store ⟨2⟩ ⟨1⟩, none, some ⟨2⟩⟩, ⟨.branch ⟨0⟩ none none (some ⟨1⟩) (some ⟨2⟩), none, some ⟨0⟩⟩]
  blocks := #[⟨[⟨0⟩, ⟨1⟩, ⟨2⟩, ⟨3⟩, ⟨7⟩], none⟩, ⟨[], some ⟨7⟩⟩, ⟨[⟨4⟩, ⟨5⟩, ⟨6⟩], some ⟨7⟩⟩]
  uses := [⟨⟨2⟩, ⟨3⟩, 0⟩, ⟨⟨1⟩, ⟨3⟩, 1⟩, ⟨⟨2⟩, ⟨4⟩, 0⟩, ⟨⟨1⟩, ⟨4⟩, 1⟩, ⟨⟨4⟩, ⟨5⟩, 0⟩, ⟨⟨2⟩, ⟨6⟩, 0⟩,
    ⟨⟨1⟩, ⟨6⟩, 1⟩, ⟨⟨0⟩, ⟨7⟩, 0⟩]

/-- No condition holds. -/
def never : Interpretation Nat :=
  { LoopKernel.always with truth := fun _ => false }

end ForgetfulKernel

open ForgetfulKernel in
/-- The optimizer loses the store that is printed. -/
theorem exists_lost_print : parseKernel text .empty = .ok (.ok ⟨"k", ⟨0⟩⟩, context) ∧
    context.verify ⟨"k", ⟨0⟩⟩ = .ok () ∧ (context.tree ⟨0⟩).Typed ∧
    ∃ outcome stats c', optimizeSlots ⟨0⟩ none context = .ok (outcome, c') ∧
      outcome.result = .ok stats ∧
      ((context.tree ⟨0⟩).run never 1 .empty).prints = [[2]] ∧
      ((c'.tree ⟨0⟩).run never 1 .empty).prints = [[0]] :=
  ⟨by decide +kernel, by decide +kernel, by decide +kernel, _, _, _, rfl, rfl, rfl, rfl⟩

end KernelIR
