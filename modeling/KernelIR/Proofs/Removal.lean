import KernelIR.Proofs.Meaning

/-!
# Atomic operations and slots that are taken out

A sweep that takes out a slot or an atomic operation is sound, whatever the sweeps before it have
done (`alike_of_drops`). Nothing takes the value of what is taken out, and in no execution does a
load or an atomic operation find in the slot what it has written there, be it in a later iteration
of a loop.

The stores that the optimizer wrongly removes play no part in this. They are removed by other
sweeps, and these keep what is relied on here (`Work.Reaches.typed`).
-/

namespace KernelIR

/-- Whether the rewrite takes out a statement that has a value, and nothing comes in its place. -/
def Rewrite.drops : Rewrite → Bool
  | deadAtomic _ | deadAlloca => true
  | _ => false

namespace Context.Sound

variable {c : Context} {root : BlockId} (h : c.Sound root) {slot : Slot} {rewrite : Rewrite}
include h

/-- Nothing takes the value of what is taken out. -/
theorem not_mem_operands_of_drops (ha : c.Allows (c.tree root) slot rewrite)
    (hdrops : rewrite.drops = true) :
    ∀ p ∈ (c.tree root).preorder, rewrite.old slot.id ∉ p.2.kind.operands := by
  cases ha with
  | deadAtomic _ _ hfree => exact hfree
  | deadAlloca hm _ hchain =>
    exact (h.valid.chain_eq_nil_iff (Tree.mem_ids_of_mem_preorder hm)).1 hchain
  | _ => cases hdrops

/-- Nothing reads what the statement that is taken out has written. -/
theorem unread_of_drops (hslot : slot ∈ (c.tree root).slots)
    (ha : slot.analyze (c.tree root) (c.chain slot.id ≠ []) = .error (.rewrite rewrite))
    (hdrops : rewrite.drops = true) {V : Type} (I : Interpretation V) (budget : Nat)
    (m : Memory V) :
    slot.Unread I budget (rewrite.old slot.id) (c.tree root) m := by
  obtain ⟨_, scope, -, -, -, -⟩ := h.kept.exists_site_of_mem_slots hslot
  rcases Slot.analyze_eq_rewrite ha scope with ⟨x, -, hasks⟩ | ⟨st, hscan, hleft⟩
  · -- the walk only asks to replace loads
    obtain ⟨_, _, _, _, _, -, -, hrewrite⟩ := hasks
    obtain ⟨_, -, -, -, ⟨-, rfl⟩ | ⟨-, _, -, rfl⟩⟩ := Slot.scanLoad_eq_rewrite hrewrite <;>
      cases hdrops
  · rcases leftover?_eq_some hleft with ⟨s, rfl, -⟩ | ⟨s, rfl, hlast, hunread, -⟩ | ⟨rfl, -⟩
    · cases hdrops
    · have hunread : st.unread? .atomic = some s := by simp [SlotState.unread?, hlast, hunread]
      exact Slot.unread_of_scan h.valid.fits (shaped_tree c root) h.nodup hslot
        (by simp) hscan hunread
    · intro id stmt n ho hread
      have hp := Tree.mem_preorder_of_reached I budget ho
      exact absurd (stmt.kind.slotsRead_subset_operands hread)
        (h.not_mem_operands_of_drops (h.allows hslot ha) rfl _ hp)

end Context.Sound

/-- A sweep that drops an atomic operation or a slot takes just this statement out of the tree, and
the executions do not show it. Nothing takes its value, and where the slot is read, it does not hold
what the statement has written. -/
theorem alike_of_drops {c₀ c : Context} {text : List Char} {kernel : Kernel} (h₀ : Parsed c₀)
    (hparse : parseKernel text c₀ = .ok (.ok kernel, c)) (hverify : c.verify kernel = .ok ())
    (htyped : (c.tree kernel.body).Typed) {w : Work} (hw : (Work.start c).Reaches kernel.body w)
    {s : StmtId} {rewrite : Rewrite}
    (hhalt : (w.sweep kernel.body).halt? = some (s, .rewrite rewrite))
    (hdrops : rewrite.drops = true) :
    let t := w.context.tree kernel.body
    ∃ w', w.Step kernel.body w' ∧ w'.context.tree kernel.body = t.remove (rewrite.old s) ∧
      t.Alike (t.remove (rewrite.old s)) ∧
      (∀ p ∈ t.preorder, rewrite.old s ∉ p.2.kind.operands) ∧
      ∀ {V : Type} (I : Interpretation V) (budget : Nat) (m : Memory V) {id stmt n},
        .reached id stmt n ∈ (t.run I budget m).observations → s ∈ stmt.kind.slotsRead →
          ∀ cell, n.cell? s = some cell → cell.writer ≠ rewrite.old s := by
  intro t
  have hsound := hw.sound (h₀.tidy.sound hparse hverify)
  have htyped : t.Typed := hw.typed (h₀.tidy.sound hparse hverify) htyped
  obtain ⟨slot, event, c', happly, -, hmakes⟩ := Work.makes_of_halt hsound.kept hhalt
  obtain rfl : slot.id = s :=
    congrArg Prod.fst (Option.some.inj (hmakes.halt.symm.trans hhalt))
  have htree : c'.tree kernel.body = t.remove (rewrite.old slot.id) := by
    refine hmakes.tree.trans ?_
    cases rewrite <;> first | rfl | cases hdrops
  refine ⟨_, .mk hhalt happly, htree, ?_, hsound.not_mem_operands_of_drops hmakes.allows hdrops,
    fun {V} I budget m {_ _ _} =>
      hsound.unread_of_drops hmakes.mem_slots hmakes.asked hdrops I budget m _ _ _⟩
  have hjustified := hmakes.justified hsound htyped (by rintro s rfl; cases hdrops)
  intro V I budget
  rw [← htree, hmakes.exchange]
  exact hjustified.run I budget

namespace ResetKernel

/-- A slot that is declared in a loop, and an atomic operation in a branch that nothing reads before
the slot is declared again. -/
def text : List Char :=
  "kernel @k \x7b %c = arg 0 : u1 %v = arg 1 : i32 while \x7b while_control %c %a = alloca : i32
    %p = atomic_add %a, %v : i32 print %p if %c \x7b %q = atomic_max %a, %v : i32 \x7d \x7d \x7d".toList

/-- What the text is parsed to. -/
def context : Context where
  stmts := #[⟨.arg 0, some ⟨.u1, 1⟩, some ⟨0⟩⟩, ⟨.arg 1, some ⟨.i32, 1⟩, some ⟨0⟩⟩,
    ⟨.leave ⟨0⟩, none, some ⟨1⟩⟩, ⟨.alloca, some ⟨.i32, 1⟩, some ⟨1⟩⟩,
    ⟨.atomic .add ⟨3⟩ ⟨1⟩, some ⟨.i32, 1⟩, some ⟨1⟩⟩, ⟨.print ⟨4⟩, none, some ⟨1⟩⟩,
    ⟨.atomic .max ⟨3⟩ ⟨1⟩, some ⟨.i32, 1⟩, some ⟨2⟩⟩,
    ⟨.branch ⟨0⟩ none none (some ⟨2⟩) none, none, some ⟨1⟩⟩, ⟨.loop none ⟨1⟩, none, some ⟨0⟩⟩]
  blocks := #[⟨[⟨0⟩, ⟨1⟩, ⟨8⟩], none⟩, ⟨[⟨2⟩, ⟨3⟩, ⟨4⟩, ⟨5⟩, ⟨7⟩], some ⟨8⟩⟩, ⟨[⟨6⟩], some ⟨7⟩⟩]
  uses := [⟨⟨0⟩, ⟨2⟩, 0⟩, ⟨⟨3⟩, ⟨4⟩, 0⟩, ⟨⟨1⟩, ⟨4⟩, 1⟩, ⟨⟨4⟩, ⟨5⟩, 0⟩, ⟨⟨3⟩, ⟨6⟩, 0⟩, ⟨⟨1⟩, ⟨6⟩, 1⟩,
    ⟨⟨0⟩, ⟨7⟩, 0⟩]

end ResetKernel

open LoopKernel ResetKernel in
/-- The first sweep drops the atomic operation in the branch, and the other one is still printed. -/
theorem alike_of_drops_reset :
    parseKernel ResetKernel.text .empty = .ok (.ok ⟨"k", ⟨0⟩⟩, ResetKernel.context) ∧
      ResetKernel.context.verify ⟨"k", ⟨0⟩⟩ = .ok () ∧ (ResetKernel.context.tree ⟨0⟩).Typed ∧
      ((Work.start ResetKernel.context).sweep ⟨0⟩).halt? =
        some (⟨3⟩, .rewrite (.deadAtomic ⟨6⟩)) ∧
      (Rewrite.deadAtomic ⟨6⟩).drops = true ∧
      ∃ w', (Work.start ResetKernel.context).Step ⟨0⟩ w' ∧ ⟨6⟩ ∉ (w'.context.tree ⟨0⟩).ids ∧
        ((w'.context.tree ⟨0⟩).run always 2 .empty).prints = [[0], [0]] := by
  have hparse : parseKernel ResetKernel.text .empty =
      .ok (.ok ⟨"k", ⟨0⟩⟩, ResetKernel.context) := by decide +kernel
  have hverify : ResetKernel.context.verify ⟨"k", ⟨0⟩⟩ = .ok () := by decide +kernel
  have htyped : (ResetKernel.context.tree ⟨0⟩).Typed := by decide +kernel
  have hhalt : ((Work.start ResetKernel.context).sweep ⟨0⟩).halt? =
      some (⟨3⟩, .rewrite (.deadAtomic ⟨6⟩)) := by decide +kernel
  have hgone : ⟨6⟩ ∉ ((ResetKernel.context.tree ⟨0⟩).remove ⟨6⟩).ids := by decide +kernel
  have hprints : ((ResetKernel.context.tree ⟨0⟩).run always 2 .empty).prints = [[0], [0]] := by
    decide +kernel
  obtain ⟨w', hstep, htree, halike, -, -⟩ :=
    alike_of_drops .empty hparse hverify htyped .refl hhalt rfl
  refine ⟨hparse, hverify, htyped, hhalt, rfl, w', hstep, htree ▸ hgone, ?_⟩
  rw [htree]
  exact (halike always 2).2.trans hprints

end KernelIR
