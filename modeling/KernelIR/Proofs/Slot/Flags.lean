import KernelIR.Proofs.Execution.Frame
import KernelIR.Proofs.Sweep
import KernelIR.Proofs.Text.Resolve

/-!
# What the flags of a walk tell

A walk behind a slot records whether the slot was written and read, whether the latest store
still holds, and whether the loop around the walk is known not to write the slot. All of this
can be relied on, in the tree of any sweep over a verified kernel.

The loop around a walk is taken not to write the slot on the word of another walk through its
body, and loops inside it are not asked again. Still, wherever a walk comes to with this
region, nothing that is still to come in its block writes the slot, what is in the slot is
known, and the walk through the block leaves this knowledge as it is (`quiet_of_noStores`). A
walk that comes to its end has found each write and each reading of the slot and nothing else
(`flags_of_scan`), and a store that holds is one that stands in the kernel.
-/

namespace KernelIR

namespace Slot

variable {slot : Slot} {root : Tree} {x y : Point}

/-! ## Loops that do not write -/

/-- In a loop that does not write the slot, what is in the slot is known : it was never written,
or the latest store holds. -/
def Point.Settled (x : Point) : Prop :=
  x.state.region = .noStores → x.state.stored = false ∨ x.state.storeHolds = true

theorem Point.Settled.next (h : x.Settled) (hi : Point.Inv slot root x) (hxy : slot.Next x y) :
    y.Settled := by
  intro hregion
  cases hxy with
  | @after id stmt first second rest scope st st' hv =>
    have hst : st.region = .noStores := (visit_flags hi.shaped hi.noStores hv).1.symm.trans hregion
    have hquiet : slot.writtenIn (.cons id stmt first second .nil) = false := by
      have := hi.noStores hst
      simp only [writtenIn_cons, Bool.or_eq_false_iff] at this
      simp [writtenIn_cons, this.1]
    have hsame := scan_sameStores hquiet ((scan_single id stmt).trans hv)
    exact (h hst).imp hsame.stored.trans hsame.storeHolds.trans
  | first => exact h hregion
  | second => exact h hregion
  | inner => exact h hregion
  | body => cases hregion
  | again ha hout hbody hrewalk =>
    -- the body is walked through again only because the contents in front of it are known
    simp only [SlotState.needsRewalk, Bool.and_eq_true, Bool.not_eq_true', Bool.or_eq_true]
      at hrewalk
    obtain ⟨⟨⟨⟨rfl, hstored⟩, -⟩, -⟩, hknown⟩ := hrewalk
    have hsame := SlotState.SameStores.mergeLoop hstored
    refine hknown.imp (fun hzero => ?_) (hsame _).storeHolds.trans
    simp only [SlotState.readsZero, Bool.and_eq_true, Bool.not_eq_true'] at hzero
    exact (hsame _).stored.trans hzero.1

theorem Walks.settled (h : slot.Walks root x) (ht : root.Shaped) (hn : root.ids.Nodup)
    {isSlot : StmtId → Bool} (hroot : ∀ p ∈ root.sites [], p.Fits isSlot)
    (hslot : slot ∈ root.slots) : x.Settled := by
  obtain ⟨p, hp, hid, hreach⟩ := h
  have hinv : ∀ {z}, slot.Reaches _ z → Point.Inv slot root z :=
    fun hz => Walks.inv ⟨p, hp, hid, hz⟩ ht hn hroot hslot
  induction hreach with
  | refl => exact fun hregion => by cases hregion
  | tail hreach hnext ih => exact ih.next (hinv hreach) hnext

/-! ## Writes and readings -/

theorem writtenIn_eq_true_iff {t : Tree} :
    slot.writtenIn t = true ↔ ∃ p ∈ t.preorder, slot.id ∈ p.2.kind.written := by
  simp only [writtenIn, List.any_eq_true, writes_eq_true_iff]

theorem readIn_eq_true_iff {t : Tree} : slot.readIn t = true ↔
    ∃ p ∈ t.preorder, slot.id ∈ p.2.kind.slotsRead ∨ slot.id ∈ p.2.kind.counters := by
  simp only [readIn, List.any_eq_true, reads_eq_true_iff]

end Slot

/-! ## In a verified kernel -/

/-- Wherever the walk behind a slot comes to in a loop that is taken not to write the slot, no
statement that is still to come in the block stores to the slot, operates on it atomically or
has it for a counter, at any depth. The slot was never written so far or the latest store
holds, and if the walk through the block is not ended early, nothing but the marks of reading
is changed by it. -/
theorem quiet_of_noStores {c : Context} {kernel : Kernel} (h : c.Verified kernel) {w : Work}
    (hw : (Work.start c).Reaches kernel.body w) {slot : Slot}
    (hslot : slot ∈ (w.context.tree kernel.body).slots) {x : Slot.Point}
    (hwalk : slot.Walks (w.context.tree kernel.body) x) (hregion : x.state.region = .noStores) :
    (∀ p ∈ x.tree.preorder, slot.id ∉ p.2.kind.written) ∧
      (x.state.stored = false ∨ x.state.storeHolds = true) ∧
      ∀ st, slot.scan x.tree x.state = .ok st → SlotState.SameStores x.state st := by
  have hkept := hw.kept h.kept
  have hshaped := Context.shaped_tree w.context kernel.body
  have hinv := hwalk.inv hshaped hkept.nodup hkept.valid.fits hslot
  have hquiet : slot.writtenIn x.tree = false := hinv.noStores hregion
  refine ⟨fun p hp hmem => ?_, hwalk.settled hshaped hkept.nodup hkept.valid.fits hslot hregion,
    fun st hscan => Slot.scan_sameStores hquiet hscan⟩
  exact Bool.false_ne_true (hquiet.symm.trans (Slot.writtenIn_eq_true_iff.2 ⟨p, hp, hmem⟩))

namespace NestedKernel

/-- A lane of a slot is read in a loop inside another one, and written in front of both. -/
def text : List Char :=
  "kernel @k \x7b %a = alloca : i32x2 %v = arg 0 : i32x2 %c = arg 1 : u1 local_store %a, %v while \x7b
    while_control %c while \x7b
      while_control %c %x = local_load [%a[1]] : i32 print %x \x7d \x7d \x7d".toList

/-- What the text is parsed to. -/
def context : Context where
  stmts := #[⟨.alloca, some ⟨.i32, 2⟩, some ⟨0⟩⟩, ⟨.arg 0, some ⟨.i32, 2⟩, some ⟨0⟩⟩,
    ⟨.arg 1, some ⟨.u1, 1⟩, some ⟨0⟩⟩, ⟨.store ⟨0⟩ ⟨1⟩, none, some ⟨0⟩⟩,
    ⟨.leave ⟨2⟩, none, some ⟨1⟩⟩,
    ⟨.leave ⟨2⟩, none, some ⟨2⟩⟩, ⟨.load [⟨⟨0⟩, 1⟩], some ⟨.i32, 1⟩, some ⟨2⟩⟩,
    ⟨.print ⟨6⟩, none, some ⟨2⟩⟩, ⟨.loop none ⟨2⟩, none, some ⟨1⟩⟩,
    ⟨.loop none ⟨1⟩, none, some ⟨0⟩⟩]
  blocks :=
    #[⟨[⟨0⟩, ⟨1⟩, ⟨2⟩, ⟨3⟩, ⟨9⟩], none⟩, ⟨[⟨4⟩, ⟨8⟩], some ⟨9⟩⟩, ⟨[⟨5⟩, ⟨6⟩, ⟨7⟩], some ⟨8⟩⟩]
  uses := [⟨⟨0⟩, ⟨3⟩, 0⟩, ⟨⟨1⟩, ⟨3⟩, 1⟩, ⟨⟨2⟩, ⟨4⟩, 0⟩, ⟨⟨2⟩, ⟨5⟩, 0⟩, ⟨⟨0⟩, ⟨6⟩, 0⟩, ⟨⟨6⟩, ⟨7⟩, 0⟩]

theorem verified : context.Verified ⟨"k", ⟨0⟩⟩ :=
  have hparse : parseKernel text .empty = .ok (.ok ⟨"k", ⟨0⟩⟩, context) := by decide +kernel
  Parsed.empty.tidy.verified hparse (by decide +kernel)

def slot : Slot :=
  ⟨⟨0⟩, some ⟨.i32, 2⟩, [⟨1⟩, ⟨2⟩, ⟨3⟩, ⟨9⟩].foldr (context.graft (context.treeAt 2)) .nil⟩

theorem slot_mem : slot ∈ (context.tree ⟨0⟩).slots :=
  .head _

/-- The body of the inner loop. -/
def inner : Tree :=
  [⟨5⟩, ⟨6⟩, ⟨7⟩].foldr (context.graft (context.treeAt 0)) .nil

end NestedKernel

open NestedKernel in
/-- The inner loop is not asked again whether it writes the slot. -/
theorem quiet_of_noStores_inner : context.Verified ⟨"k", ⟨0⟩⟩ ∧
    ∃ st, slot.Walks (context.tree ⟨0⟩) ⟨inner, [⟨2⟩, ⟨1⟩, ⟨0⟩], st⟩ ∧ st.region = .noStores ∧
      st.storeHolds = true ∧ ∃ st', slot.scan inner st = .ok st' ∧ SlotState.SameStores st st' := by
  have hsite : (⟨⟨0⟩, ⟨.alloca, some ⟨.i32, 2⟩, some ⟨0⟩⟩, []⟩ : Site) ∈
      (context.tree ⟨0⟩).sites [] := .head _
  have hreach : slot.Reaches ⟨slot.following, [⟨0⟩], .start .outside⟩
      ⟨inner, [⟨2⟩, ⟨1⟩, ⟨0⟩], ((SlotState.start .noStores).store ⟨3⟩ ⟨1⟩).load⟩ :=
    .head (.after rfl) (.head (.after rfl) (.head (.after rfl) (.head
      (.again rfl (by decide) rfl rfl) (.head (.after rfl) (.head (.inner rfl rfl) .refl)))))
  have hwalk : slot.Walks (context.tree ⟨0⟩) _ := ⟨_, hsite, rfl, hreach⟩
  obtain ⟨-, -, hsame⟩ :=
    quiet_of_noStores verified (w := .start context) .refl slot_mem hwalk rfl
  exact ⟨verified, _, hwalk, rfl, rfl, _, rfl, hsame _ rfl⟩

/-- At the end of the walk behind a slot, the slot is marked as written if and only if some
statement behind its declaration, at any depth, stores to it, operates on it atomically or has
it for a counter, and as read if and only if one of them loads a lane of it, operates on it
atomically or has it for a counter. If the latest store holds, it is a store to the slot that
stands in a block, and the latest value is the one it stores. -/
theorem flags_of_scan {c : Context} {kernel : Kernel} (h : c.Verified kernel) {w : Work}
    (hw : (Work.start c).Reaches kernel.body w) {slot : Slot}
    (hslot : slot ∈ (w.context.tree kernel.body).slots) {st : SlotState}
    (hscan : slot.scan slot.following (.start .outside) = .ok st) :
    (st.stored = true ↔ ∃ p ∈ slot.following.preorder, slot.id ∈ p.2.kind.written) ∧
      (st.loaded = true ↔ ∃ p ∈ slot.following.preorder,
        slot.id ∈ p.2.kind.slotsRead ∨ slot.id ∈ p.2.kind.counters) ∧
      (st.storeHolds = true → ∃ s v stmt b i, st.lastStore? = some s ∧ st.lastValue? = some v ∧
        w.context.stmt? s = some stmt ∧ stmt.kind = .store slot.id v ∧
        w.context.place? s = some (b, i)) := by
  have hkept := hw.kept h.kept
  obtain ⟨-, scope, -, -, -, hinv⟩ := hkept.exists_site_of_mem_slots hslot
  have hflags := Slot.scan_flags hinv.shaped hinv.noStores hscan
  simp only [SlotState.start, Bool.false_or] at hflags
  refine ⟨?_, ?_, fun hholds => ?_⟩
  · rw [hflags.1, Slot.writtenIn_eq_true_iff]
  · rw [hflags.2, Slot.readIn_eq_true_iff]
  · obtain ⟨s, v, stmt, hlast, hvalue, -, hm, ha⟩ :=
      (hinv.scan hkept.valid.fits hscan).holds hholds
    obtain ⟨b, i, hplace⟩ := hkept.intact.place?_of_mem (Tree.mem_ids.2 ⟨stmt, hm⟩)
    exact ⟨s, v, stmt, b, i, hlast, hvalue, Context.stmt?_of_mem_treeAt hm, Slot.action_eq_store ha,
      hplace⟩

open NestedKernel in
theorem flags_of_scan_nested : context.Verified ⟨"k", ⟨0⟩⟩ ∧
    ∃ st, slot.scan slot.following (.start .outside) = .ok st ∧
      (∃ p ∈ slot.following.preorder, slot.id ∈ p.2.kind.written) ∧
      (∃ p ∈ slot.following.preorder, slot.id ∈ p.2.kind.slotsRead ∨ slot.id ∈ p.2.kind.counters) ∧
      ∃ s v stmt, st.lastStore? = some s ∧ st.lastValue? = some v ∧
        context.stmt? s = some stmt ∧ stmt.kind = .store ⟨0⟩ v := by
  have hscan : slot.scan slot.following (.start .outside) =
      .ok ((SlotState.start .outside).store ⟨3⟩ ⟨1⟩).load := rfl
  obtain ⟨hstored, hloaded, hholds⟩ :=
    flags_of_scan verified (w := .start context) .refl slot_mem hscan
  obtain ⟨s, v, stmt, -, -, hlast, hvalue, hstmt, hkind, -⟩ := hholds rfl
  exact ⟨verified, _, rfl, hstored.1 rfl, hloaded.1 rfl, s, v, stmt, hlast, hvalue, hstmt, hkind⟩

end KernelIR
