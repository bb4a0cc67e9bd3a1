import KernelIR.Proofs.Limits
import KernelIR.Proofs.Lockstep
import KernelIR.Proofs.Rejection
import KernelIR.Proofs.Context.Parts
import KernelIR.Proofs.Text.Renumbering

/-!
# Kernels that share a context

Any number of texts can be parsed into one context, with success or without. Each text makes a part
of its own : what is parsed before it and behind it is left as it was (`Context.Grows.confined`),
and a kernel is the same tree however much is parsed behind it (`Context.Tidy.tree_of_parses`).

What a verified kernel uses and what uses it is in the kernel (`Context.Sound.separate`), and so all
that the optimizer does is confined to the kernel and to statements that are new
(`Work.Reaches.confined`). So kernels do not interfere (`optimizeSlots_shared`) : each is optimized
as it is alone, and the others stay as they are.
-/

namespace KernelIR

/-! ## Parsing -/

/-- What is made when there are `n` statements and `m` blocks. -/
def Part.since (n m : Nat) : Part where
  stmt s := n ≤ s.index
  block b := m ≤ b.index

/-- Any number of texts are parsed, one after the other. -/
def Parses : Context → Context → Prop :=
  Relation.ReflTransGen fun c c' => ∃ text result, parseKernel text c = .ok (result, c')

theorem Parsed.of_parses {c c' : Context} (h : Parsed c) (hp : Parses c c') : Parsed c' := by
  induction hp with
  | refl => exact h
  | tail _ hparse ih =>
    obtain ⟨text, result, hparse⟩ := hparse
    exact .parse ih hparse

namespace Context

variable {c c' : Context} {n m : Nat}

theorem Adds.mono {k l : Nat} (h : Adds n m c c') (hn : k ≤ n) (hm : l ≤ m) : Adds k l c c' := by
  cases h with
  | createBlock hc => exact .createBlock hc
  | createStmt hops hblocks hsized hc =>
    exact .createStmt (fun v hv => ⟨Nat.le_trans hn (hops v hv).1, (hops v hv).2⟩)
      (fun d hd => Nat.le_trans hm (hblocks d hd)) hsized hc
  | push hs hfrom hblocks hc =>
    exact .push hs ⟨Nat.le_trans hn hfrom.1, Nat.le_trans hm hfrom.2⟩ hblocks hc

theorem Grows.mono {k l : Nat} (h : c.Grows n m c') (hn : k ≤ n) (hm : l ≤ m) : c.Grows k l c' := by
  induction h with
  | refl => exact .refl
  | tail _ hadds ih => exact .tail ih (hadds.mono hn hm)

/-- An operation of a parser leaves what was there when it began. -/
theorem Adds.confined (h : Adds n m c c') (hn : n ≤ c.stmts.size) (hm : m ≤ c.blocks.size) :
    c.Confined (.since n m) c' := by
  cases h with
  | createBlock hc => exact confined_createBlock hm hc
  | createStmt hops hblocks _ hc =>
    exact confined_createStmt hn (fun v hv => (hops v hv).1) hblocks hc
  | push _ hfrom _ hc => exact confined_push hfrom.1 hfrom.2 hc

theorem Grows.confined (h : c.Grows n m c') (hn : n ≤ c.stmts.size) (hm : m ≤ c.blocks.size) :
    c.Confined (.since n m) c' := by
  induction h with
  | refl => exact .refl _ _
  | tail hgrows hadds ih =>
    obtain ⟨hstmts, hblocks⟩ := Grows.size_le hgrows
    exact ih.trans (hadds.confined (Nat.le_trans hn hstmts) (Nat.le_trans hm hblocks))

theorem grows_of_parses (h : Parses c c') : c.Grows c.stmts.size c.blocks.size c' := by
  induction h with
  | refl => exact .refl
  | tail _ hparse ih =>
    obtain ⟨text, result, hparse⟩ := hparse
    obtain ⟨hstmts, hblocks⟩ := ih.size_le
    exact ih.trans ((grows_parseKernel hparse).1.mono hstmts hblocks)

namespace Tidy

variable (h : c.Tidy)
include h

theorem separate_since : c.Separate (.since c.stmts.size c.blocks.size) where
  used u hu := by
    obtain ⟨hvalue, huser⟩ := h.defined u hu
    exact iff_of_false (Nat.not_le.2 (isSome_stmt?_iff.1 hvalue))
      (Nat.not_le.2 (isSome_stmt?_iff.1 huser))
  home {s b} hs hb := by
    obtain ⟨stmt, hstmt, -⟩ := Option.bind_eq_some_iff.1 hb
    exact absurd (isSome_stmt?_iff.1 (by simp [hstmt])) (Nat.not_lt.2 hs)

theorem excludes_since : c.Excludes (.since c.stmts.size c.blocks.size) where
  listed _ hs := Nat.not_le.2 (isSome_stmt?_iff.1 (h.history.isSome_of_listed hs))
  owned {s stmt b} _ hs hb := by
    obtain ⟨block, hblock, -⟩ := Option.bind_eq_some_iff.1 (h.reachable.intact.owner hs hb)
    exact Nat.not_le.2 (isSome_block?_iff.1 (by simp [hblock]))

/-- A block lies below older blocks. -/
theorem le_and_lt_of_below {b root : BlockId} (hroot : root.index < c.blocks.size)
    (hb : Relation.ReflTransGen c.Nests b root) :
    root.index ≤ b.index ∧ b.index < c.blocks.size := by
  induction hb using Relation.ReflTransGen.head_induction_on with
  | refl => exact ⟨Nat.le_refl _, hroot⟩
  | head hn _ ih =>
    obtain ⟨hlt, hsize⟩ := h.lt_of_nests hn
    exact ⟨Nat.le_trans ih.1 (Nat.le_of_lt hlt), hsize⟩

/-- Parsing leaves what has been parsed before. -/
theorem spares_of_parses (hp : Parses c c') : c.Spares (.since c.stmts.size c.blocks.size) c' :=
  ((grows_of_parses hp).confined (Nat.le_refl _) (Nat.le_refl _) h.separate_since).2

/-- A kernel stays the same tree whatever is parsed behind it. -/
theorem tree_of_parses (hp : Parses c c') {b : BlockId} (hb : (c.block? b).isSome = true) :
    c'.tree b = c.tree b :=
  (h.spares_of_parses hp).tree_eq h.excludes_since (Nat.not_le.2 (isSome_block?_iff.1 hb))
    (h.finiteBelow b) (grows_of_parses hp).size_le.2

end Tidy

end Context

/-! ## Optimizing -/

/-- The statements and the blocks below a block, and the statements that are still to be made. -/
def Context.below (c : Context) (root : BlockId) : Part where
  stmt s := s ∈ (c.tree root).ids ∨ c.stmts.size ≤ s.index
  block b := Relation.ReflTransGen c.Nests b root

/-- What a verified kernel uses and what uses it is in the kernel. -/
theorem Context.Sound.separate {c : Context} {root : BlockId} {gone : List StmtId}
    (h : c.Sound root) (hr : c.Recorded gone) : c.Separate (c.below root) where
  used u hu := by
    obtain ⟨hvalue, huser⟩ := h.defined u hu
    have hvalue := isSome_stmt?_iff.1 hvalue
    have huser := isSome_stmt?_iff.1 huser
    refine or_congr ⟨fun hv => ?_, fun hs => ?_⟩ (iff_of_false (by omega) (by omega))
    · obtain ⟨stmt, hm, -⟩ := h.valid.held u hu hv
      exact Tree.mem_ids_of_mem_preorder hm
    · obtain ⟨stmt, hm⟩ := Tree.mem_ids.1 hs
      obtain ⟨stmt', hs', hop⟩ := hr.held u hu
      obtain rfl := Option.some.inj (hs'.symm.trans (stmt?_of_mem_treeAt hm))
      obtain ⟨w, hw, -⟩ := h.exists_of_mem_operands hm (List.mem_of_getElem? hop)
      exact Tree.mem_ids_of_mem_preorder hw
  home {s b} hs hb := by
    obtain ⟨stmt, hstmt, -⟩ := Option.bind_eq_some_iff.1 hb
    have hlt : s.index < c.stmts.size := isSome_stmt?_iff.1 (by simp [hstmt])
    have hids : s ∈ (c.tree root).ids := hs.resolve_right (Nat.not_le.2 hlt)
    obtain ⟨d, hd, hbelow⟩ := (mem_ids_tree_iff h.intact h.finite).1 hids
    obtain rfl : b = d := Option.some.inj (hb.symm.trans (h.intact.home hd))
    exact hbelow

/-- A rewrite only touches the statement that it takes out, and what takes its place. -/
theorem Rewrite.confined_apply {P : Part} {c c' : Context} {t : Tree} {slot : Slot}
    {rewrite : Rewrite} {event : Event} (h : c.Allows t slot rewrite)
    (hids : ∀ s ∈ t.ids, P.stmt s) (hfresh : P.stmt ⟨c.stmts.size⟩)
    (happly : rewrite.apply slot.id c = .ok (event, c')) : c.Confined P c' := by
  have hremove : ∀ {s d} {e : Event}, P.stmt s →
      (Context.erase s >>= fun _ => pure e : Edit Event) d = .ok (event, c') → d.Confined P c' := by
    intro s d e hs hrun
    obtain ⟨⟨⟩, d', herase, hpure⟩ := Edit.exists_of_bind hrun
    obtain ⟨-, rfl⟩ := Prod.mk.inj (Except.ok.inj hpure)
    exact Context.confined_erase hs herase
  obtain ⟨stmt, hm, -⟩ := h.exists_old
  have hold := hids _ (Tree.mem_ids_of_mem_preorder hm)
  cases h with
  | zeroFold =>
    obtain ⟨zero, d₁, hcreate, hrun⟩ := Edit.exists_of_bind happly
    obtain ⟨⟨⟩, d₂, hinsert, hrun⟩ := Edit.exists_of_bind hrun
    obtain ⟨⟨⟩, d₃, hreplace, hrun⟩ := Edit.exists_of_bind hrun
    have hzero : P.stmt zero := (Context.createStmt_eq_ok hcreate).id_eq ▸ hfresh
    exact ((Context.confined_createStmt hfresh (by simp [Kind.operands])
      (by simp [Kind.blocks, Kind.firstBlock?, Kind.secondBlock?]) hcreate).trans
        (Context.confined_insertAfter hold hzero hinsert)).trans
          ((Context.confined_replaceAllUses hold hzero hreplace).trans (hremove hold hrun))
  | forward hp _ _ hvisible =>
    obtain ⟨w, hw, -⟩ := (Tree.mem_scope_of_mem_sites hp hvisible).resolve_left List.not_mem_nil
    obtain ⟨⟨⟩, d, hreplace, hrun⟩ := Edit.exists_of_bind happly
    exact (Context.confined_replaceAllUses hold (hids _ (Tree.mem_ids_of_mem_preorder hw))
      hreplace).trans (hremove hold hrun)
  | deadStore | deadAtomic | deadAlloca => exact hremove hold happly

namespace Work

variable {root : BlockId} {w w' : Work} {strict : Bool}

/-- The statements below the root and those that are still to be made are in the part. -/
structure Within (P : Part) (root : BlockId) (w : Work) : Prop where
  ids : ∀ s ∈ (w.context.tree root).ids, P.stmt s
  fresh : ∀ s : StmtId, w.context.stmts.size ≤ s.index → P.stmt s

theorem Step.confined {P : Part} (h : Step root w w') (hw : w.context.Kept strict root)
    (hP : w.Within P root) : w.context.Confined P w'.context ∧ w'.Within P root := by
  cases h with
  | @mk s rewrite event c' halt apply =>
    obtain ⟨slot, event', c'', happly, -, hmakes⟩ := makes_of_halt hw halt
    obtain ⟨rfl, rfl⟩ := Prod.mk.inj (Except.ok.inj (apply.symm.trans happly))
    obtain rfl : s = slot.id := congrArg Prod.fst (Option.some.inj (halt.symm.trans hmakes.halt))
    refine ⟨Rewrite.confined_apply hmakes.allows hP.ids (hP.fresh _ (Nat.le_refl _)) happly,
      fun s hs => ?_, fun s hs => hP.fresh s (Nat.le_trans ?_ hs)⟩
    · obtain ⟨stmt, hm⟩ := Tree.mem_ids.1 hs
      rw [hmakes.exchange] at hm
      rcases Exchange.mem_preorder_exchange hm with hnew | ⟨p, hp, -, heq⟩
      · obtain rfl : s = ⟨w.context.stmts.size⟩ := by
          revert hnew
          cases hmakes.allows <;> grind [Rewrite.exchange]
        exact hP.fresh _ (Nat.le_refl _)
      · obtain rfl : s = p.1 := congrArg Prod.fst heq
        exact hP.ids _ (Tree.mem_ids_of_mem_preorder hp)
    · rw [show _ = _ from (Rewrite.apply_eq_ok happly).2]
      exact Nat.le_add_right _ _

theorem Reaches.confined {P : Part} (h : Reaches root w w') (hw : w.context.Kept strict root)
    (hP : w.Within P root) : w.context.Confined P w'.context ∧ w'.Within P root := by
  induction h with
  | refl => exact ⟨.refl _ _, hP⟩
  | tail hreach hstep ih =>
    obtain ⟨hconfined, hwithin⟩ := ih
    obtain ⟨hnext, hwithin'⟩ := hstep.confined (Reaches.kept hreach hw) hwithin
    exact ⟨hconfined.trans hnext, hwithin'⟩

end Work

/-! ## Errors -/

namespace PassError

/-- The statements that an error names. -/
def stmts : PassError → List StmtId
  | maskedIf s | maskedWhile s => [s]
  | nestedLoopVar slot s => [slot, s]

theorem rename_congr {f g : StmtId → StmtId} {error : PassError}
    (h : ∀ s ∈ error.stmts, f s = g s) :
    error.rename f = error.rename g := by
  cases error <;> simp_all [stmts, rename]

end PassError

theorem Tree.mem_of_offences {slot : StmtId} {nested : Bool} {t : Tree} {error : PassError}
    (h : error ∈ t.offences slot nested) {s : StmtId} (hs : s ∈ error.stmts) :
    s = slot ∨ s ∈ t.ids := by
  induction t generalizing nested with
  | nil => cases h
  | cons id stmt first second rest ih₁ ih₂ ih₃ =>
    simp only [offences, List.mem_append, Option.mem_toList, ids_cons, List.mem_cons] at h ⊢
    rcases h with (h | h | h) | h
    · have hstmt : s = slot ∨ s = id := by
        cases hk : stmt.kind <;> simp only [hk, Kind.offence?, reduceCtorEq] at h <;>
          split at h <;> cases h <;> simp_all [PassError.stmts]
      exact hstmt.imp_right .inl
    · exact (ih₁ h).imp_right fun h => .inr (.inl (.inl h))
    · exact (ih₂ h).imp_right fun h => .inr (.inl (.inr h))
    · exact (ih₃ h).imp_right fun h => .inr (.inr h)

/-- The first error names statements of the tree. -/
theorem Tree.mem_ids_of_firstOffence? {t : Tree} {error : PassError}
    (h : t.firstOffence? = some error) {s : StmtId} (hs : s ∈ error.stmts) : s ∈ t.ids := by
  obtain ⟨slot, hslot, hhead⟩ := List.exists_of_findSome?_eq_some h
  obtain ⟨hid, hfollowing⟩ := Slot.subset_of_mem_slots hslot
  rcases mem_of_offences (List.mem_of_mem_head? hhead) hs with rfl | hs
  · exact hid
  · obtain ⟨stmt, hm⟩ := mem_ids.1 hs
    exact mem_ids_of_mem_preorder (hfollowing hm)

/-! ## Kernels that share a context -/

/-- The numbers below `m` are moved up by `n`, and those from `m` on to `k` and up. -/
def StmtId.relocate (n m k : Nat) (s : StmtId) : StmtId :=
  ⟨if s.index < m then s.index + n else s.index - m + k⟩

theorem StmtId.relocate_injective {n m k : Nat} (h : n + m ≤ k) : (relocate n m k).Injective := by
  rintro ⟨i⟩ ⟨j⟩ heq
  have hindex := congrArg index heq
  simp only [relocate] at hindex
  split at hindex <;> split at hindex <;> congr 1 <;> omega

/-- A kernel that shares a context. It was parsed to between `before` and `after`, and any other
texts have been parsed in front of it and behind it. -/
structure Shared (text : List Char) (kernel : Kernel) (before after c : Context) : Prop where
  parsed : Parsed before
  parse : parseKernel text before = .ok (.ok kernel, after)
  parses : Parses after c

namespace Shared

variable {text : List Char} {kernel : Kernel} {before after c : Context}
  (h : Shared text kernel before after c)
include h

theorem tidy_after : after.Tidy :=
  (h.parsed.parse h.parse).tidy

theorem tidy : c.Tidy :=
  ((h.parsed.parse h.parse).of_parses h.parses).tidy

theorem body_lt_size_after : kernel.body.index < after.blocks.size :=
  Context.isSome_block?_iff.1 ((h.parsed.tidy.parseKernel h.parse).2 kernel rfl)

theorem present : (c.block? kernel.body).isSome = true :=
  Context.isSome_block?_iff.2
    (Nat.lt_of_lt_of_le h.body_lt_size_after (Context.grows_of_parses h.parses).size_le.2)

theorem sound (hverify : c.verify kernel = .ok ()) : c.Sound kernel.body :=
  h.tidy.sound_of_verify h.present hverify

theorem tree_eq : c.tree kernel.body = after.tree kernel.body :=
  h.tidy_after.tree_of_parses h.parses (Context.isSome_block?_iff.2 h.body_lt_size_after)

theorem size_after : after.stmts.size = before.stmts.size + (c.tree kernel.body).size := by
  rw [h.tree_eq]
  exact (h.parsed.tidy.numbered h.parse).2.2

/-- The kernel has the statements that were made when it was parsed. -/
theorem mem_ids_iff {s : StmtId} : s ∈ (c.tree kernel.body).ids ↔
    before.stmts.size ≤ s.index ∧ s.index < after.stmts.size := by
  rw [h.size_after, h.tree_eq]
  exact (h.parsed.tidy.numbered h.parse).2.1.mem_ids_iff

/-- What was made in front of the kernel or behind it is not of the kernel. -/
theorem not_below_stmt {s : StmtId} (hs : s.index < before.stmts.size ∨
    after.stmts.size ≤ s.index ∧ s.index < c.stmts.size) : ¬(c.below kernel.body).stmt s := by
  have hsize := h.size_after
  have hle := (Context.grows_of_parses h.parses).size_le.1
  rintro (hids | hnew)
  · rw [h.mem_ids_iff] at hids
    omega
  · omega

theorem not_below_block {b : BlockId} (hb : b.index < before.blocks.size ∨
    after.blocks.size ≤ b.index) : ¬(c.below kernel.body).block b := by
  intro hbelow
  have hbelow := (h.tidy_after.spares_of_parses h.parses).below_of_below h.tidy_after.excludes_since
    (Nat.not_le.2 h.body_lt_size_after) hbelow
  obtain ⟨hle, hlt⟩ := h.tidy_after.le_and_lt_of_below h.body_lt_size_after hbelow
  rw [(h.parsed.tidy.numbered h.parse).1] at hle
  exact hb.elim (Nat.not_lt.2 hle) (Nat.not_le.2 hlt)

theorem readable : c.Readable kernel where
  intact := h.tidy.reachable.intact
  finite := h.tidy.finiteBelow kernel.body
  present := h.present
  name := (h.parsed.tidy.readable h.parse).name
  written := h.tree_eq ▸ (h.parsed.tidy.readable h.parse).written

/-- The kernel is verified alone if it is verified with the others, and then both can be optimized
in step. -/
theorem exists_alone (hverify : c.verify kernel = .ok ()) : ∃ alone d f,
    parseKernel text .empty = .ok (.ok alone, d) ∧ d.verify alone = .ok () ∧
    alone.name = kernel.name ∧ f.Injective ∧
    Work.Matches Reprints f alone.body kernel.body (.start d) (.start c) ∧
    ∀ s ∈ (d.tree alone.body).ids, f s = ⟨before.stmts.size + s.index⟩ := by
  have hsize := h.size_after
  have hle := (Context.grows_of_parses h.parses).size_le.1
  have hf : (StmtId.relocate before.stmts.size (c.tree kernel.body).size c.stmts.size).Injective :=
    StmtId.relocate_injective (by omega)
  obtain ⟨alone, d, hparse, hname, hlike⟩ := h.parsed.tidy.exists_parseKernel .empty
    (f := .relocate before.stmts.size (c.tree kernel.body).size c.stmts.size) h.parse
    fun i hi => by
      rw [← h.tree_eq] at hi
      simp [StmtId.relocate, Context.empty, hi, Nat.add_comm]
  rw [← h.tree_eq] at hlike
  obtain ⟨-, hnumbered, hstmts⟩ := numbered_of_parseKernel hparse
  rw [hlike.size_eq] at hstmts
  have hfits := Context.fits_of_bare_eq hlike.bare_eq hf (h.sound hverify).valid.fits
  refine ⟨alone, d, _, hparse, (verify_eq_ok_iff_fits hparse).2 hfits, hname, hf,
    ⟨rfl, fun i => ?_, hlike.mono ?_ fun _ _ => id⟩, fun s hs => ?_⟩
  · simp [StmtId.relocate, Work.start, hstmts, Nat.add_comm]
  · rintro lanes _ rfl
    exact reprints_refl lanes
  · obtain ⟨-, hlt⟩ := hnumbered.mem_ids_iff.1 hs
    rw [Nat.zero_add, hlike.size_eq] at hlt
    simp [StmtId.relocate, hlt, Nat.add_comm]

/-- All that the optimizer does is confined to the kernel. -/
theorem spares_of_reaches (hverify : c.verify kernel = .ok ()) {w : Work}
    (hreach : (Work.start c).Reaches kernel.body w) : c.Spares (c.below kernel.body) w.context := by
  have hsound := h.sound hverify
  have hwithin : Work.Within (c.below kernel.body) kernel.body (.start c) :=
    ⟨fun _ => .inl, fun _ => .inr⟩
  exact ((hreach.confined hsound.kept hwithin).1 (hsound.separate h.tidy.history.recorded)).2

end Shared

/-- A verified kernel is optimized as it is alone, whatever it shares the context with and whatever
the limit of sweeps is. It comes to the same text, and to the same counts or to the same error, with
the numbers that the statements have in the context. All statements, blocks and uses that are not
of the kernel are left as they are. -/
theorem optimizeSlots_shared {text : List Char} {kernel : Kernel} {before after c : Context}
    (h : Shared text kernel before after c) (hverify : c.verify kernel = .ok ())
    (maxSweeps? : Option Nat) : ∃ alone d outcome outcome' c' d' text',
      parseKernel text .empty = .ok (.ok alone, d) ∧ d.verify alone = .ok () ∧
      optimizeSlots kernel.body maxSweeps? c = .ok (outcome, c') ∧
      optimizeSlots alone.body maxSweeps? d = .ok (outcome', d') ∧
      c'.printKernel kernel = .ok text' ∧ d'.printKernel alone = .ok text' ∧
      outcome.result =
        outcome'.result.mapError (PassError.rename fun s => ⟨before.stmts.size + s.index⟩) ∧
      (∀ s : StmtId, s.index < before.stmts.size ∨
        after.stmts.size ≤ s.index ∧ s.index < c.stmts.size →
        c'.stmt? s = c.stmt? s ∧ c'.chain s = c.chain s) ∧
      ∀ b : BlockId, b.index < before.blocks.size ∨ after.blocks.size ≤ b.index →
        c'.block? b = c.block? b := by
  obtain ⟨alone, d, f, hparse, hverify', hname, hf, hmatch, hshift⟩ := h.exists_alone hverify
  have hsound := Context.Tidy.empty.sound hparse hverify'
  obtain ⟨outcome, v, w, text', hrun, hrun', -, hreach, hprint, hprint'⟩ :=
    exists_optimizeSlots_of_matches hf hname.symm hsound (h.sound hverify)
      (Context.Tidy.empty.readable hparse) h.readable hmatch maxSweeps?
  have hspares := h.spares_of_reaches hverify hreach
  refine ⟨alone, d, outcome.rename f, outcome, w.context, v.context, text', hparse, hverify', hrun',
    hrun, hprint', hprint, ?_, fun s hs => ?_, fun b hb => ?_⟩
  · cases hresult : outcome.result with
    | ok stats => simp [Outcome.rename, hresult, Except.mapError]
    | error error =>
      have hfirst := hsound.kept.firstOffence?_of_error hrun hresult
      have herror := PassError.rename_congr fun s hs =>
        hshift s (Tree.mem_ids_of_firstOffence? hfirst hs)
      simp [Outcome.rename, hresult, Except.mapError, herror]
  · exact ⟨hspares.stmt? (h.not_below_stmt hs), hspares.chain (h.not_below_stmt hs)⟩
  · exact hspares.block? (h.not_below_block hb)

namespace SharedKernel

/-- A text that is given up at a name that stands for nothing. -/
def lost : List Char :=
  "kernel @lost \x7b %v = arg 0 : i32 print %w \x7d".toList

/-- A kernel and what is left of a lost one. -/
def before : Context where
  stmts := SingleKernel.context.stmts ++ #[⟨.arg 0, some ⟨.i32, 1⟩, some ⟨1⟩⟩]
  blocks := SingleKernel.context.blocks ++ #[⟨[⟨5⟩], none⟩]
  uses := SingleKernel.context.uses

/-- The kernel that counts with a slot comes next. -/
def after : Context where
  stmts :=
    before.stmts ++ #[⟨.arg 0, some ⟨.i32, 1⟩, some ⟨2⟩⟩, ⟨.alloca, some ⟨.i32, 1⟩, some ⟨2⟩⟩,
    ⟨.store ⟨7⟩ ⟨6⟩, none, some ⟨2⟩⟩, ⟨.load [⟨⟨7⟩, 0⟩], some ⟨.i32, 1⟩, some ⟨2⟩⟩,
    ⟨.print ⟨9⟩, none, some ⟨2⟩⟩, ⟨.alloca, some ⟨.i32, 1⟩, some ⟨2⟩⟩,
    ⟨.rangeFor ⟨11⟩ ⟨6⟩ ⟨6⟩ ⟨4⟩, none, some ⟨3⟩⟩, ⟨.loop none ⟨3⟩, none, some ⟨2⟩⟩]
  blocks := before.blocks ++
    #[⟨[⟨6⟩, ⟨7⟩, ⟨8⟩, ⟨9⟩, ⟨10⟩, ⟨11⟩, ⟨13⟩], none⟩, ⟨[⟨12⟩], some ⟨13⟩⟩, ⟨[], some ⟨12⟩⟩]
  uses := before.uses ++ [⟨⟨7⟩, ⟨8⟩, 0⟩, ⟨⟨6⟩, ⟨8⟩, 1⟩, ⟨⟨7⟩, ⟨9⟩, 0⟩, ⟨⟨9⟩, ⟨10⟩, 0⟩,
    ⟨⟨11⟩, ⟨12⟩, 0⟩, ⟨⟨6⟩, ⟨12⟩, 1⟩, ⟨⟨6⟩, ⟨12⟩, 2⟩]

/-- One more text is lost behind it. -/
def context : Context where
  stmts := after.stmts ++ #[⟨.arg 0, some ⟨.i32, 1⟩, some ⟨5⟩⟩]
  blocks := after.blocks ++ #[⟨[⟨14⟩], none⟩]
  uses := after.uses

theorem shared : Shared CountingKernel.text ⟨"k", ⟨2⟩⟩ before after context := by
  have hfirst : parseKernel SingleKernel.text .empty =
      .ok (.ok ⟨"k", ⟨0⟩⟩, SingleKernel.context) := by decide +kernel
  have hlost : parseKernel lost SingleKernel.context =
      .ok (.error (.unresolved (.undefinedValue ['w'])), before) := by decide +kernel
  have hparse : parseKernel CountingKernel.text before = .ok (.ok ⟨"k", ⟨2⟩⟩, after) := by
    decide +kernel
  have hlast : parseKernel lost after =
      .ok (.error (.unresolved (.undefinedValue ['w'])), context) := by decide +kernel
  exact ⟨(Parsed.empty.parse hfirst).parse hlost, hparse, .single ⟨_, _, hlast⟩⟩

end SharedKernel

open SharedKernel in
/-- The loop is reported with the number that it has in the context, and the first kernel and what
was lost stay as they are. -/
theorem optimizeSlots_shared_lost : Shared CountingKernel.text ⟨"k", ⟨2⟩⟩ before after context ∧
    context.verify ⟨"k", ⟨2⟩⟩ = .ok () ∧ ∃ outcome outcome' c' d',
      optimizeSlots ⟨2⟩ none context = .ok (outcome, c') ∧
      optimizeSlots ⟨0⟩ none CountingKernel.context = .ok (outcome', d') ∧
      outcome.result = .error (.nestedLoopVar ⟨11⟩ ⟨12⟩) ∧
      outcome'.result = .error (.nestedLoopVar ⟨5⟩ ⟨6⟩) ∧
      (∀ s : StmtId, s.index < 6 ∨ 14 ≤ s.index ∧ s.index < 15 →
        c'.stmt? s = context.stmt? s ∧ c'.chain s = context.chain s) ∧
      ∀ b : BlockId, b.index < 2 ∨ 5 ≤ b.index → c'.block? b = context.block? b := by
  have hverify : context.verify ⟨"k", ⟨2⟩⟩ = .ok () := by decide +kernel
  have hparse : parseKernel CountingKernel.text .empty =
      .ok (.ok ⟨"k", ⟨0⟩⟩, CountingKernel.context) := by decide +kernel
  have herror' : (optimizeSlots ⟨0⟩ none CountingKernel.context).map (·.1.result) =
      .ok (.error (.nestedLoopVar ⟨5⟩ ⟨6⟩)) := by decide +kernel
  obtain ⟨alone, d, outcome, outcome', c', d', text', hparse', -, hrun, hrun', -, -,
    hresult, hstmts,
    hblocks⟩ := optimizeSlots_shared shared hverify none
  obtain ⟨hkernel, rfl⟩ := Prod.mk.inj (Except.ok.inj (hparse.symm.trans hparse'))
  obtain rfl := Except.ok.inj hkernel
  rw [hrun'] at herror'
  have herror : outcome'.result = .error (.nestedLoopVar ⟨5⟩ ⟨6⟩) := Except.ok.inj herror'
  rw [herror] at hresult
  exact ⟨shared, hverify, outcome, outcome', c', d', hrun, hrun', hresult, herror, hstmts, hblocks⟩

end KernelIR
