import KernelIR.Proofs.Limits
import KernelIR.Proofs.Meaning
import KernelIR.Proofs.RoundTrip
import KernelIR.Proofs.Safety
import KernelIR.Proofs.Slot.Renaming

/-!
# Optimizing trees that are alike

The optimizer looks neither at the lanes of constants nor at the numbers of blocks. What it does
look at is left of a tree without them (`Tree.bare`). It is the same for trees that are alike if
their statements have the same numbers, or get them by a renaming (`Tree.Like.bare_eq`), and then a
sweep finds the same in both (`Work.Matches.sweep_eq`).

So work on such trees goes in step (`Work.Matches`). Both make the same rewrites and report the
same, under the renaming, and the trees stay alike, since new constants get numbers that correspond
to each other and the same lanes (`Work.Matches.sweeps`).
-/

namespace KernelIR

variable {L : List Constant → List Constant → Prop} {f : StmtId → StmtId}

/-! ## What the optimizer looks at -/

/-- A kind without the lanes of constants and the numbers of blocks. -/
def Kind.bare : Kind → Kind
  | const _ => const []
  | branch cond trueMask falseMask trueBlock falseBlock =>
    branch cond trueMask falseMask (trueBlock.map fun _ => ⟨0⟩) (falseBlock.map fun _ => ⟨0⟩)
  | loop mask _ => loop mask ⟨0⟩
  | rangeFor counter lower upper _ => rangeFor counter lower upper ⟨0⟩
  | structFor counters snode _ => structFor counters snode ⟨0⟩
  | k => k

def Stmt.bare (stmt : Stmt) : Stmt :=
  ⟨stmt.kind.bare, stmt.type?, none⟩

def Tree.bare (t : Tree) : Tree :=
  t.mapStmts fun _ => Stmt.bare

/-- The slot in front of bare statements. -/
def Slot.bare (slot : Slot) : Slot :=
  { slot with following := slot.following.bare }

namespace Kind

variable (k : Kind)

@[simp] theorem operands_bare : k.bare.operands = k.operands := by
  cases k <;> rfl

@[simp] theorem roles_bare : k.bare.roles = k.roles := by
  cases k <;> rfl

@[simp] theorem hasValue_bare : k.bare.hasValue = k.hasValue := by
  cases k <;> rfl

@[simp] theorem isAlloca_bare : k.bare.isAlloca = k.isAlloca := by
  cases k <;> rfl

@[simp] theorem isAccess_bare : k.bare.isAccess = k.isAccess := by
  cases k <;> rfl

@[simp] theorem action_bare (slot : Slot) : slot.action k.bare = slot.action k := by
  cases k <;> rfl

@[simp] theorem isRegularLoadOf_bare (s : StmtId) :
    k.bare.isRegularLoadOf s = k.isRegularLoadOf s := by
  cases k <;> rfl

end Kind

namespace Tree

theorem bare_cons (id : StmtId) (stmt : Stmt) (first second rest : Tree) :
    (cons id stmt first second rest).bare = cons id stmt.bare first.bare second.bare rest.bare :=
  rfl

/-- Statements without their blocks stand in the same order. -/
theorem preorder_bare (t : Tree) : t.bare.preorder = t.preorder.map fun p => (p.1, p.2.bare) :=
  preorder_mapStmts _ t

/-- The slots of the tree do not depend on which blocks the statements name. -/
theorem slots_bare (t : Tree) : t.bare.slots = t.slots.map Slot.bare := by
  induction t with
  | nil => rfl
  | cons id stmt first second rest ih₁ ih₂ ih₃ =>
    simp only [bare_cons, slots, ih₁, ih₂, ih₃, Stmt.bare, Kind.isAlloca_bare]
    split <;> simp [Slot.bare]

/-- Neither do the places of the statements, with all that is in scope there. -/
theorem sites_bare (t : Tree) (scope : List StmtId) :
    t.bare.sites scope = (t.sites scope).map fun p => { p with stmt := p.stmt.bare } :=
  sites_mapStmts (fun _ stmt => stmt.kind.hasValue_bare) t scope

variable {t t' : Tree}

/-- Trees of which the same is left have the same statements but for what has been left out. -/
theorem exists_of_bare_eq (h : (t.rename f).bare = t'.bare) {s : StmtId} {stmt : Stmt}
    (hs : (s, stmt) ∈ t.preorder) : ∃ stmt', (f s, stmt') ∈ t'.preorder ∧
      stmt'.kind.bare = (stmt.kind.rename f).bare := by
  have hmem : (f s, (stmt.mapKind (Kind.rename f)).bare) ∈ t'.bare.preorder := by
    rw [← h, preorder_bare, preorder_rename]
    exact List.mem_map_of_mem (List.mem_map_of_mem hs)
  rw [preorder_bare] at hmem
  obtain ⟨⟨_, stmt'⟩, hs', heq⟩ := List.mem_map.1 hmem
  obtain ⟨rfl, hbare⟩ := Prod.mk.inj heq
  exact ⟨stmt', hs', congrArg Stmt.kind hbare⟩

/-- A count that looks at neither blocks nor names agrees on two trees that differ in these alone.
-/
theorem count_eq_of_bare_eq (h : (t.rename f).bare = t'.bare) {q : Kind → Bool}
    (hq : ∀ k, q (Kind.bare k) = q k) (hrename : ∀ k, q (Kind.rename f k) = q k) :
    t.count q = t'.count q := by
  have hbare : ∀ u : Tree, u.bare.count q = u.count q := fun u => by
    simp [count, preorder_bare, List.countP_map, Function.comp_def, Stmt.bare, hq]
  rw [← hbare t', ← h, hbare]
  simp [count, preorder_rename, List.countP_map, Function.comp_def, Stmt.mapKind, hrename]

end Tree

namespace Slot

variable (slot : Slot)

/-- A walk behind bare statements goes like the walk behind the whole ones. -/
theorem scan_bare (t : Tree) (st : SlotState) : slot.bare.scan t.bare st = slot.scan t st := by
  induction t generalizing st with
  | nil => rfl
  | cons id stmt first second rest ih₁ ih₂ ih₃ =>
    have h₁ : slot.bare.scan first.bare = slot.scan first := funext ih₁
    have h₂ : slot.bare.scan second.bare = slot.scan second := funext ih₂
    have h₃ : slot.bare.scan rest.bare = slot.scan rest := funext ih₃
    have hload : ∀ st, slot.bare.scanLoad id stmt.bare st = slot.scanLoad id stmt st := by
      intro st
      unfold scanLoad
      simp [Stmt.bare, Slot.bare]
    have haction : slot.bare.action stmt.bare.kind = slot.action stmt.kind :=
      stmt.kind.action_bare slot
    have hvisit : slot.bare.visit id stmt.bare first.bare second.bare st =
        slot.visit id stmt first second st := by
      unfold visit
      rw [haction, h₁, h₂]
      cases slot.action stmt.kind with
      | load => exact hload _
      | _ => rfl
    rw [Tree.bare_cons, scan_cons, scan_cons, hvisit, h₃]

theorem isTaken_bare (t : Tree) (s : StmtId) : isTaken t.bare s = isTaken t s := by
  simp [isTaken, Tree.find_eq_filter, Tree.preorder_bare, List.filter_map, Function.comp_def,
    Stmt.bare]

theorem leftover?_bare (t : Tree) (used : Bool) (st : SlotState) :
    leftover? t.bare used st = leftover? t used st := by
  unfold leftover? deadAtomic?
  simp only [isTaken_bare]

/-- A walk over the tree reads the blocks from the tree and never from the statements. -/
theorem analyze_bare (t : Tree) (used : Bool) :
    slot.bare.analyze t.bare used = slot.analyze t used := by
  unfold analyze
  simp only [leftover?_bare]
  rw [show slot.bare.following = slot.following.bare from rfl, scan_bare]

end Slot

namespace Context

variable {c c' : Context} {t t' : Tree}

/-- So does a whole sweep. -/
theorem sweep_bare (t : Tree) (slots : List Slot) (finished : List StmtId) :
    c.sweep t.bare (slots.map Slot.bare) finished = c.sweep t slots finished := by
  induction slots generalizing finished with
  | nil => rfl
  | cons slot rest ih =>
    rw [List.map_cons]
    unfold sweep
    simp only [Slot.analyze_bare, ih, show slot.bare.id = slot.id from rfl]

section Fits

variable {root root' : BlockId} (h : ((c.tree root).rename f).bare = (c'.tree root').bare)
include h

/-- A statement is a slot in one context where its image is one in the other. -/
theorem isSlot_eq_of_bare_eq {s : StmtId} (hs : s ∈ (c.tree root).ids) :
    c'.isSlot (f s) = c.isSlot s := by
  obtain ⟨stmt, hm⟩ := Tree.mem_ids.1 hs
  obtain ⟨stmt', hm', hkind⟩ := Tree.exists_of_bare_eq h hm
  rw [isSlot_of_stmt? (stmt?_of_mem_treeAt hm), isSlot_of_stmt? (stmt?_of_mem_treeAt hm'),
    ← Kind.isAlloca_bare, hkind, Kind.isAlloca_bare, Kind.isAlloca_rename]

/-- Whether sites fit does not depend on what has been left out, or on numbers. -/
theorem fits_of_bare_eq (hf : f.Injective)
    (hfits : ∀ p ∈ (c'.tree root').sites [], p.Fits c'.isSlot) :
    ∀ p ∈ (c.tree root).sites [], p.Fits c.isSlot := by
  intro p hp
  have hmem : (⟨f p.id, (p.stmt.mapKind (Kind.rename f)).bare, p.scope.map f⟩ : Site) ∈
      (c'.tree root').bare.sites [] := by
    rw [← h, Tree.sites_bare, ← List.map_nil, Tree.sites_rename]
    exact List.mem_map_of_mem (List.mem_map_of_mem hp)
  rw [Tree.sites_bare] at hmem
  obtain ⟨p', hp', heq⟩ := List.mem_map.1 hmem
  obtain ⟨-, hstmt, hscope⟩ := Site.mk.inj heq
  have hkind : p'.stmt.kind.bare = (p.stmt.kind.rename f).bare := congrArg Stmt.kind hstmt
  have hroles : p'.stmt.kind.roles = p.stmt.kind.roles := by
    rw [← Kind.roles_bare, hkind, Kind.roles_bare, Kind.rename, Kind.roles_mapOperands]
  have hoperands : p'.stmt.kind.operands = p.stmt.kind.operands.map f := by
    rw [← Kind.operands_bare, hkind, Kind.operands_bare, Kind.operands_rename]
  rintro ⟨v, role⟩ hq
  have hq' : (f v, role) ∈ p'.stmt.kind.operands.zip p'.stmt.kind.roles := by
    rw [hoperands, hroles, List.zip_map_left]
    exact List.mem_map_of_mem hq
  obtain ⟨hvisible, hrole⟩ := hfits p' hp' _ hq'
  rw [hscope] at hvisible
  have hv : v ∈ p.scope := (List.mem_map_of_injective hf).1 hvisible
  obtain ⟨stmt, hm, -⟩ := (Tree.mem_scope_of_mem_sites hp hv).resolve_left List.not_mem_nil
  exact ⟨hv, isSlot_eq_of_bare_eq h (Tree.mem_ids_of_mem_preorder hm) ▸ hrole⟩

end Fits

end Context

/-! ## Trees that are alike under a renaming -/

theorem optionRel_iff_map_eq {m m' : Option StmtId} :
    Option.Rel (fun v v' => f v = v') m m' ↔ m.map f = m' := by
  constructor
  · rintro (rfl | _) <;> rfl
  · rintro rfl
    cases m with
    | none => exact .none
    | some v => exact .some rfl

theorem forall₂_iff_map_eq {α β : Type} {g : α → β} {l : List α} {l' : List β} :
    List.Forall₂ (fun a b => g a = b) l l' ↔ l.map g = l' := by
  rw [← List.forall₂_map_left_iff, List.forall₂_eq_eq_eq]

namespace Kind

variable {k k' : Kind}

/-- A kind like another under a renaming is its image, the blocks it names left aside. -/
theorem Like.bare_eq (h : k.Like L (fun v v' => f v = v') k') : (k.rename f).bare = k'.bare := by
  have hblock : ∀ {b b' : Option BlockId}, b.isSome = b'.isSome →
      (b.map fun _ => (⟨0⟩ : BlockId)) = b'.map fun _ => ⟨0⟩ := by
    intro b b' h
    cases b <;> cases b' <;> first | rfl | cases h
  cases h with
  | load lane =>
    rw [rename_load]
    refine congrArg Kind.load (forall₂_iff_map_eq.1 (lane.imp fun a b hab => ?_))
    obtain ⟨slot, offset⟩ := b
    exact congrArg₂ SlotLane.mk hab.1 hab.2
  | branch test onTrue onFalse first second =>
    simp only [Kind.rename, mapOperands, bare]
    rw [test, optionRel_iff_map_eq.1 onTrue, optionRel_iff_map_eq.1 onFalse, hblock first,
      hblock second]
  | loop lanes => exact congrArg (Kind.loop · ⟨0⟩) (optionRel_iff_map_eq.1 lanes)
  | structFor snode slot =>
    rw [rename_structFor]
    exact congrArg (Kind.structFor · snode ⟨0⟩) (forall₂_iff_map_eq.1 slot)
  | _ => simp_all [Kind.rename, mapOperands, bare]

end Kind

/-- The exchanges are the same, but for the lanes of a constant that comes in. -/
structure Exchange.Like (L : List Constant → List Constant → Prop) (f : StmtId → StmtId)
    (e e' : Exchange) : Prop where
  old : f e.old = e'.old
  value : f e.value = e'.value
  new : Option.Rel (fun a b => f a.1 = b.1 ∧ a.2.kind.Like L (fun v v' => f v = v') b.2.kind ∧
    a.2.type? = b.2.type?) e.new? e'.new?

/-- A rewrite exchanges the same wherever new constants come to stand. -/
theorem Rewrite.like_exchange (hL : ∀ lanes, L lanes lanes) (rewrite : Rewrite)
    (slot fresh : StmtId) (block? block?' : Option BlockId) :
    Exchange.Like L f (rewrite.exchange slot fresh block?)
      ((rewrite.rename f).exchange (f slot) (f fresh) block?') := by
  cases rewrite with
  | zeroFold load type => exact ⟨rfl, rfl, .some ⟨rfl, .const (hL _), rfl⟩⟩
  | _ => exact ⟨rfl, rfl, .none⟩

namespace Tree

variable {t t' : Tree}

/-- A tree like another is its image, statement by statement. -/
theorem Like.bare_eq (h : t.Like L (fun v v' => f v = v') t') : (t.rename f).bare = t'.bare := by
  induction h with
  | nil => rfl
  | cons result kind type _ _ _ ih₁ ih₂ ih₃ =>
    rw [Tree.rename, bare_cons, bare_cons, ih₁, ih₂, ih₃, Stmt.bare, Stmt.bare, result,
      ← kind.bare_eq,
      ← type]
    rfl

/-- Exchanges that are the same keep trees alike. -/
theorem Like.exchange (h : t.Like L (fun v v' => f v = v') t') (hf : f.Injective) {e e' : Exchange}
    (he : e.Like L f e') : (t.exchange e).Like L (fun v v' => f v = v') (t'.exchange e') := by
  induction h with
  | nil => exact .nil
  | @cons id id' stmt stmt' _ _ _ _ _ _ result kind type _ _ _ ih₁ ih₂ ih₃ =>
    subst result
    unfold Tree.exchange
    simp only [← he.old, hf.eq_iff]
    split
    · have hnew := he.new
      revert hnew
      cases e.new? <;> cases e'.new? <;> intro hnew
      · exact ih₃
      · cases hnew
      · cases hnew
      · obtain ⟨hid, hkind, htype⟩ : _ ∧ _ ∧ _ := by
          cases hnew with
          | some h => exact h
        exact .cons hid hkind htype .nil .nil ih₃
    · refine .cons rfl (kind.rename (fun _ _ h => h) ?_) type ih₁ ih₂ ih₃
      rintro v _ rfl
      simp only [apply_ite f, he.value, hf.eq_iff]

end Tree

/-! ## Work in step -/

namespace Rewrite

/-- What is reported of a rewrite. -/
def event (slot fresh : StmtId) : Rewrite → Event
  | zeroFold load _ => .zeroFolded slot load fresh
  | forward load value => .forwarded slot load value
  | deadStore store => .removedStore slot store
  | deadAtomic atomic => .removedAtomic slot atomic
  | deadAlloca => .removedAlloca slot

/-- The number of statements that a rewrite makes. -/
def made : Rewrite → Nat
  | zeroFold _ _ => 1
  | _ => 0

/-- A rewrite logs the renamed event of what the rewrite logged before the renaming. -/
theorem event_rename (rewrite : Rewrite) (slot fresh : StmtId) :
    (rewrite.rename f).event (f slot) (f fresh) = (rewrite.event slot fresh).rename f := by
  cases rewrite <;> rfl

theorem made_rename (rewrite : Rewrite) : (rewrite.rename f).made = rewrite.made := by
  cases rewrite <;> rfl

theorem record_rename (rewrite : Rewrite) (stats : Stats) :
    stats.record (rewrite.rename f) = stats.record rewrite := by
  cases rewrite <;> rfl

/-- A rewrite that is applied logs its own event and creates as many statements as it says. -/
theorem apply_eq_ok {rewrite : Rewrite} {slot : StmtId} {c c' : Context} {event : Event}
    (h : rewrite.apply slot c = .ok (event, c')) :
    event = rewrite.event slot ⟨c.stmts.size⟩ ∧ c'.stmts.size = c.stmts.size + rewrite.made := by
  have hremove : ∀ {s d} {e : Event}, (Context.erase s >>= fun _ => pure e : Edit Event) d =
      .ok (event, c') → event = e ∧ c'.stmts.size = d.stmts.size := by
    intro s d e h
    obtain ⟨⟨⟩, d', herase, hpure⟩ := Edit.exists_of_bind h
    obtain ⟨heq, rfl⟩ := Prod.mk.inj (Except.ok.inj hpure)
    obtain ⟨b, i, -, -, rfl⟩ := Context.erase_eq_ok herase
    exact ⟨heq.symm, by simp [Context.unlist, Context.modifyBlock, Context.modifyStmt]⟩
  have hreplace : ∀ {old new d d'}, Context.replaceAllUses old new d = .ok ((), d') →
      d'.stmts.size = d.stmts.size := by
    intro old new d d' h
    rcases Context.replaceAllUses_eq_ok h with rfl | ⟨-, rfl⟩
    · rfl
    · exact Array.size_mapIdx
  cases rewrite with
  | deadStore | deadAtomic | deadAlloca => exact hremove h
  | forward load value =>
    obtain ⟨⟨⟩, d, hd, h⟩ := Edit.exists_of_bind h
    obtain ⟨heq, hsize⟩ := hremove h
    exact ⟨heq, hsize.trans (hreplace hd)⟩
  | zeroFold load type =>
    obtain ⟨zero, d₁, hcreate, h⟩ := Edit.exists_of_bind h
    obtain ⟨⟨⟩, d₂, hinsert, h⟩ := Edit.exists_of_bind h
    obtain ⟨⟨⟩, d₃, hd, h⟩ := Edit.exists_of_bind h
    obtain ⟨heq, hsize⟩ := hremove h
    have hcr := Context.createStmt_eq_ok hcreate
    obtain ⟨stmt, b, i, -, -, -, rfl⟩ := Context.insertAfter_eq_ok hinsert
    refine ⟨by rw [heq, hcr.id_eq]; rfl, ?_⟩
    rw [hsize, hreplace hd, made, ← hcr.stmts_size]
    simp [Context.list, Context.modifyBlock, Context.modifyStmt]

end Rewrite

namespace Work

variable {root root' : BlockId} {w w' : Work} {strict strict' : Bool}

/-- The same has been made of trees that are alike under a renaming, and the next statements get
numbers that correspond to each other. -/
structure Matches (L : List Constant → List Constant → Prop) (f : StmtId → StmtId)
    (root root' : BlockId) (w w' : Work) : Prop where
  progress : w'.progress = w.progress.rename f
  fresh : ∀ i, f ⟨w.context.stmts.size + i⟩ = ⟨w'.context.stmts.size + i⟩
  like : (w.context.tree root).Like L (fun v v' => f v = v') (w'.context.tree root')

namespace Matches

variable (h : Matches L f root root' w w') (hf : f.Injective) (hw : w.context.Kept strict root)
  (hw' : w'.context.Kept strict' root')
include h hf hw hw'

/-- Whether a slot has uses left is the same on both sides, as the trees take the same operands. -/
theorem chain_eq_nil_iff {slot : Slot} (hslot : slot ∈ (w.context.tree root).slots) :
    w.context.chain slot.id = [] ↔ w'.context.chain (f slot.id) = [] := by
  obtain ⟨stmt, scope, hsite, hkind, -⟩ := hw.exists_site_of_mem_slots hslot
  have hm := Tree.mem_preorder_of_mem_sites hsite
  obtain ⟨stmt', hm', hbare⟩ := Tree.exists_of_bare_eq h.like.bare_eq hm
  have ha : stmt.kind.isAccess = true := by
    rw [show stmt.kind = .alloca from hkind]
    rfl
  have ha' : stmt'.kind.isAccess = true := by
    rw [← Kind.isAccess_bare, hbare, Kind.isAccess_bare, Kind.isAccess_rename, ha]
  rw [hw.chain_eq_nil_iff hm ha, hw'.chain_eq_nil_iff hm' ha', ← Context.isTaken_eq_false_iff,
    ← Context.isTaken_eq_false_iff, ← Slot.isTaken_bare (w'.context.tree root'), ← h.like.bare_eq,
    Slot.isTaken_bare, Slot.isTaken_rename hf]

/-- The next sweep comes to the same. -/
theorem sweep_eq : w'.sweep root' = (w.sweep root).rename f := by
  unfold sweep
  rw [h.progress, ← Context.sweep_bare, ← Tree.slots_bare, ← h.like.bare_eq, Tree.slots_bare,
    Context.sweep_bare, Tree.slots_rename]
  exact Context.sweep_rename hf _ (fun slot hslot => h.chain_eq_nil_iff hf hw hw' hslot) _

/-- If a sweep asks for a rewrite, it is made on both sides, and they match again. -/
theorem step (hL : ∀ lanes, L lanes lanes) {s : StmtId} {rewrite : Rewrite}
    (hhalt : (w.sweep root).halt? = some (s, .rewrite rewrite)) :
    ∃ v v', Step root w v ∧ Step root' w' v' ∧ Matches L f root root' v v' := by
  have hsweep := h.sweep_eq hf hw hw'
  have hhalt' : (w'.sweep root').halt? = some (f s, .rewrite (rewrite.rename f)) := by
    rw [hsweep]
    exact congrArg (Option.map _) hhalt
  obtain ⟨slot, event, c, happly, -, hmakes⟩ := makes_of_halt hw hhalt
  obtain ⟨slot', event', c', happly', -, hmakes'⟩ := makes_of_halt hw' hhalt'
  have hid : slot.id = s := congrArg Prod.fst (Option.some.inj (hmakes.halt.symm.trans hhalt))
  have hid' : slot'.id = f s := congrArg Prod.fst (Option.some.inj (hmakes'.halt.symm.trans hhalt'))
  obtain ⟨hevent, hsize⟩ := Rewrite.apply_eq_ok happly
  obtain ⟨hevent', hsize'⟩ := Rewrite.apply_eq_ok happly'
  have hfresh : f ⟨w.context.stmts.size⟩ = ⟨w'.context.stmts.size⟩ := h.fresh 0
  refine ⟨_, _, .mk hhalt happly, .mk hhalt' happly', ?_, fun i => ?_, ?_⟩
  · rw [hevent, hevent', ← hfresh, Rewrite.event_rename]
    simp [advance, hsweep, h.progress, Rewrite.record_rename, Progress.rename, Sweep.rename,
      Event.rename]
  · simp only [hsize, hsize', Rewrite.made_rename, Nat.add_assoc, h.fresh]
  · rw [hmakes.exchange, hmakes'.exchange, hid, hid', ← hfresh]
    exact h.like.exchange hf (rewrite.like_exchange hL _ _ _ _)

/-- With the same limit both come to the same outcome, and the trees are alike in the end. -/
theorem sweeps (hL : ∀ lanes, L lanes lanes) (bound : Nat) :
    ∃ outcome v v', KernelIR.sweeps root bound w.progress w.context = .ok (outcome, v.context) ∧
      KernelIR.sweeps root' bound w'.progress w'.context = .ok (outcome.rename f, v'.context) ∧
      w.Reaches root v ∧ w'.Reaches root' v' ∧ Matches L f root root' v v' := by
  induction bound generalizing w w' with
  | zero =>
    have hstopped : w'.stopped = w.stopped.rename f := by
      simp [stopped, h.progress, Outcome.rename, Progress.rename, Event.rename, Except.mapError]
    refine ⟨w.stopped, w, w', rfl, ?_, .refl, .refl, h⟩
    rw [← hstopped]
    rfl
  | succ bound ih =>
    have hsweep := h.sweep_eq hf hw hw'
    cases hhalt : (w.sweep root).halt? with
    | none =>
      have hhalt' : (w'.sweep root').halt? = none := by
        rw [hsweep]
        exact congrArg (Option.map _) hhalt
      refine ⟨w.settled root, w, w', ?_, ?_, .refl, .refl, h⟩
      · rw [sweeps_succ hw.present, hhalt]
        rfl
      · rw [sweeps_succ hw'.present, hhalt']
        simp [hsweep, settled, final, h.progress, Outcome.rename, Progress.rename, Sweep.rename,
          Event.rename, Except.mapError]
    | some p =>
      obtain ⟨s, rewrite | error⟩ := p
      · obtain ⟨v, v', hstep, hstep', hmatch⟩ := h.step hf hw hw' hL hhalt
        rw [hstep.sweeps_add_one hw, hstep'.sweeps_add_one hw']
        obtain ⟨outcome, u, u', hrun, hrun', hreach, hreach', hends⟩ :=
          ih hmatch (hstep.makes hw).1 (hstep'.makes hw').1
        exact ⟨outcome, u, u', hrun, hrun', .head hstep hreach, .head hstep' hreach', hends⟩
      · have hhalt' : (w'.sweep root').halt? = some (f s, .violation (error.rename f)) := by
          rw [hsweep]
          exact congrArg (Option.map _) hhalt
        refine ⟨w.rejected root error, w, w', ?_, ?_, .refl, .refl, h⟩
        · rw [sweeps_succ hw.present, hhalt]
          rfl
        · rw [sweeps_succ hw'.present, hhalt']
          simp [hsweep, rejected, h.progress, Outcome.rename, Progress.rename, Sweep.rename,
            Except.mapError]

end Matches

end Work

/-! ## Kernels that are alike -/

/-- Kernels of the same name that are alike under a renaming are optimized alike, and come to the
same text. -/
theorem exists_optimizeSlots_of_matches {kernel kernel' : Kernel} {c d : Context} (hf : f.Injective)
    (hname : kernel'.name = kernel.name) (hsound : c.Sound kernel.body)
    (hsound' : d.Sound kernel'.body) (hreadable : c.Readable kernel)
    (hreadable' : d.Readable kernel')
    (hmatch : Work.Matches Reprints f kernel.body kernel'.body (.start c) (.start d))
    (maxSweeps? : Option Nat) : ∃ outcome w w' text,
      optimizeSlots kernel.body maxSweeps? c = .ok (outcome, w.context) ∧
      optimizeSlots kernel'.body maxSweeps? d = .ok (outcome.rename f, w'.context) ∧
      (Work.start c).Reaches kernel.body w ∧ (Work.start d).Reaches kernel'.body w' ∧
      w.context.printKernel kernel = .ok text ∧ w'.context.printKernel kernel' = .ok text := by
  obtain ⟨outcome, w, w', hrun, hrun', hreach, hreach', hends⟩ :=
    hmatch.sweeps hf hsound.kept hsound'.kept reprints_refl
      (maxSweeps?.getD ((c.tree kernel.body).count Kind.isAccess + 1))
  have hw := (hreadable.expressible.sweeps (w := .start c) hrun).readable hreadable.name
    ((hreach.sound hsound).verify rfl)
  have hw' := (hreadable'.expressible.sweeps (w := .start d) hrun').readable hreadable'.name
    ((hreach'.sound hsound').verify rfl)
  have hcount :
      (c.tree kernel.body).count Kind.isAccess = (d.tree kernel'.body).count Kind.isAccess :=
    Tree.count_eq_of_bare_eq hmatch.like.bare_eq Kind.isAccess_bare (Kind.isAccess_rename f)
  refine ⟨outcome, w, w', _, ?_, ?_, hreach, hreach', hw.printKernel, ?_⟩
  · rw [← Tree.length_find] at hrun
    exact hrun
  · rw [hcount, ← Tree.length_find] at hrun'
    exact hrun'
  · have hunique : Relator.BiUnique fun v v' : StmtId => f v = v' :=
      ⟨fun _ _ _ h h' => hf (h.trans h'.symm), fun _ _ _ h h' => h.symm.trans h'⟩
    rw [hw.printKernel_eq_of_like hw' hname hunique hends.like, hw.printKernel]

end KernelIR
