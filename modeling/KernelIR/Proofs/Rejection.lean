import KernelIR.Proofs.Fixpoint
import KernelIR.Proofs.Meaning

/-!
# Rejected kernels

The walk behind a slot gives up at a branch or a loop with a mask, and at a loop that counts
with the slot inside another loop (`Kind.offence?`). If it gives up, this is at the first such
statement, and if it comes to its end, there is none (`Slot.reveals_scan`).

No rewrite makes such a statement, takes one away or moves it to another place in the order
(`Tree.offences_exchange`, `Tree.firstOffence?_exchange`), and no slot with one is finished
(`Work.Clean`). So without a limit the optimizer rejects a kernel just if one of its slots had
such a statement behind it from the beginning, and names the first one behind the first of
these slots (`optimizeSlots_eq_error_iff`).
-/

namespace KernelIR

/-! ## Offences -/

namespace Kind

/-- Whether what is nested in the statement is repeated. -/
def isLoop : Kind → Bool
  | loop _ _ | rangeFor _ _ _ _ | structFor _ _ _ => true
  | _ => false

/-- Why the statement is not handled behind a slot. `nested` tells whether a loop around it
stands behind the slot, too. -/
def offence? (slot : StmtId) (nested : Bool) (id : StmtId) : Kind → Option PassError
  | branch _ trueMask falseMask _ _ =>
    if trueMask.isSome ∨ falseMask.isSome then some (.maskedIf id) else none
  | loop mask _ => if mask.isSome then some (.maskedWhile id) else none
  | rangeFor counter _ _ _ =>
    if nested ∧ counter = slot then some (.nestedLoopVar slot id) else none
  | structFor counters _ _ =>
    if nested ∧ slot ∈ counters then some (.nestedLoopVar slot id) else none
  | _ => none

variable {slot : StmtId} {nested : Bool} {id : StmtId} {k : Kind}

theorem offence?_eq_none (h : k.isContainer = false) : k.offence? slot nested id = none := by
  cases k <;> first | rfl | cases h

@[simp] theorem isLoop_mapOperands (f : Nat → StmtId → StmtId) :
    (k.mapOperands f).isLoop = k.isLoop := by
  cases k <;> rfl

theorem isContainer_of_isAccess (h : k.isAccess = true) : k.isContainer = false := by
  cases k <;> first | rfl | cases h

/-- An offence stays if values are exchanged that are not the slot. -/
theorem offence?_replace {old new : StmtId} (h : new ≠ old → slot ≠ old ∧ slot ≠ new) :
    (k.replace old new).offence? slot nested id = k.offence? slot nested id := by
  by_cases hsame : new = old
  · rw [hsame, replace_self]
  · obtain ⟨hold, hnew⟩ := h hsame
    cases k with
    | rangeFor counter lower upper body =>
      have hcounter : (if counter = old then new else counter) = slot ↔ counter = slot := by grind
      simp only [replace, mapOperands, offence?, hcounter]
    | structFor counters snode body =>
      have hmap := operands_replace old new (.structFor counters snode body)
      simp only [replace, mapOperands, operands] at hmap
      have hcounters : slot ∈ (counters.map fun v => if v = old then new else v) ↔
          slot ∈ counters := by
        refine List.mem_map.trans ⟨?_, fun hs => ⟨slot, hs, if_neg hold⟩⟩
        rintro ⟨v, hv, heq⟩
        grind
      simp only [replace, mapOperands, offence?, hmap, hcounters]
    | _ => simp [replace, mapOperands, offence?]

end Kind

/-- The errors of the statements of a tree behind a slot, in pre-order. -/
def Tree.offences (slot : StmtId) (nested : Bool) : Tree → List PassError
  | nil => []
  | cons id stmt first second rest =>
    (stmt.kind.offence? slot nested id).toList ++
      (first.offences slot (nested || stmt.kind.isLoop) ++
        second.offences slot (nested || stmt.kind.isLoop)) ++ rest.offences slot nested

/-- The errors of the statements behind a slot, in pre-order. -/
def Slot.offences (slot : Slot) : List PassError :=
  slot.following.offences slot.id false

/-- The first error behind the first slot that has one. -/
def Tree.firstOffence? (t : Tree) : Option PassError :=
  t.slots.findSome? fun slot => slot.offences.head?

/-! ## Walks reveal offences -/

/-- Inside a loop. -/
def Region.inLoop : Region → Bool
  | .outside => false
  | _ => true

namespace Slot

/-- What a walk comes to tells the first of these errors, unless it asks for a rewrite. -/
def Reveals {α : Type} (errors : List PassError) : Except Halt α → Prop
  | .ok _ => errors = []
  | .error (.violation error) => errors.head? = some error
  | .error (.rewrite _) => True

theorem Reveals.bind {α β : Type} {errors errors' : List PassError} {x : Except Halt α}
    {f : α → Except Halt β} (hx : Reveals errors x)
    (hf : ∀ a, x = .ok a → Reveals errors' (f a)) : Reveals (errors ++ errors') (x >>= f) := by
  match x, hx with
  | .ok a, hx =>
    obtain rfl : errors = [] := hx
    exact hf a rfl
  | .error (.violation error), hx =>
    obtain ⟨rest, rfl⟩ := List.head?_eq_some_iff.1 hx
    exact List.head?_cons
  | .error (.rewrite _), _ => trivial

variable {slot : Slot} {id : StmtId} {stmt : Stmt} {first second rest t : Tree} {st : SlotState}

/-- A second walk that meets no errors does not give up. -/
theorem Reveals.error {α β : Type} {halt : Halt} (h : Reveals [] (.error halt : Except Halt α)) :
    Reveals [] (.error halt : Except Halt β) := by
  cases halt <;> exact h

theorem reveals_scanLoad (load : StmtId) : Reveals [] (slot.scanLoad load stmt st) := by
  unfold scanLoad
  split
  · rfl
  · split
    · rfl
    · split
      · trivial
      · split <;> trivial

/-- A loop tells the error that it is itself, and then those of its body. -/
theorem reveals_scanLoop (id : StmtId) (binds : Bool) (st : SlotState) {errors : List PassError}
    (hbody : ∀ st : SlotState, st.region.inLoop = true → Reveals errors (slot.scan first st)) :
    Reveals ((if st.region.inLoop ∧ binds then [.nestedLoopVar slot.id id] else []) ++ errors)
      (slot.scanLoop id binds (slot.scan first) st) := by
  rw [scanLoop_eq]
  have hregion : st.region.inLoop = true ↔ st.region ≠ .outside := by
    cases st.region <;> simp [Region.inLoop]
  by_cases hbinds : binds = true ∧ st.region ≠ .outside
  · rw [if_pos hbinds, if_pos ⟨hregion.2 hbinds.2, hbinds.1⟩]
    rfl
  · rw [if_neg hbinds, if_neg fun h => hbinds ⟨h.2, hregion.1 h.1⟩, List.nil_append]
    split
    · next hno => exact hbody st (by rw [hno]; rfl)
    · have hfirst := hbody (.start .mayHaveStores) rfl
      split
      · next halt hscan =>
        rw [hscan] at hfirst
        cases halt <;> exact hfirst
      · next bodyEnd hscan =>
        rw [hscan] at hfirst
        obtain rfl : errors = [] := hfirst
        -- the first walk has met no error, so neither does the second one
        split
        · have hagain := hbody { st.mergeLoop bodyEnd binds with region := .noStores } rfl
          split
          · next hscan' =>
            rw [hscan'] at hagain
            exact hagain.error
          · rfl
        · rfl

theorem offence?_of_branch {k : Kind} {masked : Bool} (h : slot.action k = .branch masked)
    (nested : Bool) (id : StmtId) : k.isLoop = false ∧
      k.offence? slot.id nested id = if masked then some (.maskedIf id) else none := by
  obtain ⟨cond, trueMask, falseMask, b, d, rfl, rfl⟩ := action_eq_branch h
  simp [Kind.isLoop, Kind.offence?]

theorem offence?_of_loop {k : Kind} {masked binds : Bool} (h : slot.action k = .loop masked binds)
    (nested : Bool) (id : StmtId) : k.isLoop = true ∧ k.secondBlock? = none ∧
      k.offence? slot.id nested id = if masked then some (.maskedWhile id)
        else if nested ∧ binds then some (.nestedLoopVar slot.id id) else none := by
  obtain ⟨mask, body, rfl⟩ | ⟨counter, lower, upper, body, rfl⟩ | ⟨counters, snode, body, rfl⟩ :=
    action_eq_loop h <;> simp only [action, Action.loop.injEq] at h <;> obtain ⟨rfl, rfl⟩ := h <;>
      simp [Kind.isLoop, Kind.secondBlock?, Kind.offence?]

/-- A statement tells the error that it is itself, and then those of what is nested in it. -/
theorem reveals_visit (hfirst : stmt.kind.firstBlock? = none → first = .nil)
    (hsecond : stmt.kind.secondBlock? = none → second = .nil)
    (ih₁ : ∀ st : SlotState,
      Reveals (first.offences slot.id st.region.inLoop) (slot.scan first st))
    (ih₂ : ∀ st : SlotState,
      Reveals (second.offences slot.id st.region.inLoop) (slot.scan second st)) :
    Reveals ((stmt.kind.offence? slot.id st.region.inLoop id).toList ++
      (first.offences slot.id (st.region.inLoop || stmt.kind.isLoop) ++
        second.offences slot.id (st.region.inLoop || stmt.kind.isLoop)))
      (slot.visit id stmt first second st) := by
  -- nothing is nested in most statements, which go by without an error
  have hleaf : (∀ m, slot.action stmt.kind ≠ .branch m) →
      (∀ m b, slot.action stmt.kind ≠ .loop m b) →
      (stmt.kind.offence? slot.id st.region.inLoop id).toList ++
        (first.offences slot.id (st.region.inLoop || stmt.kind.isLoop) ++
          second.offences slot.id (st.region.inLoop || stmt.kind.isLoop)) = [] := by
    intro hb hl
    have hblocks := blocks_of_action hb hl
    have hnone : stmt.kind.offence? slot.id st.region.inLoop id = none := by
      cases hk : stmt.kind <;> simp_all [Kind.offence?, action]
    rw [hfirst hblocks.1, hsecond hblocks.2, hnone]
    rfl
  unfold visit
  split
  · next ha => exact hleaf (by simp [ha]) (by simp [ha])
  · next ha => exact hleaf (by simp [ha]) (by simp [ha])
  · next ha => exact hleaf (by simp [ha]) (by simp [ha])
  · next ha =>
    rw [hleaf (by simp [ha]) (by simp [ha])]
    exact reveals_scanLoad id
  · next masked ha =>
    obtain ⟨hloop, hoffence⟩ := offence?_of_branch ha st.region.inLoop id
    rw [hoffence, hloop, Bool.or_false]
    cases masked with
    | true => rfl
    | false =>
      refine (ih₁ st).bind fun thenState _ => ?_
      rw [← List.append_nil (second.offences _ _)]
      exact (ih₂ st).bind fun elseState _ => rfl
  · next masked binds ha =>
    obtain ⟨hloop, hblock, hoffence⟩ := offence?_of_loop ha st.region.inLoop id
    rw [hoffence, hloop, Bool.or_true, hsecond hblock]
    cases masked with
    | true => rfl
    | false =>
      have hbody := reveals_scanLoop id binds st fun st hst => hst ▸ ih₁ st
      simpa [Tree.offences, apply_ite Option.toList] using hbody

/-- A walk that gives up does so at the first error. -/
theorem reveals_scan (slot : Slot) (st : SlotState) (ht : t.Shaped) :
    Reveals (t.offences slot.id st.region.inLoop) (slot.scan t st) := by
  induction t generalizing st with
  | nil => exact rfl
  | cons id stmt first second rest ih₁ ih₂ ih₃ =>
    obtain ⟨hfirst, hsecond, h₁, h₂, h₃⟩ := ht
    rw [scan_cons, Tree.offences]
    refine .bind ?_ fun mid hmid => ?_
    · exact reveals_visit hfirst hsecond (fun st => ih₁ st h₁) fun st => ih₂ st h₂
    · rw [← scan_single] at hmid
      exact scan_region hmid ▸ ih₃ mid h₃

/-- An analysis that gives up does so at the first error behind the slot. -/
theorem reveals_analyze (ht : slot.following.Shaped) (root : Tree) (used : Bool) :
    Reveals slot.offences (slot.analyze root used) := by
  rw [← List.append_nil slot.offences, analyze]
  refine (reveals_scan slot _ ht).bind fun st _ => ?_
  split <;> trivial

end Slot

/-! ## Exchanges keep offences -/

namespace Tree

variable {e : Exchange} {t : Tree}

section

variable (hapt : e.Apt t) (ht : t.Shaped)
include hapt ht

/-- An exchange keeps the errors behind a slot that it is not about. -/
theorem offences_exchange {slot : StmtId} (hslot : e.value ≠ e.old → slot ≠ e.old ∧ slot ≠ e.value)
    (nested : Bool) : (t.exchange e).offences slot nested = t.offences slot nested := by
  induction t generalizing nested with
  | nil => rfl
  | cons id stmt first second rest ih₁ ih₂ ih₃ =>
    obtain ⟨hapt₁, hapt₂, hapt₃⟩ := hapt.of_cons
    have ⟨_, _, h₁, h₂, h₃⟩ := ht
    rw [exchange]
    split
    · next hid =>
      subst hid
      have haccess := hapt.old stmt List.mem_cons_self
      obtain ⟨rfl, rfl⟩ := eq_nil_of_isAccess ht haccess
      have hold : stmt.kind.offence? slot nested e.old = none :=
        Kind.offence?_eq_none (Kind.isContainer_of_isAccess haccess)
      cases hnew : e.new? with
      | none => simp [offences, hold, ih₃ hapt₃ h₃]
      | some p =>
        obtain ⟨-, ⟨cs, hk⟩, -⟩ := hapt.new p.1 p.2 hnew
        have hconst : p.2.kind.offence? slot nested p.1 = none :=
          Kind.offence?_eq_none (by rw [hk]; rfl)
        simp [offences, hold, hconst, ih₃ hapt₃ h₃]
    · rw [offences, offences, ih₁ hapt₁ h₁, ih₂ hapt₂ h₂, ih₃ hapt₃ h₃]
      simp only [Stmt.mapKind, Kind.offence?_replace hslot]
      simp only [Kind.replace, Kind.isLoop_mapOperands]

/-- An exchange takes no slot out but the one that it is about. -/
theorem slots_exchange : (t.exchange e).slots =
    (t.slots.filter fun slot => slot.id != e.old).map
      fun slot => { slot with following := slot.following.exchange e } := by
  induction t with
  | nil => rfl
  | cons id stmt first second rest ih₁ ih₂ ih₃ =>
    obtain ⟨hapt₁, hapt₂, hapt₃⟩ := hapt.of_cons
    have ⟨_, _, h₁, h₂, h₃⟩ := ht
    rw [exchange]
    split
    · next hid =>
      subst hid
      obtain ⟨rfl, rfl⟩ := eq_nil_of_isAccess ht (hapt.old stmt List.mem_cons_self)
      have hslots : ((cons e.old stmt nil nil rest).slots.filter fun slot => slot.id != e.old) =
          rest.slots.filter fun slot => slot.id != e.old := by
        simp only [slots, List.nil_append]
        split <;> simp
      rw [hslots]
      cases hnew : e.new? with
      | none => exact ih₃ hapt₃ h₃
      | some p =>
        obtain ⟨-, ⟨cs, hk⟩, -⟩ := hapt.new p.1 p.2 hnew
        simp [slots, hk, Kind.isAlloca, ih₃ hapt₃ h₃]
    · next hid =>
      have hkind : (stmt.mapKind (Kind.replace e.old e.value)).kind.isAlloca =
        stmt.kind.isAlloca := by
        simp [Stmt.mapKind, Kind.replace]
      simp only [slots, hkind, ih₁ hapt₁ h₁, ih₂ hapt₂ h₂, ih₃ hapt₃ h₃, ← List.filter_append,
        ← List.map_append]
      split
      · rw [List.filter_cons_of_pos (by simpa using hid), List.map_cons]
        rfl
      · rfl

end

theorem findSome?_filter {α β : Type} {f g : α → Option β} {q : α → Bool} {l : List α}
    (hkeep : ∀ a ∈ l, g a = f a) (hdrop : ∀ a ∈ l, q a = false → f a = none) :
    (l.filter q).findSome? g = l.findSome? f := by
  induction l with
  | nil => rfl
  | cons a l ih =>
    have ih := ih (fun b hb => hkeep b (List.mem_cons_of_mem a hb))
      fun b hb => hdrop b (List.mem_cons_of_mem a hb)
    cases hq : q a with
    | true =>
      rw [List.filter_cons_of_pos hq, List.findSome?_cons, List.findSome?_cons, ih,
        hkeep a List.mem_cons_self]
    | false =>
      rw [List.filter_cons_of_neg (by simp [hq]), List.findSome?_cons,
        hdrop a List.mem_cons_self hq, ih]

theorem map_id_slots (t : Tree) :
    t.slots.map Slot.id = (t.preorder.filter fun p => p.2.kind.isAlloca).map Prod.fst := by
  induction t with
  | nil => rfl
  | cons id stmt first second rest ih₁ ih₂ ih₃ =>
    rw [slots, preorder, List.filter_cons]
    split <;> simp [ih₁, ih₂, ih₃]

theorem nodup_slots (hn : t.ids.Nodup) : (t.slots.map Slot.id).Nodup := by
  rw [map_id_slots]
  exact hn.sublist (List.filter_sublist.map Prod.fst)

section

variable (hapt : e.Apt t) (ht : t.Shaped) (hn : t.ids.Nodup)
include hapt ht hn

/-- An exchange keeps the errors behind every slot. -/
theorem offences_following_exchange {slot : Slot} (hslot : slot ∈ t.slots) :
    ({ slot with following := slot.following.exchange e } : Slot).offences = slot.offences := by
  obtain ⟨stmt, scope, hsite, hkind, -, hstart⟩ :=
    Slot.exists_site_of_mem_slots ht hn (fun _ hp => hp) (by simp) hslot
  exact offences_exchange (hapt.mono (Slot.subset_of_mem_slots hslot).2) hstart.shaped
    (fun hne => hapt.declared hne _ (mem_preorder_of_mem_sites hsite) hkind) false

/-- An exchange keeps the first error, if none stands behind a slot that is taken out. -/
theorem firstOffence?_exchange (hold : ∀ slot ∈ t.slots, slot.id = e.old → slot.offences = []) :
    (t.exchange e).firstOffence? = t.firstOffence? := by
  rw [firstOffence?, slots_exchange hapt ht, List.findSome?_map, firstOffence?]
  refine findSome?_filter (fun slot hslot => ?_) fun slot hslot hid => ?_
  · exact congrArg List.head? (offences_following_exchange hapt ht hn hslot)
  · rw [hold slot hslot (by simpa using hid)]
    rfl

end

end Tree

/-! ## Sweeps keep offences -/

/-- A sweep passes over slots without errors, and if it gives up, this is at the first slot that
has one, for the first one. -/
theorem Context.sweep_offences {c : Context} {t : Tree} {slots : List Slot} {finished : List StmtId}
    (hshaped : ∀ slot ∈ slots, slot.following.Shaped) (hnodup : (slots.map Slot.id).Nodup)
    (hfinished : ∀ slot ∈ slots, slot.id ∈ finished → slot.offences = []) :
    (∀ slot ∈ slots, slot.id ∈ (c.sweep t slots finished).finished → slot.offences = []) ∧
      ((c.sweep t slots finished).halt? = none →
        slots.findSome? (fun slot => slot.offences.head?) = none) ∧
      ∀ s error, (c.sweep t slots finished).halt? = some (s, .violation error) →
        slots.findSome? (fun slot => slot.offences.head?) = some error := by
  induction slots generalizing finished with
  | nil => simp [sweep]
  | cons slot rest ih =>
    obtain ⟨hnot, hnodup⟩ := List.nodup_cons.1 hnodup
    have hrest := fun q hq => hfinished q (List.mem_cons_of_mem slot hq)
    have ih := fun finished => @ih finished
      (fun q hq => hshaped q (List.mem_cons_of_mem slot hq)) hnodup
    rw [sweep]
    split
    · next hmem =>
      have hnone := hfinished slot List.mem_cons_self hmem
      simpa [hnone] using ih finished hrest
    · next hmem =>
      have hreveals := Slot.reveals_analyze (hshaped slot List.mem_cons_self) t
        (c.chain slot.id ≠ [])
      split
      · next halt ha =>
        rw [ha] at hreveals
        refine ⟨hfinished, by simp, fun s error heq => ?_⟩
        obtain rfl : halt = .violation error := by simpa using congrArg (·.map Prod.snd) heq
        exact List.findSome?_cons.trans
          (by rw [show slot.offences.head? = some error from hreveals])
      · next ha =>
        rw [ha] at hreveals
        have hnone : slot.offences = [] := hreveals
        have hnext := ih (slot.id :: finished) fun q hq hid => by
          rcases List.mem_cons.1 hid with heq | hid
          · exact absurd (heq ▸ List.mem_map_of_mem hq) hnot
          · exact hrest q hq hid
        simpa [hnone] using hnext

namespace Work

variable {root : BlockId} {w w' : Work} {strict : Bool}

/-- No slot with an error has been finished. -/
def Clean (root : BlockId) (w : Work) : Prop :=
  ∀ slot ∈ (w.context.tree root).slots, slot.id ∈ w.progress.finished → slot.offences = []

theorem Clean.sweep (h : w.Clean root) (hw : w.context.Kept strict root) :
    (∀ slot ∈ (w.context.tree root).slots, slot.id ∈ (w.sweep root).finished →
      slot.offences = []) ∧
      ((w.sweep root).halt? = none → (w.context.tree root).firstOffence? = none) ∧
      ∀ s error, (w.sweep root).halt? = some (s, .violation error) →
        (w.context.tree root).firstOffence? = some error := by
  refine Context.sweep_offences (fun slot hslot => ?_) (Tree.nodup_slots hw.nodup) h
  obtain ⟨stmt, scope, -, -, -, hstart⟩ := hw.exists_site_of_mem_slots hslot
  exact hstart.shaped

/-- A slot that is taken out has no errors. -/
theorem Makes.offences_old {slot : Slot} {rewrite : Rewrite} (h : Makes root w slot rewrite w')
    (hw : w.context.Kept strict root) {q : Slot} (hq : q ∈ (w.context.tree root).slots)
    (hid : q.id = rewrite.old slot.id) : q.offences = [] := by
  obtain ⟨stmt, scope, hsite, halloca, -⟩ := hw.exists_site_of_mem_slots hq
  obtain ⟨u, hm, htakes⟩ := h.allows.exists_old
  obtain rfl : u = stmt :=
    Tree.stmt_unique hw.nodup hm (hid ▸ Tree.mem_preorder_of_mem_sites hsite)
  rw [halloca] at htakes
  cases rewrite with
  | deadAlloca =>
    obtain rfl : q = slot :=
      List.inj_on_of_nodup_map (Tree.nodup_slots hw.nodup) hq h.mem_slots hid
    obtain ⟨_, _, -, -, -, hstart⟩ := hw.exists_site_of_mem_slots hq
    -- the walk has come to its end
    rcases Slot.analyze_eq_rewrite h.asked scope with ⟨x, -, hasks⟩ | ⟨st, hscan, -⟩
    · obtain ⟨_, _, _, _, _, -, -, hrewrite⟩ := hasks
      obtain ⟨_, -, -, -, ⟨-, heq⟩ | ⟨-, _, -, heq⟩⟩ := Slot.scanLoad_eq_rewrite hrewrite <;>
        cases heq
    · have hreveals := Slot.reveals_scan q (.start .outside) hstart.shaped
      rwa [hscan] at hreveals
  | _ => cases htakes

/-- A step keeps the first error. -/
theorem Step.firstOffence?_eq (h : Step root w w') (hw : w.context.Kept strict root)
    (hclean : w.Clean root) : w'.Clean root ∧
      (w'.context.tree root).firstOffence? = (w.context.tree root).firstOffence? := by
  obtain ⟨-, slot, rewrite, hmakes⟩ := h.makes hw
  have hapt := hw.apt hmakes.allows (w.context.home? (rewrite.old slot.id))
  have hshaped := Context.shaped_tree w.context root
  rw [Clean, hmakes.exchange]
  refine ⟨fun q' hq' hfinished => ?_, Tree.firstOffence?_exchange hapt hshaped hw.nodup
    fun q hq hid => ?_⟩
  · rw [Tree.slots_exchange hapt hshaped] at hq'
    obtain ⟨q, hq, rfl⟩ := List.mem_map.1 hq'
    have hq := (List.mem_filter.1 hq).1
    obtain ⟨event, hprogress⟩ := hmakes.progress
    rw [Tree.offences_following_exchange hapt hshaped hw.nodup hq]
    rw [hprogress] at hfinished
    exact (hclean.sweep hw).1 q hq hfinished
  · exact hmakes.offences_old hw hq (by rwa [Rewrite.old_exchange] at hid)

theorem Reaches.firstOffence?_eq (h : Reaches root w w') (hw : w.context.Kept strict root)
    (hclean : w.Clean root) : w'.Clean root ∧
      (w'.context.tree root).firstOffence? = (w.context.tree root).firstOffence? := by
  induction h with
  | refl => exact ⟨hclean, rfl⟩
  | @tail v v' hreach hstep ih =>
    obtain ⟨hclean', heq⟩ := hstep.firstOffence?_eq (Reaches.kept hreach hw) ih.1
    exact ⟨hclean', heq.trans ih.2⟩

/-- The last sweep tells whether there is an error. -/
theorem Settles.eq_error_iff {result : Except PassError Stats} (h : w.Settles root result)
    (hw : w.context.Kept strict root) (hclean : w.Clean root) (error : PassError) :
    result = .error error ↔ (w.context.tree root).firstOffence? = some error := by
  obtain ⟨-, hnone, hsome⟩ := hclean.sweep hw
  cases h with
  | fixpoint hhalt => simp [hnone hhalt]
  | violation hhalt => simp [hsome _ _ hhalt]

end Work

/-- Whatever the limit of sweeps is, an error that is reported is the first one that was there from
the beginning. -/
theorem Context.Kept.firstOffence?_of_error {c c' : Context} {root : BlockId} {strict : Bool}
    (h : c.Kept strict root) {maxSweeps? : Option Nat} {outcome : Outcome} {error : PassError}
    (hrun : KernelIR.optimizeSlots root maxSweeps? c = .ok (outcome, c'))
    (herror : outcome.result = .error error) : (c.tree root).firstOffence? = some error := by
  obtain ⟨outcome', w, hrun', hreach, hends⟩ := h.optimizeSlots maxSweeps?
  obtain ⟨rfl, -⟩ := Prod.mk.inj (Except.ok.inj (hrun.symm.trans hrun'))
  obtain ⟨hclean, hkept⟩ := hreach.firstOffence?_eq h fun _ _ hm => absurd hm List.not_mem_nil
  rw [herror] at hends
  cases hends with
  | violation hhalt => exact hkept.symm.trans ((hclean.sweep (hreach.kept h)).2.2 _ _ hhalt)

theorem Tree.isSome_firstOffence?_iff {t : Tree} :
    (∃ error, t.firstOffence? = some error) ↔ ∃ slot ∈ t.slots, slot.offences ≠ [] := by
  rw [← Option.isSome_iff_exists, firstOffence?, List.findSome?_isSome_iff]
  simp

/-- Without a limit of sweeps, the optimizer rejects a verified kernel just if it has a slot with
an error behind it. It reports the first error behind the first slot that has one, whatever
rewrites it has made before. -/
theorem optimizeSlots_eq_error_iff {c : Context} {kernel : Kernel} (h : c.Verified kernel) :
    ∃ outcome c', optimizeSlots kernel.body none c = .ok (outcome, c') ∧
      ((∃ error, outcome.result = .error error) ↔
        ∃ slot ∈ (c.tree kernel.body).slots, slot.offences ≠ []) ∧
      ∀ error, outcome.result = .error error ↔
        (c.tree kernel.body).firstOffence? = some error := by
  obtain ⟨outcome, w, hrun, hreach, hsettles⟩ := h.kept.optimizeSlots_none
  obtain ⟨hclean, hkept⟩ := hreach.firstOffence?_eq h.kept fun _ _ hm => absurd hm List.not_mem_nil
  have hresult : ∀ error, outcome.result = .error error ↔
      (c.tree kernel.body).firstOffence? = some error := fun error =>
    (hsettles.eq_error_iff (hreach.kept h.kept) hclean error).trans (by rw [hkept]; rfl)
  refine ⟨outcome, w.context, hrun, ?_, hresult⟩
  rw [← Tree.isSome_firstOffence?_iff]
  exact exists_congr hresult

namespace CountingKernel

/-- A kernel with a load that is forwarded, and then a slot that a loop in a loop counts with. -/
def text : List Char :=
  "kernel @k \x7b %v = arg 0 : i32 %a = alloca : i32 local_store %a, %v %x = local_load %a : i32
    print %x %i = alloca : i32 while \x7b range_for %i in %v..%v \x7b \x7d \x7d \x7d".toList

/-- What the text is parsed to. -/
def context : Context where
  stmts := #[⟨.arg 0, some ⟨.i32, 1⟩, some ⟨0⟩⟩, ⟨.alloca, some ⟨.i32, 1⟩, some ⟨0⟩⟩,
    ⟨.store ⟨1⟩ ⟨0⟩, none, some ⟨0⟩⟩, ⟨.load [⟨⟨1⟩, 0⟩], some ⟨.i32, 1⟩, some ⟨0⟩⟩,
    ⟨.print ⟨3⟩, none, some ⟨0⟩⟩, ⟨.alloca, some ⟨.i32, 1⟩, some ⟨0⟩⟩,
    ⟨.rangeFor ⟨5⟩ ⟨0⟩ ⟨0⟩ ⟨2⟩, none, some ⟨1⟩⟩, ⟨.loop none ⟨1⟩, none, some ⟨0⟩⟩]
  blocks := #[⟨[⟨0⟩, ⟨1⟩, ⟨2⟩, ⟨3⟩, ⟨4⟩, ⟨5⟩, ⟨7⟩], none⟩, ⟨[⟨6⟩], some ⟨7⟩⟩, ⟨[], some ⟨6⟩⟩]
  uses := [⟨⟨1⟩, ⟨2⟩, 0⟩, ⟨⟨0⟩, ⟨2⟩, 1⟩, ⟨⟨1⟩, ⟨3⟩, 0⟩, ⟨⟨3⟩, ⟨4⟩, 0⟩, ⟨⟨5⟩, ⟨6⟩, 0⟩, ⟨⟨0⟩, ⟨6⟩, 1⟩,
    ⟨⟨0⟩, ⟨6⟩, 2⟩]

theorem verified : context.Verified ⟨"k", ⟨0⟩⟩ :=
  have hparse : parseKernel text .empty = .ok (.ok ⟨"k", ⟨0⟩⟩, context) := by decide +kernel
  Parsed.empty.tidy.verified hparse (by decide +kernel)

end CountingKernel

open CountingKernel in
/-- The loop is reported, although the first slot has been taken out before. -/
theorem optimizeSlots_eq_error_counting : context.Verified ⟨"k", ⟨0⟩⟩ ∧
    ∃ outcome c', optimizeSlots ⟨0⟩ none context = .ok (outcome, c') ∧
      outcome.result = .error (.nestedLoopVar ⟨5⟩ ⟨6⟩) := by
  obtain ⟨outcome, c', hrun, -, hresult⟩ := optimizeSlots_eq_error_iff verified
  exact ⟨verified, outcome, c', hrun, (hresult _).2 (by decide +kernel)⟩

end KernelIR
