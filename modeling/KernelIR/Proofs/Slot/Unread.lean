import KernelIR.Proofs.Execution.Frame
import KernelIR.Proofs.Slot.Tracking

/-!
# Writes that nothing reads

At the end of a walk the latest store counts as unread if no load or atomic operation was
met behind it, and likewise the latest atomic operation (`SlotState.unread?`). If a write
counts as unread then no execution reads what it wrote (`Slot.unread_of_scan`), with one
exception. A join of two branches that end with the same value keeps the store of the
first one, and this may be a store in front of the branches, while the second branch has
read what it wrote before it stored the value again. The join does not know of this
reading any more (`Slot.Forgets`).
-/

namespace KernelIR

/-- The two kinds of statements that write a slot, counters of loops aside. -/
inductive Write where
  | store
  | atomic

namespace SlotState

/-- The latest statement that wrote the slot. -/
def latest? (st : SlotState) : Write → Option StmtId
  | .store => st.lastStore?
  | .atomic => st.lastAtomic?

/-- The latest statement that wrote the slot, if nothing seems to have read what it wrote. -/
def unread? (st : SlotState) : Write → Option StmtId
  | .store => if st.storeRead then none else st.lastStore?
  | .atomic => if st.atomicUnread then st.lastAtomic? else none

variable {st before thenState elseState body : SlotState} {w : Write} {s : StmtId}

theorem latest?_of_unread? (h : st.unread? w = some s) : st.latest? w = some s := by
  cases w <;> simp only [unread?] at h <;> split at h <;> first | exact h | cases h

@[simp] theorem unread?_start (region : Region) : (start region).unread? w = none := by
  cases w <;> rfl

theorem unread?_load : st.load.unread? w = none := by
  cases w with
  | store => cases h : st.lastStore? <;> simp [load, unread?, h]
  | atomic => cases h : st.lastAtomic? <;> simp [load, unread?, h]

theorem eq_of_unread?_store {id v : StmtId} (h : (st.store id v).unread? w = some s) : s = id := by
  cases w <;> simp [store, unread?] at h
  exact h.symm

theorem eq_of_unread?_atomic {id : StmtId} (h : (st.atomic id).unread? w = some s) : s = id := by
  cases w <;> simp [atomic, unread?] at h
  exact h.symm

theorem unread?_mergeLoop {binds : Bool} (h : (mergeLoop st body binds).unread? w = some s) :
    binds = false ∧ body.loaded = false ∧
      (body.stored = false ∧ st.unread? w = some s ∨ body.latest? w = some s) := by
  cases binds with
  | true => cases w <;> simp [mergeLoop, unread?, start] at h
  | false =>
    cases hs : body.stored <;> cases hl : body.loaded <;>
      simp only [mergeLoop, hs, hl, Bool.not_true, Bool.not_false, if_true, Bool.false_eq_true,
        if_false] at h
    · refine ⟨rfl, rfl, .inl ⟨rfl, ?_⟩⟩
      cases w <;> exact h
    · rw [unread?_load] at h
      cases h
    · refine ⟨rfl, rfl, .inr ?_⟩
      cases w <;> simpa [unread?, latest?] using h
    · cases w <;> simp [unread?] at h

/-- How a join comes by a write that counts as unread : neither branch has changed the
latest write, a branch has brought it in, or it is the store in front of the branches, and
the second branch has stored the same value again. -/
theorem unread?_mergeIf (h : (mergeIf before thenState elseState).unread? w = some s)
    (hidle : (mergeIf before thenState elseState).stored = false → before.latest? w = none) :
    (before.latest? w = some s ∧ thenState.unread? w = some s ∧ elseState.unread? w = some s) ∨
      (thenState.unread? w = some s ∧ thenState.latest? w ≠ before.latest? w) ∨
      (elseState.unread? w = some s ∧ elseState.latest? w ≠ before.latest? w) ∨
      (w = .store ∧ thenState.unread? w = some s ∧ elseState.storeRead = false ∧
        elseState.lastStore? ≠ some s ∧ thenState.storeHolds = true ∧ elseState.storeHolds = true ∧
        thenState.lastValue? = elseState.lastValue?) := by
  have hlatest := latest?_of_unread? h
  cases w with
  | store =>
    have hread : (mergeIf before thenState elseState).storeRead = false := by
      simp only [unread?] at h
      split at h
      · cases h
      · next hr => simpa using hr
    simp only [latest?, unread?] at hlatest hidle ⊢
    cases mergedStores before thenState elseState with
    | idle stored last =>
      rw [last, hidle stored] at hlatest
      cases hlatest
    | kept lastThen lastElse last _ _ read =>
      rw [read, Bool.or_eq_false_iff, Bool.or_eq_false_iff] at hread
      rw [last] at hlatest
      simp [lastThen, lastElse, hread, hlatest]
    | joined holdsThen holdsElse changed same last _ _ read =>
      rw [read, Bool.or_eq_false_iff] at hread
      rw [last] at hlatest
      by_cases hthen : thenState.lastStore? = before.lastStore?
      · have helse : elseState.lastStore? ≠ some s := fun he =>
          changed ⟨hthen, he.trans (hlatest.symm.trans hthen)⟩
        have hvalue : thenState.lastValue? = elseState.lastValue? :=
          same.resolve_left fun heq => helse (heq ▸ hlatest)
        exact .inr (.inr (.inr ⟨trivial, by simp [hread.1, hlatest], hread.2, helse, holdsThen,
          holdsElse, hvalue⟩))
      · exact .inr (.inl ⟨by simp [hread.1, hlatest], hthen⟩)
    | dropped _ last =>
      rw [last, Option.or_eq_some_iff] at hlatest
      rcases hlatest with hn | ⟨-, hn⟩
      · obtain ⟨hl, hne, hr⟩ := lastStore?_of_newStore? hn
        exact .inr (.inl ⟨by simp [hr, hl], hne⟩)
      · obtain ⟨hl, hne, hr⟩ := lastStore?_of_newStore? hn
        exact .inr (.inr (.inl ⟨by simp [hr, hl], hne⟩))
  | atomic =>
    have hunread : (mergeIf before thenState elseState).atomicUnread = true := by
      simp only [unread?] at h
      split at h
      · assumption
      · cases h
    simp only [latest?, unread?] at hlatest ⊢
    cases mergedAtomics before thenState elseState with
    | kept lastThen lastElse last unread =>
      rw [unread, Bool.and_eq_true] at hunread
      rw [last] at hlatest
      simp [lastThen, lastElse, hunread, hlatest]
    | changed last =>
      rw [last, Option.or_eq_some_iff] at hlatest
      rcases hlatest with hn | ⟨-, hn⟩
      · obtain ⟨hl, hne, hr⟩ := lastAtomic?_of_newAtomic? hn
        exact .inr (.inl ⟨by simp [hr, hl], hne⟩)
      · obtain ⟨hl, hne, hr⟩ := lastAtomic?_of_newAtomic? hn
        exact .inr (.inr (.inl ⟨by simp [hr, hl], hne⟩))

end SlotState

namespace Slot

variable {V : Type} (slot : Slot)

/-- Whether executing a tree to its end leaves nothing of what the slot held before. -/
def covers : Tree → Bool
  | .nil => false
  | .cons _ stmt first second rest =>
    covers rest ||
      match slot.action stmt.kind with
      | .store _ | .atomic => true
      | .branch _ => covers first && covers second
      | _ => false

/-- Whether a statement of a tree may read what the slot held in front of the tree. -/
def exposes : Tree → Bool
  | .nil => false
  | .cons _ stmt first second rest =>
    match slot.action stmt.kind with
    | .load | .atomic => true
    | .store _ => false
    | .pass => exposes rest
    | .branch _ =>
      exposes first || exposes second ||
        (!(slot.covers first && slot.covers second) && exposes rest)
    | .loop _ _ => exposes first || exposes rest

/-- No statement that reads the slot in an execution finds there what `s` has written. -/
def Unread (I : Interpretation V) (budget : Nat) (s : StmtId) (t : Tree) (m : Memory V) : Prop :=
  ∀ id stmt n, .reached id stmt n ∈ (t.run I budget m).observations →
    slot.id ∈ stmt.kind.slotsRead → ∀ cell, n.cell? slot.id = some cell → cell.writer ≠ s

/-- A branch is next whose join forgets a reading of the store `s`. The first block leaves
this store in front of the branch unread, and the second one, which may read what it wrote,
stores the same value again. -/
def Forgets (s : StmtId) (x : Point) : Prop :=
  ∃ id stmt first second rest thenState elseState,
    x.tree = .cons id stmt first second rest ∧ slot.action stmt.kind = .branch false ∧
      slot.scan first x.state = .ok thenState ∧ slot.scan second x.state = .ok elseState ∧
      x.state.lastStore? = some s ∧ thenState.lastStore? = some s ∧ thenState.storeRead = false ∧
      elseState.lastStore? ≠ some s ∧ elseState.storeRead = false ∧
      thenState.storeHolds = true ∧ elseState.storeHolds = true ∧
      thenState.lastValue? = elseState.lastValue? ∧ slot.exposes second = true

variable {slot} {I : Interpretation V} {budget : Nat} {s : StmtId} {t : Tree} {m : Memory V}
  {id : StmtId} {stmt : Stmt} {first second rest : Tree}

namespace Unread

theorem of_not_readIn (h : slot.readIn t = false) : slot.Unread I budget s t m := by
  intro id stmt n ho hr
  have := List.any_eq_false.1 h _ (Tree.mem_preorder_of_reached I budget ho)
  exact absurd (reads_eq_true_iff.2 (.inl hr)) this

/-- Nothing of a statement elsewhere is read, if it was not there in front of the tree. -/
theorem of_writer (h : ∀ cell, m.cell? slot.id = some cell → cell.writer ≠ s) (hs : s ∉ t.ids) :
    slot.Unread I budget s t m := by
  intro id stmt n ho _ cell hc
  exact (Tree.writer_run I budget (W := (· ≠ s)) (fun id hid (heq : id = s) => hs (heq ▸ hid)) h).2
    id stmt n ho cell hc

theorem cons (h : slot.Unread I budget s (.cons id stmt first second .nil) m)
    (hrest : ((Tree.cons id stmt first second .nil).run I budget m).signal = .normal →
      slot.Unread I budget s rest ((Tree.cons id stmt first second .nil).run I budget m).memory) :
    slot.Unread I budget s (.cons id stmt first second rest) m := by
  intro r u n ho hr
  rcases mem_run_cons ho with ho | ⟨hn, ho⟩
  · exact h r u n ho hr
  · exact hrest hn r u n ho hr

/-- A branch executes one of its blocks. -/
theorem branch {masked : Bool} (ha : slot.action stmt.kind = .branch masked)
    (h₁ : slot.Unread I budget s first m) (h₂ : slot.Unread I budget s second m) :
    slot.Unread I budget s (.cons id stmt first second .nil) m := by
  obtain ⟨cond, _, _, _, _, hk, -⟩ := action_eq_branch ha
  intro r u n ho hr
  rw [Tree.run_single, List.mem_cons] at ho
  rcases ho with heq | ho
  · obtain ⟨rfl, rfl, rfl⟩ := Observation.reached.inj heq
    simp [hk, Kind.slotsRead] at hr
  · simp only [Interpretation.node, hk] at ho
    split at ho
    · exact h₁ r u n ho hr
    · exact h₂ r u n ho hr

/-- A loop executes its body from any memory. -/
theorem loop {masked binds : Bool} (ha : slot.action stmt.kind = .loop masked binds)
    (h : ∀ m, slot.Unread I budget s first m) :
    slot.Unread I budget s (.cons id stmt first second .nil) m := by
  intro r u n ho hr
  rcases exists_of_reached_loop (P := fun _ => True) ha (fun _ _ => trivial)
    (fun _ _ _ _ _ => trivial) trivial ho with ⟨rfl, rfl⟩ | ⟨m₁, -, ho⟩
  · rcases action_eq_loop ha with ⟨_, _, hk⟩ | ⟨_, _, _, _, hk⟩ | ⟨_, _, _, hk⟩ <;>
      simp [hk, Kind.slotsRead] at hr
  · exact h m₁ r u n ho hr

/-- A statement that does not read the slot. -/
theorem of_reads (ht : (Tree.cons id stmt first second rest).Shaped)
    (hb : ∀ b, slot.action stmt.kind ≠ .branch b) (hl : ∀ b d, slot.action stmt.kind ≠ .loop b d)
    (h : slot.reads stmt.kind = false) :
    slot.Unread I budget s (.cons id stmt first second .nil) m := by
  obtain ⟨rfl, rfl⟩ := eq_nil_of_action ht hb hl
  exact of_not_readIn (by simp [readIn_cons, h])

end Unread

theorem writer_of_write {writer : StmtId} {contents : List V} {cell : Cell V}
    (h : (m.write writer id contents).cell? id = some cell) : cell.writer = writer := by
  rw [Memory.cell?_write, if_pos rfl, Option.map_eq_some_iff] at h
  obtain ⟨-, -, rfl⟩ := h
  rfl

theorem writer_of_covers (h : slot.covers t = true) (hn : (t.run I budget m).signal = .normal) :
    ∀ cell, (t.run I budget m).memory.cell? slot.id = some cell → cell.writer ∈ t.ids := by
  induction t generalizing m with
  | nil => cases h
  | cons id stmt first second rest ih₁ ih₂ ih₃ =>
    rw [Tree.run_cons] at hn ⊢
    have hnode : ((Tree.cons id stmt first second .nil).run I budget m).signal = .normal := by
      by_contra hne
      rw [Result.andThen_of_ne hne] at hn
      exact hne hn
    rw [Result.andThen_normal hnode] at hn ⊢
    simp only [Tree.ids_cons, List.mem_cons, List.mem_append]
    rw [covers, Bool.or_eq_true] at h
    rcases h with h | h
    · exact fun cell hc => .inr (.inr (ih₃ h hn cell hc))
    · -- the first statement leaves nothing, and those behind it can only write once more
      refine (Tree.writer_run I budget (W := fun w => w = id ∨ (w ∈ first.ids ∨ w ∈ second.ids) ∨
        w ∈ rest.ids) (fun w hw => .inr (.inr hw)) fun cell hc => ?_).1
      rw [Tree.run_single] at hc hnode
      split at h
      · next v ha =>
        simp only [Interpretation.node, Interpretation.exec, action_eq_store ha] at hc
        exact .inl (writer_of_write hc)
      · next ha =>
        obtain ⟨op, v, hk⟩ := action_eq_atomic ha
        simp only [Interpretation.node, Interpretation.exec, hk] at hc
        exact .inl (writer_of_write hc)
      · next masked ha =>
        obtain ⟨cond, _, _, _, _, hk, -⟩ := action_eq_branch ha
        rw [Bool.and_eq_true] at h
        simp only [Interpretation.node, hk] at hc hnode
        by_cases ht : I.truth (m.value cond) = true
        · simp only [ht, if_true] at hc hnode
          exact .inr (.inl (.inl (ih₁ h.1 hnode cell hc)))
        · simp only [ht] at hc hnode
          exact .inr (.inl (.inr (ih₂ h.2 hnode cell hc)))
      · cases h

/-- Where nothing of what the slot held in front of a tree is exposed, nothing of it is read. -/
theorem unread_of_not_exposes (ht : t.Shaped) (h : slot.exposes t = false) (hs : s ∉ t.ids)
    (m : Memory V) : slot.Unread I budget s t m := by
  induction t generalizing m with
  | nil => exact .of_not_readIn rfl
  | cons id stmt first second rest ih₁ ih₂ ih₃ =>
    simp only [Tree.ids_cons, List.mem_cons, List.mem_append, not_or] at hs
    obtain ⟨hid, ⟨hs₁, hs₂⟩, hs₃⟩ := hs
    have ih₁ := fun he => ih₁ ht.2.2.1 he hs₁
    have ih₂ := fun he => ih₂ ht.2.2.2.1 he hs₂
    have ih₃ := fun he => ih₃ ht.2.2.2.2 he hs₃
    rw [exposes] at h
    split at h
    · cases h
    · cases h
    · next v ha =>
      refine .cons (.of_reads ht (by simp [ha]) (by simp [ha]) (by simp [reads, ha])) fun _ =>
        .of_writer (fun cell hc => ?_) hs₃
      simp only [Tree.run_single, Interpretation.node, Interpretation.exec,
        action_eq_store ha] at hc
      rw [writer_of_write hc]
      exact fun heq => hid heq.symm
    · next ha =>
      exact .cons (.of_reads ht (by simp [ha]) (by simp [ha]) (by simp [reads, ha]))
        fun _ => ih₃ h _
    · next masked ha =>
      simp only [Bool.or_eq_false_iff, Bool.and_eq_false_iff, Bool.not_eq_false'] at h
      obtain ⟨⟨h₁, h₂⟩, h₃⟩ := h
      refine .cons (.branch ha (ih₁ h₁ m) (ih₂ h₂ m)) fun hn => ?_
      rcases h₃ with hcovers | h₃
      · have hc : slot.covers (.cons id stmt first second .nil) = true := by
          simp only [covers, ha, Bool.false_or]
          simpa using hcovers
        refine .of_writer (fun cell hcell heq => ?_) hs₃
        have hmem := writer_of_covers hc hn cell hcell
        simp only [Tree.ids_cons, Tree.ids_nil, List.append_nil, List.mem_cons, List.mem_append,
          heq] at hmem
        exact hmem.elim hid fun hm => hm.elim hs₁ hs₂
      · exact ih₃ h₃ _
    · next masked binds ha =>
      rw [Bool.or_eq_false_iff] at h
      exact .cons (.loop ha (ih₁ h.1)) fun _ => ih₃ h.2 _

/-! ## What a walk takes for unread -/

/-- The write `s` that counts as unread behind a tree is indeed not read in it. If it stands
in front of the tree it counted as unread there. -/
structure Cleared (slot : Slot) (I : Interpretation V) (budget : Nat) (w : Write) (s : StmtId)
    (t : Tree) (st : SlotState) : Prop where
  outside : s ∉ t.ids → st.unread? w = some s ∧ ∀ m, slot.Unread I budget s t m
  inside : s ∈ t.ids → ∀ m, (∀ cell, m.cell? slot.id = some cell → cell.writer ≠ s) →
    slot.Unread I budget s t m

variable {root : Tree} {scope : List StmtId} {st st' : SlotState} {w : Write}

/-- A statement alone. -/
theorem Cleared.visit (hi : Point.Inv slot root ⟨.cons id stmt first second rest, scope, st⟩)
    (hf : w = .store → ∀ x, slot.Reaches ⟨.cons id stmt first second rest, scope, st⟩ x →
      ¬slot.Forgets s x)
    (hfirst : ∀ {st st'}, Point.Inv slot root ⟨first, scope, st⟩ → slot.scan first st = .ok st' →
      st'.unread? w = some s → (w = .store → ∀ x, slot.Reaches ⟨first, scope, st⟩ x →
        ¬slot.Forgets s x) → slot.Cleared I budget w s first st)
    (hsecond : ∀ {st st'}, Point.Inv slot root ⟨second, scope, st⟩ →
      slot.scan second st = .ok st' → st'.unread? w = some s →
      (w = .store → ∀ x, slot.Reaches ⟨second, scope, st⟩ x → ¬slot.Forgets s x) →
      slot.Cleared I budget w s second st)
    (hv : slot.visit id stmt first second st = .ok st') (hu : st'.unread? w = some s) :
    slot.Cleared I budget w s (.cons id stmt first second .nil) st := by
  have hids : (Tree.cons id stmt first second .nil).ids = id :: (first.ids ++ second.ids) := by simp
  have hpast : st.latest? w = some s → s ∉ (Tree.cons id stmt first second .nil).ids := by
    intro hl hm
    refine hi.past s ?_ ?_
    · cases w with
      | store => exact .inl hl
      | atomic => exact .inr hl
    · rw [hids] at hm
      simp only [Tree.ids_cons, List.mem_cons, List.mem_append] at hm ⊢
      exact hm.imp_right .inl
  have hn := hi.nodup
  simp only [Tree.ids_cons, List.nodup_cons, List.nodup_append, List.mem_append] at hn
  rw [hids] at hpast
  have hleaf : (∀ b, slot.action stmt.kind ≠ .branch b) →
      (∀ b d, slot.action stmt.kind ≠ .loop b d) → slot.reads stmt.kind = false →
      ∀ m, slot.Unread I budget s (.cons id stmt first second .nil) m :=
    fun hb hl hr m => .of_reads hi.shaped hb hl hr
  cases visited_of_visit hv with
  | pass ha =>
    have hunread := hleaf (by simp [ha]) (by simp [ha]) (by simp [reads, ha])
    exact ⟨fun _ => ⟨hu, hunread⟩, fun _ m _ => hunread m⟩
  | store ha =>
    have hunread := hleaf (by simp [ha]) (by simp [ha]) (by simp [reads, ha])
    obtain rfl := SlotState.eq_of_unread?_store hu
    exact ⟨fun hs => absurd (by simp) hs, fun _ m _ => hunread m⟩
  | atomic ha =>
    obtain rfl := SlotState.eq_of_unread?_atomic hu
    obtain ⟨rfl, rfl⟩ := @eq_nil_of_action slot _ _ _ _ _ hi.shaped (by simp [ha]) (by simp [ha])
    refine ⟨fun hs => absurd (by simp) hs, fun _ m hm r u n ho hr => ?_⟩
    rcases exists_of_reached_single ho with ⟨-, -, rfl⟩ | ⟨m₁, ho | ho⟩
    · exact hm
    · cases ho
    · cases ho
  | load ha =>
    rw [SlotState.unread?_load] at hu
    cases hu
  | @branch ha thenState elseState hthen helse =>
    have hflags := scan_flags hi.intoFirst.shaped hi.intoFirst.noStores hthen
    have hidle : (st.mergeIf thenState elseState).stored = false → st.latest? w = none := by
      intro hst
      rw [SlotState.mergeIf_stored, hflags.1] at hst
      have hidle := hi.tracks.idle (by grind : st.stored = false)
      cases w with
      | store => exact hidle.1
      | atomic => exact hidle.2.1
    have hnew : ∀ {t : Tree} {st' : SlotState}, slot.scan t st = .ok st' →
        st'.unread? w = some s → st'.latest? w ≠ st.latest? w → s ∈ t.ids := by
      intro t st' hs hu hne
      have hl := SlotState.latest?_of_unread? hu
      have hleads := scan_leads hs
      cases w with
      | store => exact hleads.store.resolve_left hne s hl
      | atomic => exact hleads.atomic.resolve_left hne s hl
    have hf₁ : w = .store → ∀ x, slot.Reaches ⟨first, scope, st⟩ x → ¬slot.Forgets s x :=
      fun hw x hx => hf hw x (.head (.first ha) hx)
    have hf₂ : w = .store → ∀ x, slot.Reaches ⟨second, scope, st⟩ x → ¬slot.Forgets s x :=
      fun hw x hx => hf hw x (.head (.second ha hthen) hx)
    have hfirst := fun hu => hfirst hi.intoFirst hthen hu hf₁
    have hsecond := fun hu => hsecond hi.intoSecond helse hu hf₂
    have helsewhere : ∀ {t : Tree} {m : Memory V}, s ∉ t.ids →
        (∀ cell, m.cell? slot.id = some cell → cell.writer ≠ s) → slot.Unread I budget s t m :=
      fun hs hm => .of_writer hm hs
    have hbrought : s ∈ first.ids → thenState.unread? w = some s →
        slot.Cleared I budget w s (.cons id stmt first second .nil) st := fun hm hu =>
      ⟨fun hs => absurd (by simp [hm]) hs, fun _ m hw => .branch ha ((hfirst hu).inside hm m hw)
        (helsewhere (fun hm' => hn.2.1.2.2 s hm s hm' rfl) hw)⟩
    rcases SlotState.unread?_mergeIf hu hidle with
      ⟨hl, huthen, huelse⟩ | ⟨huthen, hne⟩ | ⟨huelse, hne⟩ |
        ⟨rfl, huthen, hread, hne, holdsThen, holdsElse, hvalue⟩
    · have hout := hpast hl
      simp only [List.mem_cons, List.mem_append, not_or] at hout
      obtain ⟨hst, hunread⟩ := (hfirst huthen).outside hout.2.1
      exact ⟨fun _ => ⟨hst, fun m =>
        .branch ha (hunread m) (((hsecond huelse).outside hout.2.2).2 m)⟩,
        fun hm => absurd (hids ▸ hm) (hpast hl)⟩
    · exact hbrought (hnew hthen huthen hne) huthen
    · have hm := hnew helse huelse hne
      exact ⟨fun hs => absurd (by simp [hm]) hs, fun _ m hw => .branch ha
        (helsewhere (fun hm' => hn.2.1.2.2 s hm' s hm rfl) hw) ((hsecond huelse).inside hm m hw)⟩
    · by_cases hm : s ∈ first.ids
      · exact hbrought hm huthen
      · -- the store of the first block is the one in front of the branch
        obtain ⟨hst, hunread⟩ := (hfirst huthen).outside hm
        have hl := SlotState.latest?_of_unread? hst
        have hl' := SlotState.latest?_of_unread? huthen
        have hout := hpast hl
        simp only [List.mem_cons, List.mem_append, not_or] at hout
        have hread' : thenState.storeRead = false := by
          simp only [SlotState.unread?] at huthen
          split at huthen
          · cases huthen
          · next hr => simpa using hr
        have hexposes : slot.exposes second = false := by
          by_contra he
          exact hf rfl _ .refl ⟨id, stmt, first, second, rest, thenState, elseState, rfl, ha, hthen,
            helse, hl, hl', hread', hne, hread, holdsThen, holdsElse, hvalue, by simpa using he⟩
        exact ⟨fun _ => ⟨hst, fun m => .branch ha (hunread m)
          (unread_of_not_exposes hi.intoSecond.shaped hexposes hout.2.2 m)⟩,
          fun hm => absurd (hids ▸ hm) (hpast hl)⟩
  | inner ha hregion hbody =>
    have hsame := scan_sameStores (hi.intoFirst.noStores hregion) hbody
    have hlatest : st'.latest? w = st.latest? w := by
      cases w with
      | store => exact hsame.lastStore?
      | atomic => exact hsame.lastAtomic?
    have hout := hpast (hlatest.symm.trans (SlotState.latest?_of_unread? hu))
    have hs : s ∉ first.ids := fun hm => hout (by simp [hm])
    obtain ⟨hst, hunread⟩ := (hfirst hi.intoFirst hbody hu fun hw x hx =>
      hf hw x (.head (.inner ha hregion) hx)).outside hs
    exact ⟨fun _ => ⟨hst, fun m => .loop ha hunread⟩, fun hm => absurd (hids ▸ hm) hout⟩
  | @loop binds ha hbinds hregion bodyEnd hbody =>
    obtain ⟨rfl, hloaded, hfrom⟩ := SlotState.unread?_mergeLoop hu
    have hread : slot.readIn first = false := by
      have := (scan_flags hi.intoBody.shaped hi.intoBody.noStores hbody).2
      rw [hloaded] at this
      simpa [SlotState.start] using this.symm
    have hunread : ∀ m, slot.Unread I budget s (.cons id stmt first second .nil) m :=
      fun m => .loop ha fun _ => .of_not_readIn hread
    refine ⟨fun hs => ⟨?_, hunread⟩, fun _ m _ => hunread m⟩
    rcases hfrom with ⟨-, hst⟩ | hl
    · exact hst
    · have hleads := scan_leads hbody
      have hmem : s ∈ first.ids := by
        cases w with
        | store =>
          refine hleads.store.resolve_left (fun he => ?_) s hl
          simp [SlotState.latest?, he, SlotState.start] at hl
        | atomic =>
          refine hleads.atomic.resolve_left (fun he => ?_) s hl
          simp [SlotState.latest?, he, SlotState.start] at hl
      exact absurd (by simp [hmem]) hs

variable {isSlot : StmtId → Bool} (hroot : ∀ p ∈ root.sites [], p.Fits isSlot)
include hroot

/-- What a walk takes for unread is not read. -/
theorem cleared_of_scan (hi : Point.Inv slot root ⟨t, scope, st⟩)
    (hf : w = .store → ∀ x, slot.Reaches ⟨t, scope, st⟩ x → ¬slot.Forgets s x)
    (hs : slot.scan t st = .ok st') (hu : st'.unread? w = some s) :
    slot.Cleared I budget w s t st := by
  induction t generalizing scope st st' with
  | nil =>
    obtain rfl := Except.ok.inj hs
    exact ⟨fun _ => ⟨hu, fun m => .of_not_readIn rfl⟩, fun hm => absurd hm (by simp)⟩
  | cons id stmt first second rest ih₁ ih₂ ih₃ =>
    obtain ⟨mid, hv, hr⟩ := scan_cons_eq_ok hs
    have hi' : Point.Inv slot root ⟨rest, stmt.scopeAfter id scope, mid⟩ :=
      hi.next hroot (.after hv)
    have hrest := ih₃ hi' (fun hw x hx => hf hw x (.head (.after hv) hx)) hr hu
    have hn := hi.nodup
    simp only [Tree.ids_cons, List.nodup_cons, List.nodup_append, List.mem_append] at hn
    have hnode : mid.unread? w = some s →
        slot.Cleared I budget w s (.cons id stmt first second .nil) st :=
      Cleared.visit hi hf (fun hi hs hu hf => ih₁ hi hf hs hu)
        (fun hi hs hu hf => ih₂ hi hf hs hu) hv
    have hids : ∀ {x}, x ∈ (Tree.cons id stmt first second .nil).ids ↔
        x = id ∨ x ∈ first.ids ∨ x ∈ second.ids := by
      simp
    refine ⟨fun hs => ?_, fun hs m hw => ?_⟩
    · simp only [Tree.ids_cons, List.mem_cons, List.mem_append, not_or] at hs
      obtain ⟨hmid, hunread⟩ := hrest.outside hs.2.2
      obtain ⟨hst, hunread'⟩ := (hnode hmid).outside (by simpa [not_or] using ⟨hs.1, hs.2.1⟩)
      exact ⟨hst, fun m => .cons (hunread' m) fun _ => hunread _⟩
    · by_cases hm : s ∈ rest.ids
      · have hout : s ∉ (Tree.cons id stmt first second .nil).ids := by
          rw [hids]
          rintro (rfl | hm')
          · exact hn.1 (.inr hm)
          · exact hn.2.2.2 s hm' s hm rfl
        refine .cons (.of_writer hw hout) fun _ => hrest.inside hm _ ?_
        exact (Tree.writer_run I budget (W := (· ≠ s))
          (fun x hx (heq : x = s) => hout (heq ▸ hx)) hw).1
      · have hin : s ∈ (Tree.cons id stmt first second .nil).ids := by
          simp only [Tree.ids_cons, List.mem_cons, List.mem_append] at hs
          rw [hids]
          exact hs.imp_right fun h => h.resolve_right hm
        obtain ⟨hmid, hunread⟩ := hrest.outside hm
        exact .cons ((hnode hmid).inside hin m hw) fun _ => hunread _

/-- No execution of a tree reads what a write behind a slot leaves there, if at the end of
the walk it counts as unread. -/
theorem unread_of_scan (hshaped : root.Shaped) (hnodup : root.ids.Nodup) (h : slot ∈ root.slots)
    (hf : w = .store → ∀ x, slot.Walks root x → ¬slot.Forgets s x)
    (hs : slot.scan slot.following (.start .outside) = .ok st) (hu : st.unread? w = some s) :
    slot.Unread I budget s root m := by
  obtain ⟨stmt, scope, hsite, -, -, hinv⟩ :=
    exists_site_of_mem_slots hshaped hnodup (fun _ hp => hp) (by simp) h
  have hcleared : slot.Cleared I budget w s slot.following (.start .outside) :=
    cleared_of_scan hroot hinv
    (fun hw x hx => hf hw x ⟨_, hsite, rfl, hx⟩) hs hu
  have hmem : s ∈ slot.following.ids := by
    by_contra hout
    have := (hcleared.outside hout).1
    simp at this
  have hne : slot.id ≠ s := by
    rintro rfl
    exact hinv.fresh _ List.mem_cons_self hmem
  intro r u n ho hr
  obtain ⟨p, hp, rfl, rfl⟩ :=
    Tree.exists_site_of_mem_preorder (Tree.mem_preorder_of_reached I budget ho) []
  have hbehind := mem_following_of_mem_scope hnodup (by simp) h hp
    ((hroot p hp).mem_scope (p.stmt.kind.slotsRead_subset_operands hr))
  -- the walk begins where the slot has just been declared
  obtain ⟨m₁, hm₁, ho₁⟩ := exists_declared_of_mem_slots hnodup h hbehind ho
  refine hcleared.inside hmem m₁ (fun cell hc => ?_) p.id p.stmt n ho₁ hr
  obtain rfl := Option.some.inj (hm₁.symm.trans hc)
  exact hne

end Slot

end KernelIR
