import Mathlib.Logic.Relation
import KernelIR.Proofs.Slot.State
import KernelIR.Proofs.Tree.Scope
import KernelIR.Slot.Scan

/-!
# Points of a walk

For the walk behind a slot a statement is one of six actions (`Slot.Action`), and what
the walk makes of one statement is `Slot.visit`. A walk is at a `Point` : in front of some
statements of a block, with the values visible there and the knowledge about the slot.
`Slot.Next` leads from a point to the next ones, behind the first statement or into a
block of it, and `Slot.Reaches` to all points that the walk comes to, in both walks of a
loop body. Whatever a walk halts at, it has come to (`Slot.reaches_of_halt`).

`Point.Inv` is what holds at every point of a walk through a valid tree : the latest store
is a store of the slot in the tree, and if its value holds, this value is visible
(`Point.Inv.reaches`).
-/

namespace KernelIR

namespace Slot

/-- What a statement is to the walk behind a slot. -/
inductive Action where
  | pass
  | store (value : StmtId)
  | atomic
  | load
  | branch (masked : Bool)
  | loop (masked binds : Bool)

variable (slot : Slot)

/-- What a statement of the given kind is to the walk. -/
def action : Kind → Action
  | .store s value => if s = slot.id then .store value else .pass
  | .atomic _ s _ => if s = slot.id then .atomic else .pass
  | .load lanes => if lanes.any (·.slot == slot.id) then .load else .pass
  | .branch _ trueMask falseMask _ _ => .branch (trueMask.isSome || falseMask.isSome)
  | .loop mask _ => .loop mask.isSome false
  | .rangeFor counter _ _ _ => .loop false (counter == slot.id)
  | .structFor counters _ _ => .loop false (counters.contains slot.id)
  | _ => .pass

/-- Whether the statement writes the slot, what is nested in it aside. -/
def writes (k : Kind) : Bool :=
  match slot.action k with
  | .store _ | .atomic | .loop _ true => true
  | _ => false

/-- Whether the walk takes the statement for one that reads the slot. -/
def reads (k : Kind) : Bool :=
  match slot.action k with
  | .load | .atomic | .loop _ true => true
  | _ => false

def writtenIn (t : Tree) : Bool :=
  t.preorder.any fun p => slot.writes p.2.kind

def readIn (t : Tree) : Bool :=
  t.preorder.any fun p => slot.reads p.2.kind

/-- Meets one statement, with what is nested in it. -/
def visit (id : StmtId) (stmt : Stmt) (first second : Tree) (st : SlotState) :
    Except Halt SlotState :=
  match slot.action stmt.kind with
  | .pass => .ok st
  | .store value => .ok (st.store id value)
  | .atomic => .ok (st.atomic id)
  | .load => slot.scanLoad id stmt st.load
  | .branch masked => do
    if masked then throw (.violation (.maskedIf id))
    let thenState ← slot.scan first st
    let elseState ← slot.scan second st
    return st.mergeIf thenState elseState
  | .loop masked binds => do
    if masked then throw (.violation (.maskedWhile id))
    slot.scanLoop id binds (slot.scan first) st

/-- What a statement makes of the state in front of it, if the walk goes on. -/
inductive Visited (id : StmtId) (stmt : Stmt) (first second : Tree) (st : SlotState) :
    SlotState → Prop where
  | pass (h : slot.action stmt.kind = .pass) : Visited id stmt first second st st
  | store {value : StmtId} (h : slot.action stmt.kind = .store value) :
    Visited id stmt first second st (st.store id value)
  | atomic (h : slot.action stmt.kind = .atomic) : Visited id stmt first second st (st.atomic id)
  | load (h : slot.action stmt.kind = .load) : Visited id stmt first second st st.load
  | branch (h : slot.action stmt.kind = .branch false) {thenState elseState : SlotState}
    (hthen : slot.scan first st = .ok thenState) (helse : slot.scan second st = .ok elseState) :
    Visited id stmt first second st (st.mergeIf thenState elseState)
  /-- The body of a loop inside another one that does not write the slot. -/
  | inner (h : slot.action stmt.kind = .loop false false) (hregion : st.region = .noStores)
    {st' : SlotState} (hbody : slot.scan first st = .ok st') :
    Visited id stmt first second st st'
  | loop {binds : Bool} (h : slot.action stmt.kind = .loop false binds)
    (hbinds : binds = true → st.region = .outside) (hregion : st.region ≠ .noStores)
    {bodyEnd : SlotState} (hbody : slot.scan first (.start .mayHaveStores) = .ok bodyEnd) :
    Visited id stmt first second st (st.mergeLoop bodyEnd binds)

variable {slot}

/-! ## Actions -/

/-- A walk sees a store only at a store to its own slot. -/
theorem action_eq_store {k : Kind} {v : StmtId} (h : slot.action k = .store v) :
    k = .store slot.id v := by
  cases k <;> simp only [action] at h <;> grind

theorem action_eq_atomic {k : Kind} (h : slot.action k = .atomic) :
    ∃ op v, k = .atomic op slot.id v := by
  cases k with
  | atomic op s v =>
    simp only [action] at h
    split at h
    · next heq => exact ⟨op, v, by rw [heq]⟩
    · cases h
  | _ => grind [action]

theorem action_eq_load {k : Kind} (h : slot.action k = .load) :
    ∃ lanes, k = .load lanes ∧ lanes.any (·.slot == slot.id) = true := by
  cases k with
  | load lanes =>
    simp only [action] at h
    split at h
    · next hany => exact ⟨lanes, rfl, hany⟩
    · cases h
  | _ => grind [action]

theorem action_eq_branch {k : Kind} {masked : Bool} (h : slot.action k = .branch masked) :
    ∃ cond m n b d, k = .branch cond m n b d ∧ masked = (m.isSome || n.isSome) := by
  cases k with
  | branch cond m n b d => exact ⟨cond, m, n, b, d, rfl, (Action.branch.inj h).symm⟩
  | _ => grind [action]

/-- The statements a walk takes for loops are the three kinds of loops. -/
theorem action_eq_loop {k : Kind} {masked binds : Bool} (h : slot.action k = .loop masked binds) :
    (∃ mask body, k = .loop mask body) ∨ (∃ i l u body, k = .rangeFor i l u body) ∨
      ∃ is snode body, k = .structFor is snode body := by
  cases k with
  | loop mask body => exact .inl ⟨mask, body, rfl⟩
  | rangeFor i l u body => exact .inr (.inl ⟨i, l, u, body, rfl⟩)
  | structFor is snode body => exact .inr (.inr ⟨is, snode, body, rfl⟩)
  | _ => grind [action]

/-! ## Walks -/

/-- A walk visits the statement it stands at and goes on behind it. -/
theorem scan_cons (id : StmtId) (stmt : Stmt) (first second rest : Tree) (st : SlotState) :
    slot.scan (.cons id stmt first second rest) st =
      slot.visit id stmt first second st >>= slot.scan rest := by
  rw [scan, visit, action.eq_def]
  cases stmt.kind with
  | store s value => dsimp only; split <;> rfl
  | atomic op s value => dsimp only; split <;> rfl
  | load lanes => dsimp only; split <;> rfl
  | branch cond trueMask falseMask _ _ =>
    cases slot.scan first st <;> cases slot.scan second st <;> cases trueMask <;>
      cases falseMask <;> rfl
  | loop mask body => cases mask <;> rfl
  | _ => rfl

variable {id : StmtId} {stmt : Stmt} {first second rest t : Tree} {st st' : SlotState}

/-- A load that is not rewritten leaves the state as it is. -/
theorem scanLoad_eq_ok {load : StmtId} (h : slot.scanLoad load stmt st = .ok st') : st' = st := by
  unfold scanLoad at h
  split at h
  · exact (Except.ok.inj h).symm
  · split at h
    · exact (Except.ok.inj h).symm
    · split at h
      · cases h
      · split at h
        · cases h
        · exact (Except.ok.inj h).symm

theorem scanLoop_eq (loop : StmtId) (binds : Bool) (body : SlotState → Except Halt SlotState)
    (st : SlotState) : slot.scanLoop loop binds body st =
      if binds = true ∧ st.region ≠ .outside then .error (.violation (.nestedLoopVar slot.id loop))
      else if st.region = .noStores then body st
      else
        match body (.start .mayHaveStores) with
        | .error halt => .error halt
        | .ok bodyEnd =>
          if st.needsRewalk bodyEnd binds = true then
            match body { st.mergeLoop bodyEnd binds with region := .noStores } with
            | .error halt => .error halt
            | .ok _ => .ok (st.mergeLoop bodyEnd binds)
          else .ok (st.mergeLoop bodyEnd binds) := by
  unfold scanLoop
  by_cases hviol : binds = true ∧ st.region ≠ .outside
  · rw [if_pos hviol, if_pos hviol]
    rfl
  · rw [if_neg hviol, if_neg hviol]
    dsimp only
    split
    · rfl
    · cases body (.start .mayHaveStores) with
      | error halt => rfl
      | ok bodyEnd =>
        change (if _ then _ else _) = if _ then _ else _
        split
        · cases body { st.mergeLoop bodyEnd binds with region := .noStores } <;> rfl
        · rfl

/-- A walk through a loop goes on if it is handled, and if the walks through its body do. -/
theorem scanLoop_eq_ok_iff {loop : StmtId} {binds : Bool}
    {body : SlotState → Except Halt SlotState} :
    slot.scanLoop loop binds body st = .ok st' ↔ (binds = true → st.region = .outside) ∧
      (st.region = .noStores ∧ body st = .ok st' ∨
        st.region ≠ .noStores ∧ ∃ bodyEnd, body (.start .mayHaveStores) = .ok bodyEnd ∧
          st.mergeLoop bodyEnd binds = st' ∧ (st.needsRewalk bodyEnd binds = true →
            ∃ again, body { st.mergeLoop bodyEnd binds with region := .noStores } =
              .ok again)) := by
  rw [scanLoop_eq]
  by_cases hviol : binds = true ∧ st.region ≠ .outside
  · rw [if_pos hviol]
    exact iff_of_false nofun fun h => hviol.2 (h.1 hviol.1)
  · have hbinds : binds = true → st.region = .outside := fun hb => by
      by_contra hne
      exact hviol ⟨hb, hne⟩
    rw [if_neg hviol, and_iff_right hbinds]
    by_cases hregion : st.region = .noStores
    · rw [if_pos hregion, and_iff_right hregion, or_iff_left fun h => h.1 hregion]
    · rw [if_neg hregion, or_iff_right fun h => hregion h.1, and_iff_right hregion]
      cases body (.start .mayHaveStores) with
      | error halt => simp
      | ok bodyEnd =>
        simp only [Except.ok.injEq, exists_eq_left']
        generalize { st.mergeLoop bodyEnd binds with region := .noStores } = again
        split
        · next hrewalk => cases body again <;> simp [hrewalk]
        · next hrewalk => simp [hrewalk]

/-- A visit that goes through takes one of the steps of `Slot.Visited`. -/
theorem visited_of_visit (h : slot.visit id stmt first second st = .ok st') :
    slot.Visited id stmt first second st st' := by
  unfold visit at h
  split at h
  · next ha =>
    cases h
    exact .pass ha
  · next ha =>
    cases h
    exact .store ha
  · next ha =>
    cases h
    exact .atomic ha
  · next ha =>
    obtain rfl := scanLoad_eq_ok h
    exact .load ha
  · next masked ha =>
    cases masked with
    | true => cases h
    | false =>
      cases hthen : slot.scan first st with
      | error e =>
        rw [hthen] at h
        cases h
      | ok thenState =>
        cases helse : slot.scan second st with
        | error e =>
          rw [hthen, helse] at h
          cases h
        | ok elseState =>
          rw [hthen, helse] at h
          cases h
          exact .branch ha hthen helse
  · next masked binds ha =>
    cases masked with
    | true => cases h
    | false =>
      replace h : slot.scanLoop id binds (slot.scan first) st = .ok st' := h
      obtain ⟨hbinds, ⟨hregion, hbody⟩ | ⟨hregion, bodyEnd, hbody, rfl, -⟩⟩ :=
        scanLoop_eq_ok_iff.1 h
      · cases binds with
        | true => simp [hregion] at hbinds
        | false => exact .inner ha hregion hbody
      · exact .loop ha hbinds hregion hbody

theorem scan_single (id : StmtId) (stmt : Stmt) :
    slot.scan (.cons id stmt first second .nil) st = slot.visit id stmt first second st := by
  rw [scan_cons]
  cases slot.visit id stmt first second st <;> rfl

theorem scan_cons_eq_ok (h : slot.scan (.cons id stmt first second rest) st = .ok st') :
    ∃ mid, slot.visit id stmt first second st = .ok mid ∧ slot.scan rest mid = .ok st' := by
  rw [scan_cons] at h
  cases hv : slot.visit id stmt first second st with
  | error e =>
    rw [hv] at h
    cases h
  | ok mid =>
    rw [hv] at h
    exact ⟨mid, rfl, h⟩

/-! ## Flags -/

@[simp] theorem writtenIn_nil : slot.writtenIn .nil = false := rfl

@[simp] theorem readIn_nil : slot.readIn .nil = false := rfl

theorem writtenIn_cons : slot.writtenIn (.cons id stmt first second rest) =
    (slot.writes stmt.kind || slot.writtenIn first || slot.writtenIn second ||
      slot.writtenIn rest) := by
  simp [writtenIn, Tree.preorder, Bool.or_assoc]

theorem readIn_cons : slot.readIn (.cons id stmt first second rest) =
    (slot.reads stmt.kind || slot.readIn first || slot.readIn second || slot.readIn rest) := by
  simp [readIn, Tree.preorder, Bool.or_assoc]

theorem blocks_of_action {k : Kind} (hb : ∀ m, slot.action k ≠ .branch m)
    (hl : ∀ m b, slot.action k ≠ .loop m b) : k.firstBlock? = none ∧ k.secondBlock? = none := by
  cases k with
  | branch => exact absurd rfl (hb _)
  | loop => exact absurd rfl (hl _ _)
  | rangeFor => exact absurd rfl (hl _ _)
  | structFor => exact absurd rfl (hl _ _)
  | _ => exact ⟨rfl, rfl⟩

theorem secondBlock?_of_action {k : Kind} (hb : ∀ m, slot.action k ≠ .branch m) :
    k.secondBlock? = none := by
  cases k with
  | branch => exact absurd rfl (hb _)
  | _ => rfl

/-- Only branches and loops have statements nested in them. -/
theorem eq_nil_of_action (ht : (Tree.cons id stmt first second rest).Shaped)
    (hb : ∀ m, slot.action stmt.kind ≠ .branch m) (hl : ∀ m b, slot.action stmt.kind ≠ .loop m b) :
    first = .nil ∧ second = .nil :=
  have h := blocks_of_action hb hl
  ⟨ht.1 h.1, ht.2.1 h.2⟩

/-- A walk over a block ends in the region it began in. -/
theorem scan_region (h : slot.scan t st = .ok st') : st'.region = st.region := by
  induction t generalizing st st' with
  | nil => exact congrArg _ (Except.ok.inj h).symm
  | cons id stmt first second rest ih₁ _ ih₃ =>
    obtain ⟨mid, hv, hr⟩ := scan_cons_eq_ok h
    refine (ih₃ hr).trans ?_
    cases visited_of_visit hv with
    | inner _ _ hbody => exact ih₁ hbody
    | branch => exact SlotState.mergeIf_region
    | loop => exact SlotState.mergeLoop_region
    | _ => rfl

/-- The flags of a state tell exactly whether the slot was written and read. -/
theorem scan_flags (ht : t.Shaped) (hn : st.region = .noStores → slot.writtenIn t = false)
    (h : slot.scan t st = .ok st') :
    st'.stored = (st.stored || slot.writtenIn t) ∧ st'.loaded = (st.loaded || slot.readIn t) := by
  induction t generalizing st st' with
  | nil =>
    obtain rfl := Except.ok.inj h
    simp
  | cons id stmt first second rest ih₁ ih₂ ih₃ =>
    obtain ⟨mid, hv, hr⟩ := scan_cons_eq_ok h
    have hmid := visited_of_visit hv
    rw [writtenIn_cons] at hn
    simp only [Bool.or_eq_false_iff] at hn
    have hregion : mid.region = st.region := scan_region ((scan_single id stmt).trans hv)
    obtain ⟨hstored, hloaded⟩ := ih₃ ht.2.2.2.2 (fun hm => (hn (hregion.symm.trans hm)).2) hr
    have hnode : mid.stored = (st.stored || slot.writes stmt.kind || slot.writtenIn first ||
          slot.writtenIn second) ∧
        mid.loaded = (st.loaded || slot.reads stmt.kind || slot.readIn first ||
          slot.readIn second) := by
      have hleaf := @eq_nil_of_action slot _ _ _ _ _ ht
      have hsecond : (∀ m, slot.action stmt.kind ≠ .branch m) → second = .nil :=
        fun hb => ht.2.1 (secondBlock?_of_action hb)
      unfold writes reads
      cases hmid with
      | pass ha =>
        obtain ⟨rfl, rfl⟩ := hleaf (by simp [ha]) (by simp [ha])
        simp [ha]
      | store ha =>
        obtain ⟨rfl, rfl⟩ := hleaf (by simp [ha]) (by simp [ha])
        simp [ha, SlotState.store]
      | atomic ha =>
        obtain ⟨rfl, rfl⟩ := hleaf (by simp [ha]) (by simp [ha])
        simp [ha, SlotState.atomic]
      | load ha =>
        obtain ⟨rfl, rfl⟩ := hleaf (by simp [ha]) (by simp [ha])
        simp [ha, SlotState.load]
      | branch ha hthen helse =>
        obtain ⟨hs₁, hl₁⟩ := ih₁ ht.2.2.1 (fun hm => (hn hm).1.1.2) hthen
        obtain ⟨hs₂, hl₂⟩ := ih₂ ht.2.2.2.1 (fun hm => (hn hm).1.2) helse
        simp only [ha, SlotState.mergeIf_stored, SlotState.mergeIf_loaded, hs₁, hs₂, hl₁, hl₂]
        grind
      | inner ha hreg hbody =>
        obtain rfl := hsecond (by simp [ha])
        obtain ⟨hs₁, hl₁⟩ := ih₁ ht.2.2.1 (fun hm => (hn hm).1.1.2) hbody
        simp [ha, hs₁, hl₁]
      | @loop binds ha hbinds hreg bodyEnd hbody =>
        obtain rfl := hsecond (by simp [ha])
        obtain ⟨hs₁, hl₁⟩ := ih₁ ht.2.2.1 (by simp [SlotState.start]) hbody
        cases binds <;> simp [ha, hs₁, hl₁, SlotState.start]
    rw [hstored, hloaded, hnode.1, hnode.2, writtenIn_cons, readIn_cons]
    grind

/-- A visit keeps the region, and marks the slot as stored where something below writes it. -/
theorem visit_flags (ht : (Tree.cons id stmt first second rest).Shaped)
    (hn : st.region = .noStores → slot.writtenIn (.cons id stmt first second rest) = false)
    (h : slot.visit id stmt first second st = .ok st') : st'.region = st.region ∧
      st'.stored = (st.stored || slot.writtenIn (.cons id stmt first second .nil)) := by
  have hs : slot.scan (.cons id stmt first second .nil) st = .ok st' :=
    (scan_single id stmt).trans h
  have ht' : (Tree.cons id stmt first second .nil).Shaped :=
    ⟨ht.1, ht.2.1, ht.2.2.1, ht.2.2.2.1, trivial⟩
  refine ⟨scan_region hs, (scan_flags ht' (fun hm => ?_) hs).1⟩
  have := hn hm
  rw [writtenIn_cons] at this ⊢
  rw [writtenIn_nil]
  grind

/-- Statements that do not write the slot leave what is known about its contents. -/
theorem scan_sameStores (ht : slot.writtenIn t = false) (h : slot.scan t st = .ok st') :
    SlotState.SameStores st st' := by
  induction t generalizing st st' with
  | nil =>
    obtain rfl := Except.ok.inj h
    exact .refl st
  | cons id stmt first second rest ih₁ ih₂ ih₃ =>
    obtain ⟨mid, hv, hr⟩ := scan_cons_eq_ok h
    simp only [writtenIn_cons, Bool.or_eq_false_iff] at ht
    refine SlotState.SameStores.trans ?_ (ih₃ ht.2 hr)
    have hw := ht.1.1.1
    unfold writes at hw
    cases visited_of_visit hv with
    | pass => exact .refl st
    | store ha => simp [ha] at hw
    | atomic ha => simp [ha] at hw
    | load => exact .load st
    | branch ha hthen helse => exact .mergeIf (ih₁ ht.1.1.2 hthen) (ih₂ ht.1.2 helse)
    | inner _ _ hbody => exact ih₁ ht.1.1.2 hbody
    | @loop binds ha hbinds hreg bodyEnd hbody =>
      cases binds with
      | true => simp [ha] at hw
      | false => exact .mergeLoop (ih₁ ht.1.1.2 hbody).stored st

/-- What is latest behind a tree was so in front of it or is in the tree. -/
theorem scan_leads (h : slot.scan t st = .ok st') : SlotState.Leads t.ids st st' := by
  induction t generalizing st st' with
  | nil =>
    obtain rfl := Except.ok.inj h
    exact .of_sameStores (.refl st)
  | cons id stmt first second rest ih₁ ih₂ ih₃ =>
    obtain ⟨mid, hv, hr⟩ := scan_cons_eq_ok h
    rw [Tree.ids_cons]
    refine .trans ?_ ((ih₃ hr).mono (by grind))
    cases visited_of_visit hv with
    | pass => exact .of_sameStores (.refl st)
    | store => exact (SlotState.Leads.storeOf st id _).mono (by grind)
    | atomic => exact (SlotState.Leads.atomicOf st id).mono (by grind)
    | load => exact .of_sameStores (.load st)
    | branch ha hthen helse =>
      exact .mergeIf ((ih₁ hthen).mono (by grind)) ((ih₂ helse).mono (by grind))
    | inner _ _ hbody => exact (ih₁ hbody).mono (by grind)
    | loop _ _ _ hbody => exact ((ih₁ hbody).mono (by grind)).mergeLoop st _

/-! ## Points -/

/-- A slot is declared by a statement of the tree, in front of the statements behind it. -/
theorem subset_of_mem_slots {t : Tree} (h : slot ∈ t.slots) :
    slot.id ∈ t.ids ∧ slot.following.preorder ⊆ t.preorder := by
  induction t with
  | nil => cases h
  | cons id stmt first second rest ih₁ ih₂ ih₃ =>
    simp only [Tree.slots] at h
    simp only [Tree.ids_cons, Tree.preorder]
    split at h
    · rcases List.mem_cons.1 h with rfl | h <;> grind
    · grind

/-- A place in a walk : the statements to come in a block, the values visible to the first
of them, and what is known about the slot. -/
structure Point where
  tree : Tree
  scope : List StmtId
  state : SlotState

/-- Where a walk goes from a point. -/
inductive Next (slot : Slot) : Point → Point → Prop where
  | after {id : StmtId} {stmt : Stmt} {first second rest : Tree} {scope : List StmtId}
    {st st' : SlotState} (h : slot.visit id stmt first second st = .ok st') :
    Next slot ⟨.cons id stmt first second rest, scope, st⟩ ⟨rest, stmt.scopeAfter id scope, st'⟩
  | first {id : StmtId} {stmt : Stmt} {first second rest : Tree} {scope : List StmtId}
    {st : SlotState} (h : slot.action stmt.kind = .branch false) :
    Next slot ⟨.cons id stmt first second rest, scope, st⟩ ⟨first, scope, st⟩
  | second {id : StmtId} {stmt : Stmt} {first second rest : Tree} {scope : List StmtId}
    {st thenState : SlotState} (h : slot.action stmt.kind = .branch false)
    (hthen : slot.scan first st = .ok thenState) :
    Next slot ⟨.cons id stmt first second rest, scope, st⟩ ⟨second, scope, st⟩
  /-- Into a loop inside another one that does not write the slot. -/
  | inner {id : StmtId} {stmt : Stmt} {first second rest : Tree} {scope : List StmtId}
    {st : SlotState} (h : slot.action stmt.kind = .loop false false)
    (hregion : st.region = .noStores) :
    Next slot ⟨.cons id stmt first second rest, scope, st⟩ ⟨first, scope, st⟩
  /-- Into the body of a loop, for the first time. -/
  | body {id : StmtId} {stmt : Stmt} {first second rest : Tree} {scope : List StmtId}
    {st : SlotState} {binds : Bool} (h : slot.action stmt.kind = .loop false binds)
    (hbinds : binds = true → st.region = .outside) (hregion : st.region ≠ .noStores) :
    Next slot ⟨.cons id stmt first second rest, scope, st⟩ ⟨first, scope, .start .mayHaveStores⟩
  /-- Into the body of a loop once more, which is known not to write the slot. -/
  | again {id : StmtId} {stmt : Stmt} {first second rest : Tree} {scope : List StmtId}
    {st bodyEnd : SlotState} {binds : Bool} (h : slot.action stmt.kind = .loop false binds)
    (hregion : st.region ≠ .noStores)
    (hbody : slot.scan first (.start .mayHaveStores) = .ok bodyEnd)
    (hrewalk : st.needsRewalk bodyEnd binds = true) :
    Next slot ⟨.cons id stmt first second rest, scope, st⟩
      ⟨first, scope, { st.mergeLoop bodyEnd binds with region := .noStores }⟩

/-- The points that a walk comes to. -/
def Reaches (slot : Slot) : Point → Point → Prop :=
  Relation.ReflTransGen slot.Next

/-- In front of the point stands a load that can be rewritten. -/
def Asks (slot : Slot) (rewrite : Rewrite) (x : Point) : Prop :=
  ∃ load stmt first second rest, x.tree = .cons load stmt first second rest ∧
    slot.action stmt.kind = .load ∧
    slot.scanLoad load stmt x.state.load = .error (.rewrite rewrite)

/-- The two rewrites of a load: a zero where nothing has been stored, and the known value where one
is. -/
theorem scanLoad_eq_rewrite {load : StmtId} {rewrite : Rewrite}
    (h : slot.scanLoad load stmt st = .error (.rewrite rewrite)) :
    ∃ type, stmt.type? = some type ∧ slot.type? = some type ∧
      stmt.kind.isRegularLoadOf slot.id = true ∧
      ((st.readsZero = true ∧ rewrite = .zeroFold load type) ∨
        st.readsZero = false ∧ ∃ v, st.forwardable? = some v ∧ rewrite = .forward load v) := by
  unfold scanLoad at h
  split at h
  · cases h
  · next type htype =>
    split at h
    · cases h
    · next hwhole =>
      obtain ⟨hslot, hregular⟩ := not_or.1 hwhole
      refine ⟨type, htype, not_not.1 hslot, by simpa using hregular, ?_⟩
      split at h
      · next hzero =>
        cases h
        exact .inl ⟨hzero, rfl⟩
      · next hzero =>
        split at h
        · next v hv =>
          cases h
          exact .inr ⟨by simpa using hzero, v, hv, rfl⟩
        · cases h

/-- A walk that asks for a rewrite has come to the load that it is about. -/
theorem reaches_of_halt {rewrite : Rewrite} (h : slot.scan t st = .error (.rewrite rewrite))
    (scope : List StmtId) : ∃ x, slot.Reaches ⟨t, scope, st⟩ x ∧ slot.Asks rewrite x := by
  induction t generalizing st scope with
  | nil => cases h
  | cons id stmt first second rest ih₁ ih₂ ih₃ =>
    -- what is found from a next point on is found from here on
    have hfrom : ∀ {y : Point}, slot.Next ⟨.cons id stmt first second rest, scope, st⟩ y →
        (∃ x, slot.Reaches y x ∧ slot.Asks rewrite x) →
        ∃ x, slot.Reaches ⟨.cons id stmt first second rest, scope, st⟩ x ∧ slot.Asks rewrite x := by
      rintro y hn ⟨x, hr, hx⟩
      exact ⟨x, .head hn hr, hx⟩
    rw [scan_cons] at h
    cases hv : slot.visit id stmt first second st with
    | ok mid =>
      rw [hv] at h
      exact hfrom (.after hv) (ih₃ h _)
    | error halt =>
      rw [hv] at h
      obtain rfl : halt = .rewrite rewrite := Except.error.inj h
      unfold visit at hv
      split at hv
      · cases hv
      · cases hv
      · cases hv
      · next ha => exact ⟨_, .refl, id, stmt, first, second, rest, rfl, ha, hv⟩
      · next masked ha =>
        cases masked with
        | true => cases hv
        | false =>
          cases hthen : slot.scan first st with
          | error e =>
            rw [hthen] at hv
            obtain rfl : e = .rewrite rewrite := Except.error.inj hv
            exact hfrom (.first ha) (ih₁ hthen scope)
          | ok thenState =>
            rw [hthen] at hv
            cases helse : slot.scan second st with
            | error e =>
              rw [helse] at hv
              obtain rfl : e = .rewrite rewrite := Except.error.inj hv
              exact hfrom (.second ha hthen) (ih₂ helse scope)
            | ok elseState =>
              rw [helse] at hv
              cases hv
      · next masked binds ha =>
        cases masked with
        | true => cases hv
        | false =>
          replace hv : slot.scanLoop id binds (slot.scan first) st = .error (.rewrite rewrite) := hv
          rw [scanLoop_eq] at hv
          split at hv
          · cases hv
          · next hviol =>
            have hbinds : binds = true → st.region = .outside := by
              intro hb
              by_contra hne
              exact hviol ⟨hb, hne⟩
            split at hv
            · next hregion =>
              cases binds with
              | true => simp [hregion] at hbinds
              | false => exact hfrom (.inner ha hregion) (ih₁ hv scope)
            · next hregion =>
              split at hv
              · next halt hbody =>
                obtain rfl : halt = .rewrite rewrite := Except.error.inj hv
                exact hfrom (.body ha hbinds hregion) (ih₁ hbody scope)
              · next bodyEnd hbody =>
                split at hv
                · next hrewalk =>
                  split at hv
                  · next halt hagain =>
                    obtain rfl : halt = .rewrite rewrite := Except.error.inj hv
                    exact hfrom (.again ha hregion hbody hrewalk) (ih₁ hagain scope)
                  · cases hv
                · cases hv

end Slot

end KernelIR
