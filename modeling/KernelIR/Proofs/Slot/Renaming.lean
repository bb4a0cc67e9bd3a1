import KernelIR.Proofs.Execution.Rewrite

/-!
# Renaming

What the analysis of a slot finds does not depend on the numbers of statements. If the statements of
a tree get other numbers, and different ones keep different numbers, the analysis finds the same
under the new numbers (`Slot.analyze_rename`), and so does a whole sweep (`Context.sweep_rename`).

One value in the place of another is a renaming, too (`Kind.replace`). It need not keep numbers
apart, but it does not take a slot for another value (`Slot.action_rename`).
-/

namespace KernelIR

namespace Kind

variable (f : StmtId → StmtId) (k : Kind)

@[simp] theorem isLoad_rename : (k.rename f).isLoad = k.isLoad := by
  cases k <;> rfl

@[simp] theorem isStore_rename : (k.rename f).isStore = k.isStore := by
  cases k <;> rfl

@[simp] theorem isAtomic_rename : (k.rename f).isAtomic = k.isAtomic := by
  cases k <;> rfl

@[simp] theorem isAlloca_rename : (k.rename f).isAlloca = k.isAlloca := by
  cases k <;> rfl

@[simp] theorem isAccess_rename : (k.rename f).isAccess = k.isAccess := by
  cases k <;> rfl

/-- The operands get other numbers, and keep their order. -/
@[simp] theorem operands_rename : (k.rename f).operands = k.operands.map f := by
  rw [rename, operands_mapOperands]
  exact List.ext_getElem? fun i => by simp

variable {f k} in
/-- Operands that keep their numbers leave the kind as it is. -/
theorem rename_eq_self (h : ∀ v ∈ k.operands, f v = v) : k.rename f = k :=
  (mapOperands_congr fun _ v hv => h v (List.mem_of_getElem? hv)).trans (k.rename_id)

/-- A value that is replaced behind a renaming is one renaming. -/
theorem replace_rename (old new : StmtId) :
    (k.rename f).replace old new = k.rename fun v => if f v = old then new else f v :=
  mapOperands_mapOperands _ _ k

end Kind

/-! ## Names of slots -/

section Names

variable {f : StmtId → StmtId}

/-- What a statement is to a walk, under other names. -/
def Slot.Action.rename (f : StmtId → StmtId) : Slot.Action → Slot.Action
  | store value => store (f value)
  | a => a

variable {k : Kind}

/-- A load of a whole slot stays one, of the slot under its other number. -/
theorem Kind.isRegularLoadOf_rename {s s' : StmtId} (hs : ∀ v, f v = s' ↔ v = s) :
    (k.rename f).isRegularLoadOf s' = k.isRegularLoadOf s := by
  cases k with
  | load lanes =>
    rw [rename_load, isRegularLoadOf, isRegularLoadOf, List.length_map, Bool.eq_iff_iff, beq_iff_eq,
      beq_iff_eq, List.ext_getElem?_iff, List.ext_getElem?_iff]
    refine forall_congr' fun i => ?_
    by_cases hi : i < lanes.length
    · rw [List.getElem?_map, List.getElem?_map, List.getElem?_map, List.getElem?_eq_getElem hi]
      cases lanes[i]
      simp [hi, hs]
    · simp [Nat.not_lt.1 hi]
  | _ => rfl

variable {slot slot' : Slot} (hs : ∀ v, f v = slot'.id ↔ v = slot.id)
include hs

namespace Slot

/-- A statement stays to the walk what it is, if only the slot gets the number of the slot. -/
theorem action_rename : slot'.action (k.rename f) = (slot.action k).rename f := by
  have hbeq : ∀ v, (f v == slot'.id) = (v == slot.id) := fun v => by
    rw [Bool.eq_iff_iff, beq_iff_eq, beq_iff_eq, hs v]
  cases k with
  | store s v =>
    simp only [Kind.rename, Kind.mapOperands, action, hs]
    split <;> rfl
  | atomic op s v =>
    simp only [Kind.rename, Kind.mapOperands, action, hs]
    split <;> rfl
  | load lanes =>
    simp only [Kind.rename_load, action, List.any_map, Function.comp_def, hbeq]
    split <;> rfl
  | rangeFor => exact congrArg (Action.loop false) (hbeq _)
  | structFor counters snode body =>
    rw [Kind.rename_structFor]
    refine congrArg (Action.loop false) ?_
    rw [Bool.eq_iff_iff, List.contains_iff_mem, List.contains_iff_mem, List.mem_map]
    constructor
    · rintro ⟨v, hv, heq⟩
      exact (hs v).1 heq ▸ hv
    · exact fun h => ⟨_, h, (hs _).2 rfl⟩
  | branch cond trueMask falseMask _ _ => cases trueMask <;> cases falseMask <;> rfl
  | loop mask _ => cases mask <;> rfl
  | _ => rfl

/-- It writes the slot as before. -/
theorem writes_rename : slot'.writes (k.rename f) = slot.writes k := by
  unfold writes
  rw [action_rename hs]
  cases slot.action k <;> rfl

/-- It reads the slot as before. -/
theorem reads_rename : slot'.reads (k.rename f) = slot.reads k := by
  unfold reads
  rw [action_rename hs]
  cases slot.action k <;> rfl

end Slot

end Names

/-! ## What the analysis works with, under other names -/

/-- Gives the statements of a tree other numbers. -/
def Tree.rename (f : StmtId → StmtId) : Tree → Tree
  | nil => nil
  | cons id stmt first second rest =>
    cons (f id) (stmt.mapKind (Kind.rename f)) (first.rename f) (second.rename f) (rest.rename f)

def Slot.rename (f : StmtId → StmtId) (slot : Slot) : Slot :=
  ⟨f slot.id, slot.type?, slot.following.rename f⟩

/-- Other numbers for the latest statements, and other values. -/
def SlotState.relabel (f g : StmtId → StmtId) (st : SlotState) : SlotState :=
  { st with
    lastStore? := st.lastStore?.map f
    lastValue? := st.lastValue?.map g
    lastAtomic? := st.lastAtomic?.map f }

def SlotState.rename (f : StmtId → StmtId) (st : SlotState) : SlotState :=
  { st with
    lastStore? := st.lastStore?.map f
    lastValue? := st.lastValue?.map f
    lastAtomic? := st.lastAtomic?.map f }

def PassError.rename (f : StmtId → StmtId) : PassError → PassError
  | maskedIf stmt => maskedIf (f stmt)
  | maskedWhile stmt => maskedWhile (f stmt)
  | nestedLoopVar slot stmt => nestedLoopVar (f slot) (f stmt)

def Rewrite.rename (f : StmtId → StmtId) : Rewrite → Rewrite
  | zeroFold load type => zeroFold (f load) type
  | forward load value => forward (f load) (f value)
  | deadStore store => deadStore (f store)
  | deadAtomic atomic => deadAtomic (f atomic)
  | deadAlloca => deadAlloca

def Event.rename (f : StmtId → StmtId) : Event → Event
  | analyzing slot => analyzing (f slot)
  | zeroFolded slot load zero => zeroFolded (f slot) (f load) (f zero)
  | forwarded slot load value => forwarded (f slot) (f load) (f value)
  | removedStore slot store => removedStore (f slot) (f store)
  | removedAtomic slot atomic => removedAtomic (f slot) (f atomic)
  | removedAlloca slot => removedAlloca (f slot)
  | restarting rewrite sweep => restarting (rewrite.rename f) sweep
  | event => event

def Halt.rename (f : StmtId → StmtId) : Halt → Halt
  | rewrite r => rewrite (r.rename f)
  | violation error => violation (error.rename f)

def Sweep.rename (f : StmtId → StmtId) (sweep : Sweep) : Sweep :=
  ⟨sweep.finished.map f, sweep.events.map (Event.rename f),
    sweep.halt?.map fun p => (f p.1, p.2.rename f)⟩

def Progress.rename (f : StmtId → StmtId) (p : Progress) : Progress :=
  ⟨p.finished.map f, p.events.map (Event.rename f), p.stats⟩

def Outcome.rename (f : StmtId → StmtId) (outcome : Outcome) : Outcome :=
  ⟨outcome.events.map (Event.rename f), outcome.result.mapError (PassError.rename f)⟩

/-- What a walk comes to, under other names. -/
def Slot.renamed (f : StmtId → StmtId) : Except Halt SlotState → Except Halt SlotState
  | .ok st => .ok (st.rename f)
  | .error halt => .error (halt.rename f)

namespace Tree

variable {f : StmtId → StmtId}

/-- The order of the statements is kept. -/
theorem preorder_rename (t : Tree) :
    (t.rename f).preorder = t.preorder.map fun p => (f p.1, p.2.mapKind (Kind.rename f)) := by
  induction t with
  | nil => rfl
  | cons id stmt first second rest ih₁ ih₂ ih₃ => simp [rename, preorder, ih₁, ih₂, ih₃]

/-- So are the slots, with what follows each of them. -/
theorem slots_rename (t : Tree) : (t.rename f).slots = t.slots.map (Slot.rename f) := by
  induction t with
  | nil => rfl
  | cons id stmt first second rest ih₁ ih₂ ih₃ =>
    simp only [rename, slots, ih₁, ih₂, ih₃, Stmt.mapKind, Kind.isAlloca_rename]
    split <;> simp [Slot.rename]

/-- What is visible to a statement is so under the other numbers. -/
theorem sites_rename (t : Tree) (scope : List StmtId) :
    (t.rename f).sites (scope.map f) = (t.sites scope).map fun p =>
      ⟨f p.id, p.stmt.mapKind (Kind.rename f), p.scope.map f⟩ := by
  have hafter : ∀ (id : StmtId) (stmt : Stmt) (scope : List StmtId),
      (stmt.mapKind (Kind.rename f)).scopeAfter (f id) (scope.map f) =
        (stmt.scopeAfter id scope).map f := fun id stmt scope => by
    simp only [Stmt.scopeAfter, Stmt.mapKind, Kind.rename, Kind.hasValue_mapOperands]
    split <;> rfl
  induction t generalizing scope with
  | nil => rfl
  | cons id stmt first second rest ih₁ ih₂ ih₃ => simp [rename, sites, hafter, ih₁, ih₂, ih₃]

end Tree

namespace SlotState

variable {f g : StmtId → StmtId} (before thenState elseState body : SlotState)

/-- A load keeps the labels. -/
theorem load_relabel (st : SlotState) : (st.relabel f g).load = st.load.relabel f g := by
  simp [load, relabel]

/-- After a loop there are the other labels, too. -/
theorem mergeLoop_relabel (binds : Bool) : (before.relabel f g).mergeLoop (body.relabel f g) binds =
    (before.mergeLoop body binds).relabel f g := by
  unfold mergeLoop
  cases binds with
  | true => rfl
  | false =>
    cases hstored : body.stored with
    | true => simp [relabel, hstored]
    | false =>
      cases hloaded : body.loaded with
      | true => simp [relabel, SlotState.load, hstored, hloaded]
      | false => simp [relabel, hstored, hloaded]

variable (hf : f.Injective)
include hf

/-- A branch brings in the same store under its other number. -/
theorem newStore?_relabel : newStore? (before.relabel f g) (thenState.relabel f g) =
    (newStore? before thenState).map f := by
  simp only [newStore?, SlotState.relabel, (Option.map_injective hf).ne_iff]
  split <;> rfl

/-- A branch brings in the same atomic operation under its other number. -/
theorem newAtomic?_relabel : newAtomic? (before.relabel f g) (thenState.relabel f g) =
    (newAtomic? before thenState).map f := by
  simp only [newAtomic?, SlotState.relabel, (Option.map_injective hf).ne_iff]
  split <;> rfl

/-- A join of atomic operations under other numbers. -/
theorem mergeAtomics_relabel (merged : SlotState) :
    mergeAtomics (before.relabel f g) (thenState.relabel f g) (elseState.relabel f g)
        (merged.relabel f g) =
      (mergeAtomics before thenState elseState merged).relabel f g := by
  unfold mergeAtomics
  rw [newAtomic?_relabel _ _ hf, newAtomic?_relabel _ _ hf, ← Option.map_or]
  simp only [SlotState.relabel, (Option.map_injective hf).eq_iff, Option.isSome_map]
  split <;> rfl

variable (hg : thenState.storeHolds = true → elseState.storeHolds = true →
    thenState.lastValue?.map g = elseState.lastValue?.map g →
      thenState.lastValue? = elseState.lastValue?)
include hg

/-- A join of stores under other labels. The values are compared only if both of them hold. -/
theorem mergeStores_relabel (merged : SlotState) :
    mergeStores (before.relabel f g) (thenState.relabel f g) (elseState.relabel f g)
        (merged.relabel f g) =
      (mergeStores before thenState elseState merged).relabel f g := by
  have hbeq : ∀ a b : Option StmtId, (a.map f == b.map f) = (a == b) := fun a b => by
    rw [Bool.eq_iff_iff, beq_iff_eq, beq_iff_eq, (Option.map_injective hf).eq_iff]
  have hsame : (thenState.storeHolds && elseState.storeHolds &&
        (thenState.lastStore? == elseState.lastStore? ||
          thenState.lastValue?.map g == elseState.lastValue?.map g)) =
      (thenState.storeHolds && elseState.storeHolds &&
        (thenState.lastStore? == elseState.lastStore? ||
          thenState.lastValue? == elseState.lastValue?)) := by
    rw [Bool.eq_iff_iff]
    simp only [Bool.and_eq_true, Bool.or_eq_true, beq_iff_eq]
    exact and_congr_right fun hholds =>
      or_congr_right ⟨hg hholds.1 hholds.2, congrArg (Option.map g)⟩
  unfold mergeStores
  rw [newStore?_relabel _ _ hf, newStore?_relabel _ _ hf, ← Option.map_or]
  simp only [SlotState.relabel, hbeq, hsame]
  split <;> split <;> rfl

/-- A join of branches under other labels, if these do not make the values of both branches
equal. -/
theorem mergeIf_relabel :
    (before.relabel f g).mergeIf (thenState.relabel f g) (elseState.relabel f g) =
      (before.mergeIf thenState elseState).relabel f g := by
  unfold mergeIf
  rw [← mergeAtomics_relabel _ _ _ hf, apply_ite (SlotState.relabel f g),
    ← mergeStores_relabel _ _ _ hf hg]
  rfl

end SlotState

section Injective

variable {f : StmtId → StmtId} (hf : f.Injective)
include hf

namespace SlotState

variable (before thenState elseState body : SlotState)

omit hf in
theorem load_rename (st : SlotState) : (st.rename f).load = st.load.rename f :=
  load_relabel st

theorem mergeIf_rename : (before.rename f).mergeIf (thenState.rename f) (elseState.rename f) =
    (before.mergeIf thenState elseState).rename f :=
  mergeIf_relabel before thenState elseState hf fun _ _ h => Option.map_injective hf h

omit hf in
theorem mergeLoop_rename (binds : Bool) : (before.rename f).mergeLoop (body.rename f) binds =
    (before.mergeLoop body binds).rename f :=
  mergeLoop_relabel before body binds

end SlotState

namespace Slot

variable (slot : Slot)

/-- A load is passed, or asks for the same rewrite under the other numbers. -/
theorem scanLoad_rename (load : StmtId) (stmt : Stmt) (st : SlotState) :
    (slot.rename f).scanLoad (f load) (stmt.mapKind (Kind.rename f)) (st.rename f) =
      renamed f (slot.scanLoad load stmt st) := by
  have hregular : (stmt.kind.rename f).isRegularLoadOf (f slot.id) =
      stmt.kind.isRegularLoadOf slot.id := Kind.isRegularLoadOf_rename fun v => hf.eq_iff
  have hforward : (st.rename f).forwardable? = st.forwardable?.map f :=
    (apply_ite (Option.map f) (st.storeHolds = true) st.lastValue? none).symm
  unfold scanLoad
  rw [hforward, Stmt.mapKind, Slot.rename, hregular]
  cases stmt.type? with
  | none => rfl
  | some type =>
    simp only [show (st.rename f).readsZero = st.readsZero from rfl]
    split
    · rfl
    · split
      · rfl
      · cases st.forwardable? <;> rfl

omit hf in
/-- A loop is walked through the same way, if its body is. -/
theorem scanLoop_rename (loop : StmtId) (binds : Bool)
    {body body' : SlotState → Except Halt SlotState}
    (hbody : ∀ st, body' (st.rename f) = renamed f (body st)) (st : SlotState) :
    (slot.rename f).scanLoop (f loop) binds body' (st.rename f) =
      renamed f (slot.scanLoop loop binds body st) := by
  have hstart : body' (.start .mayHaveStores) = renamed f (body (.start .mayHaveStores)) :=
    hbody (.start .mayHaveStores)
  rw [scanLoop_eq, scanLoop_eq, hstart]
  simp only [show (st.rename f).region = st.region from rfl, hbody]
  split
  · rfl
  · split
    · rfl
    · cases body (.start .mayHaveStores) with
      | error halt => rfl
      | ok bodyEnd =>
        have hagain : body' { (st.mergeLoop bodyEnd binds).rename f with region := .noStores } =
            renamed f (body { st.mergeLoop bodyEnd binds with region := .noStores }) :=
          hbody { st.mergeLoop bodyEnd binds with region := .noStores }
        simp only [renamed, SlotState.mergeLoop_rename,
          show (st.rename f).needsRewalk (bodyEnd.rename f) binds =
            st.needsRewalk bodyEnd binds from rfl]
        split
        · rw [hagain]
          cases body { st.mergeLoop bodyEnd binds with region := .noStores } <;> rfl
        · rfl

/-- A walk under other names goes the same way. -/
theorem scan_rename (t : Tree) (st : SlotState) :
    (slot.rename f).scan (t.rename f) (st.rename f) = renamed f (slot.scan t st) := by
  induction t generalizing st with
  | nil => rfl
  | cons id stmt first second rest ih₁ ih₂ ih₃ =>
    have hvisit : (slot.rename f).visit (f id) (stmt.mapKind (Kind.rename f)) (first.rename f)
        (second.rename f) (st.rename f) = renamed f (slot.visit id stmt first second st) := by
      have haction : (slot.rename f).action (stmt.kind.rename f) =
        (slot.action stmt.kind).rename f :=
        action_rename fun v => hf.eq_iff
      unfold visit
      rw [show (stmt.mapKind (Kind.rename f)).kind = stmt.kind.rename f from rfl, haction]
      cases slot.action stmt.kind with
      | pass | store value | atomic => rfl
      | load =>
        dsimp only [Action.rename]
        rw [SlotState.load_rename, slot.scanLoad_rename hf]
      | branch masked =>
        cases masked with
        | true => rfl
        | false =>
          simp only [Action.rename, Bool.false_eq_true, if_false, ih₁, ih₂]
          cases slot.scan first st with
          | error halt => rfl
          | ok thenState =>
            cases slot.scan second st with
            | error halt => rfl
            | ok elseState => exact congrArg Except.ok (SlotState.mergeIf_rename hf _ _ _)
      | loop masked binds =>
        cases masked with
        | true => rfl
        | false => exact slot.scanLoop_rename id binds ih₁ st
    rw [Tree.rename, scan_cons, scan_cons, hvisit]
    cases slot.visit id stmt first second st with
    | error halt => rfl
    | ok mid => exact ih₃ mid

/-- A statement is used as before. -/
theorem isTaken_rename (root : Tree) (s : StmtId) :
    isTaken (root.rename f) (f s) = isTaken root s := by
  rw [Bool.eq_iff_iff]
  simp [isTaken, Tree.find_eq_filter, Tree.preorder_rename, Stmt.mapKind, hf.eq_iff]

/-- At the end of a walk the same is left to take out. -/
theorem leftover?_rename (root : Tree) (used : Bool) (st : SlotState) :
    leftover? (root.rename f) used (st.rename f) = (leftover? root used st).map
      (Rewrite.rename f) := by
  have hstore : deadStore? (st.rename f) = (deadStore? st).map (Rewrite.rename f) := by
    obtain ⟨_, _, lastStore?, _, _, storeRead, _, _, _⟩ := st
    cases storeRead <;> cases lastStore? <;> rfl
  have hatomic : deadAtomic? (root.rename f) (st.rename f) =
      (deadAtomic? root st).map (Rewrite.rename f) := by
    simp only [deadAtomic?, SlotState.rename]
    cases st.lastAtomic? with
    | none => rfl
    | some atomic =>
      simp only [Option.map_some, isTaken_rename hf]
      cases st.atomicUnread && !isTaken root atomic <;> rfl
  have halloca : deadAlloca? used (st.rename f) = (deadAlloca? used st).map (Rewrite.rename f) := by
    obtain ⟨stored, loaded, _, _, _, _, _, _, _⟩ := st
    cases stored <;> cases loaded <;> cases used <;> rfl
  rw [leftover?, leftover?, hstore, hatomic, halloca, Option.map_or, Option.map_or]

/-- The analysis of a slot finds the same under other names. -/
theorem analyze_rename (root : Tree) (used : Bool) :
    (slot.rename f).analyze (root.rename f) used =
      (slot.analyze root used).mapError (Halt.rename f) := by
  have hscan := slot.scan_rename hf slot.following (.start .outside)
  unfold analyze
  rw [show (slot.rename f).scan (slot.rename f).following (.start .outside) = _ from hscan]
  cases slot.scan slot.following (.start .outside) with
  | error halt => rfl
  | ok st =>
    simp only [bind, Except.bind, renamed, leftover?_rename hf]
    cases leftover? root used st <;> rfl

end Slot

/-- A sweep goes the same way under other names. Of the context it only asks which slots are
used. -/
theorem Context.sweep_rename {c c' : Context} (t : Tree) {slots : List Slot}
    (h : ∀ slot ∈ slots, c.chain slot.id = [] ↔ c'.chain (f slot.id) = [])
    (finished : List StmtId) :
    c'.sweep (t.rename f) (slots.map (Slot.rename f)) (finished.map f) =
      (c.sweep t slots finished).rename f := by
  induction slots generalizing finished with
  | nil => rfl
  | cons slot rest ih =>
    have hrest := ih fun q hq => h q (List.mem_cons_of_mem slot hq)
    have hused : decide (c'.chain (f slot.id) ≠ []) = decide (c.chain slot.id ≠ []) :=
      decide_eq_decide.2 (not_congr (h slot List.mem_cons_self)).symm
    have hmem : f slot.id ∈ finished.map f ↔ slot.id ∈ finished := List.mem_map_of_injective hf
    rw [List.map_cons]
    unfold sweep
    simp only [show (slot.rename f).id = f slot.id from rfl, hmem, hused,
      slot.analyze_rename hf, hrest]
    split
    · rfl
    · cases slot.analyze t (c.chain slot.id ≠ []) with
      | error halt => rfl
      | ok =>
        have hnext := hrest (slot.id :: finished)
        rw [List.map_cons] at hnext
        simp only [hnext]
        rfl

end Injective

/-! ## The same names -/

/-- Statements that keep their numbers are the same tree. -/
@[simp] theorem Tree.rename_id (t : Tree) : t.rename id = t := by
  induction t with
  | nil => rfl
  | cons id stmt first second rest ih₁ ih₂ ih₃ => simp [rename, ih₁, ih₂, ih₃, Stmt.mapKind]

@[simp] theorem Rewrite.rename_id (rewrite : Rewrite) : rewrite.rename id = rewrite := by
  cases rewrite <;> rfl

@[simp] theorem Event.rename_id (event : Event) : event.rename id = event := by
  cases event <;> simp [rename]

@[simp] theorem Outcome.rename_id (outcome : Outcome) : outcome.rename id = outcome := by
  have hevents : outcome.events.map (Event.rename id) = outcome.events := by
    simp [show Event.rename id = id from funext Event.rename_id]
  obtain ⟨events, error | stats⟩ := outcome
  · cases error <;> exact congrArg (Outcome.mk · _) hevents
  · exact congrArg (Outcome.mk · _) hevents

end KernelIR
