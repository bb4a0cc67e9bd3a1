import KernelIR.Proofs.Execution
import KernelIR.Proofs.Slot.Walk

/-!
# What an execution leaves alone

Laws of executions that hold for every tree. With a larger budget an execution shows the
same and more (`Tree.run_extends`), and what every statement of a tree keeps, with the
values visible to it, holds whenever a statement is reached and at the end
(`Tree.run_scoped`).

From the second law come the frames : the values of statements outside the tree stay
(`Tree.value_run`), and so do the contents of a slot that is neither declared nor written
in it (`Tree.cell?_run`). Only statements of the tree are reached in it
(`Tree.mem_preorder_of_reached`), and what a slot holds was written by one of them or was there
before (`Tree.writer_run`).
-/

namespace KernelIR

variable {V : Type}

namespace Memory

variable (m : Memory V) (id s t : StmtId) (value contents : List V)

@[simp] theorem value_bind : (m.bind id value).value s = if s = id then value else m.value s := by
  simp [bind, Function.update_apply]

@[simp] theorem cell?_bind : (m.bind id value).cell? = m.cell? := rfl

@[simp] theorem value_declare : (m.declare id contents).value = m.value := rfl

@[simp] theorem cell?_declare : (m.declare id contents).cell? s =
    if s = id then some ⟨contents, id⟩ else m.cell? s := by
  simp [declare, Function.update_apply]

@[simp] theorem value_write : (m.write id t contents).value = m.value := rfl

theorem cell?_write : (m.write id t contents).cell? s =
    if s = t then (m.cell? t).map fun _ => ⟨contents, id⟩ else m.cell? s := by
  simp [write, Function.update_apply]

/-- A write leaves a slot as it is, or the slot has what was written. -/
theorem cell?_write_cases : (m.write id t contents).cell? s = m.cell? s ∨
    s = t ∧ (m.cell? s).isSome = true ∧ (m.write id t contents).cell? s = some ⟨contents, id⟩ := by
  rw [cell?_write]
  by_cases h : s = t
  · subst h
    cases hc : m.cell? s <;> simp
  · simp [h]

@[simp] theorem contents_bind : (m.bind id value).contents = m.contents := rfl

end Memory

namespace Result

variable {r : Result V} {f : Memory V → Result V}

theorem andThen_normal (h : r.signal = .normal) : r.andThen f =
    ⟨(f r.memory).signal, (f r.memory).memory, r.observations ++ (f r.memory).observations⟩ := by
  simp [andThen, h]

theorem andThen_of_ne (h : r.signal ≠ .normal) : r.andThen f = r := by
  unfold andThen
  split
  · next hn => exact absurd hn h
  · rfl

/-- What is observed of two parts is observed of one of them, of the second only if the first goes
on. -/
theorem mem_andThen {o : Observation V} : o ∈ (r.andThen f).observations ↔
    o ∈ r.observations ∨ r.signal = .normal ∧ o ∈ (f r.memory).observations := by
  by_cases h : r.signal = .normal
  · simp [andThen_normal h, h]
  · simp [andThen_of_ne h, h]

theorem reach_andThen (id : StmtId) (stmt : Stmt) (m : Memory V) : (reach id stmt m).andThen f =
    ⟨(f m).signal, (f m).memory, .reached id stmt m :: (f m).observations⟩ := rfl

end Result

theorem repeatBody_of_left {body : Memory V → Result V} {m : Memory V}
    (h : (body m).signal = .left) (n : Nat) :
    repeatBody body (n + 1) m = { body m with signal := .normal } := by
  rw [repeatBody]
  simp only [h]

/-- A loop whose body does not leave it goes on behind the body. -/
theorem repeatBody_of_ne {body : Memory V → Result V} {m : Memory V}
    (h : (body m).signal ≠ .left) (n : Nat) :
    repeatBody body (n + 1) m = (body m).andThen (repeatBody body n) := by
  rw [repeatBody]
  split
  · next heq => exact absurd heq h
  · rfl

/-! ## Budgets -/

/-- The second execution goes on where the first may have been cut off. -/
def Result.Extends (r r' : Result V) : Prop :=
  r = r' ∨ r.signal = .cut ∧ r.observations <+: r'.observations

namespace Result.Extends

variable {r r' : Result V} {f f' : Memory V → Result V}

/-- Parts that are extended are extended in sequence. -/
theorem andThen (h : r.Extends r') (hf : ∀ m, (f m).Extends (f' m)) :
    (r.andThen f).Extends (r'.andThen f') := by
  rcases h with rfl | ⟨hcut, hpre⟩
  · by_cases hn : r.signal = .normal
    · rw [andThen_normal hn, andThen_normal hn]
      rcases hf r.memory with heq | ⟨hcut, hpre⟩
      · exact .inl (by rw [heq])
      · exact .inr ⟨hcut, (List.prefix_append_right_inj _).2 hpre⟩
    · rw [andThen_of_ne hn, andThen_of_ne hn]
      exact .inl rfl
  · rw [andThen_of_ne (by simp [hcut])]
    refine .inr ⟨hcut, hpre.trans ?_⟩
    by_cases hn : r'.signal = .normal
    · rw [andThen_normal hn]
      exact List.prefix_append _ _
    · exact (andThen_of_ne hn).symm ▸ List.prefix_refl _

/-- More iterations extend a loop. -/
theorem repeatBody (hf : ∀ m, (f m).Extends (f' m)) {n n' : Nat} (hn : n ≤ n') (m : Memory V) :
    (KernelIR.repeatBody f n m).Extends (KernelIR.repeatBody f' n' m) := by
  induction n generalizing n' m with
  | zero => exact .inr ⟨rfl, List.nil_prefix⟩
  | succ n ih =>
    obtain ⟨n', rfl⟩ : ∃ k, n' = k + 1 := ⟨n' - 1, by omega⟩
    have hrest := (hf m).andThen fun m => ih (by omega : n ≤ n') m
    rcases hf m with heq | ⟨hcut, hpre⟩
    · by_cases hleft : (f m).signal = .left
      · rw [repeatBody_of_left hleft, repeatBody_of_left (heq ▸ hleft), heq]
        exact .inl rfl
      · rwa [repeatBody_of_ne hleft, repeatBody_of_ne (heq ▸ hleft)]
    · have hne : (f m).signal ≠ .left := by simp [hcut]
      by_cases hleft : (f' m).signal = .left
      · rw [repeatBody_of_ne hne, repeatBody_of_left hleft, andThen_of_ne (by simp [hcut])]
        exact .inr ⟨hcut, hpre⟩
      · rwa [repeatBody_of_ne hne, repeatBody_of_ne hleft]

theorem countBody (hf : ∀ m, (f m).Extends (f' m)) (counts : List (Memory V → Memory V))
    (m : Memory V) : (KernelIR.countBody f counts m).Extends (KernelIR.countBody f' counts m) := by
  induction counts generalizing m with
  | nil => exact .inl rfl
  | cons count rest ih => exact (hf _).andThen ih

end Result.Extends

/-- With a larger budget an execution is the same, or it goes on where it was cut off. -/
theorem Tree.run_extends (I : Interpretation V) {budget budget' : Nat} (h : budget ≤ budget')
    (t : Tree) (m : Memory V) : (t.run I budget m).Extends (t.run I budget' m) := by
  induction t generalizing m with
  | nil => exact .inl rfl
  | cons id stmt first second rest ih₁ ih₂ ih₃ =>
    refine Result.Extends.andThen (Result.Extends.andThen (.inl rfl) fun m => ?_) ih₃
    unfold Interpretation.node
    split
    · split
      · exact ih₁ m
      · exact ih₂ m
    · exact .repeatBody ih₁ h m
    · exact .inl rfl
    · exact .inl rfl
    · exact .countBody ih₁ _ m
    · exact .countBody ih₁ _ m
    · exact .inl rfl

/-! ## What is kept -/

/-- If all that shows is as `G` says, the execution leads from where `P` holds to where it
holds, and to where `Q` holds if it does not end early, and `O` holds of all that shows. -/
def Keeps (G : Observation V → Prop) (P Q : Memory V → Prop) (O : Observation V → Prop)
    (f : Memory V → Result V) : Prop :=
  ∀ m, P m → (∀ o ∈ (f m).observations, G o) →
    P (f m).memory ∧ ((f m).signal = .normal → Q (f m).memory) ∧ ∀ o ∈ (f m).observations, O o

namespace Keeps

variable {G O : Observation V → Prop} {P Q Q' : Memory V → Prop} {f g : Memory V → Result V}

theorem andThen (hf : Keeps G P Q O f) (hg : Keeps G Q Q' O g) (hQ : ∀ m, Q m → P m) :
    Keeps G P Q' O fun m => (f m).andThen g := by
  intro m hm hG
  dsimp only at hG ⊢
  have hGf : ∀ o ∈ (f m).observations, G o := fun o ho => hG o (Result.mem_andThen.2 (.inl ho))
  obtain ⟨hp, hq, ho⟩ := hf m hm hGf
  by_cases hn : (f m).signal = .normal
  · obtain ⟨hp', hq', ho'⟩ := hg _ (hq hn) fun o ho =>
      hG o (Result.mem_andThen.2 (.inr ⟨hn, ho⟩))
    rw [Result.andThen_normal hn]
    exact ⟨hQ _ hp', hq', fun o hm => (List.mem_append.1 hm).elim (ho o) (ho' o)⟩
  · rw [Result.andThen_of_ne hn]
    exact ⟨hp, fun h => absurd h hn, ho⟩

theorem imp {O' : Observation V → Prop} (hf : Keeps G P Q O f) (hO : ∀ o, O o → O' o) :
    Keeps G P Q O' f :=
  fun m hm hG => ⟨(hf m hm hG).1, (hf m hm hG).2.1, fun o ho => hO o ((hf m hm hG).2.2 o ho)⟩

theorem weaken (hf : Keeps G P Q O f) (hQ : ∀ m, Q m → Q' m) : Keeps G P Q' O f :=
  fun m hm hG => ⟨(hf m hm hG).1, fun hn => hQ _ ((hf m hm hG).2.1 hn), (hf m hm hG).2.2⟩

theorem repeatBody (hf : Keeps G P P O f) (n : Nat) : Keeps G P P O (KernelIR.repeatBody f n) := by
  induction n with
  | zero => exact fun m hm _ => ⟨hm, fun _ => hm, by simp [KernelIR.repeatBody]⟩
  | succ n ih =>
    intro m hm hG
    by_cases hleft : (f m).signal = .left
    · rw [repeatBody_of_left hleft] at hG ⊢
      obtain ⟨hp, -, ho⟩ := hf m hm hG
      exact ⟨hp, fun _ => hp, ho⟩
    · rw [repeatBody_of_ne hleft] at hG ⊢
      exact (hf.andThen ih fun _ hm => hm) m hm hG

theorem countBody (hf : Keeps G P P O f) {counts : List (Memory V → Memory V)}
    (hc : ∀ count ∈ counts, ∀ m, P m → P (count m)) :
    Keeps G P P O (KernelIR.countBody f counts) := by
  induction counts with
  | nil => exact fun m hm _ => ⟨hm, fun _ => hm, by simp [KernelIR.countBody]⟩
  | cons count rest ih =>
    intro m hm hG
    have hbody : Keeps G P P O (KernelIR.countBody f rest) := ih fun c hcm => hc c (by simp [hcm])
    exact (Keeps.andThen hf hbody fun _ hm => hm) (count m) (hc count (by simp) m hm) hG

end Keeps

/-- The slots that a loop writes before each iteration. -/
def Kind.counters : Kind → List StmtId
  | .rangeFor counter _ _ _ => [counter]
  | .structFor counters _ _ => counters
  | _ => []

theorem Memory.writeAll_keeps {P : Memory V → Prop} {id : StmtId} {slots : List StmtId}
    (h : ∀ s ∈ slots, ∀ contents m, P m → P (m.write id s contents)) (tuple : Nat → List V)
    {m : Memory V} (hm : P m) : P (m.writeAll id slots tuple) := by
  unfold writeAll
  have hfold : ∀ (l : List (StmtId × Nat)) (m : Memory V), (∀ p ∈ l, p.1 ∈ slots) → P m →
      P (l.foldl (fun m p => m.write id p.1 (tuple p.2)) m) := by
    intro l
    induction l with
    | nil => exact fun m _ hm => hm
    | cons p l ih =>
      intro m hl hm
      exact ih _ (fun q hq => hl q (by simp [hq])) (h _ (hl p (by simp)) _ m hm)
  exact hfold _ m (fun p hp => List.fst_mem_of_mem_zipIdx hp) hm

namespace Interpretation

variable {I : Interpretation V} {id : StmtId} {stmt : Stmt} {first second : Memory V → Result V}

theorem node_of_hasValue (h : stmt.kind.hasValue = true) (budget : Nat) (m : Memory V) :
    I.node budget id stmt first second m = ⟨.normal, I.exec id stmt m, []⟩ := by
  unfold node
  cases hk : stmt.kind <;> simp_all [Kind.hasValue]

/-- What the parts of a statement keep is kept by executing it. -/
theorem node_keeps {G O : Observation V → Prop} {P : Memory V → Prop} {m : Memory V}
    (hfirst : Keeps G P P O first) (hsecond : Keeps G P P O second)
    (hprint : ∀ value, O (.printed value))
    (hcount : ∀ s ∈ stmt.kind.counters, ∀ contents m, P m → P (m.write id s contents)) (hm : P m)
    (hexec : P (I.exec id stmt m)) {budget : Nat}
    (hG : ∀ o ∈ (I.node budget id stmt first second m).observations, G o) :
    P (I.node budget id stmt first second m).memory ∧
      ∀ o ∈ (I.node budget id stmt first second m).observations, O o := by
  have hkept : ∀ {f : Memory V → Result V} {m : Memory V}, Keeps G P P O f → P m →
      (∀ o ∈ (f m).observations, G o) → P (f m).memory ∧ ∀ o ∈ (f m).observations, O o :=
    fun hf hm hG => ⟨(hf _ hm hG).1, (hf _ hm hG).2.2⟩
  unfold node at hG ⊢
  cases hk : stmt.kind with
  | branch cond _ _ _ _ =>
    simp only [hk] at hG ⊢
    by_cases hc : I.truth (m.value cond) = true
    · rw [if_pos hc] at hG ⊢
      exact hkept hfirst hm hG
    · rw [if_neg hc] at hG ⊢
      exact hkept hsecond hm hG
  | loop =>
    simp only [hk] at hG ⊢
    exact hkept (hfirst.repeatBody budget) hm hG
  | leave => exact ⟨hm, by simp⟩
  | print => exact ⟨hm, by simp [hprint]⟩
  | rangeFor counter lower upper _ =>
    simp only [hk] at hG ⊢
    refine hkept (hfirst.countBody fun count hc m hm => ?_) hm hG
    obtain ⟨v, -, rfl⟩ := List.mem_map.1 hc
    exact hcount _ (by simp [hk, Kind.counters]) v m hm
  | structFor counters snode _ =>
    simp only [hk] at hG ⊢
    refine hkept (hfirst.countBody fun count hc m hm => ?_) hm hG
    obtain ⟨tuple, -, rfl⟩ := List.mem_map.1 hc
    exact Memory.writeAll_keeps (fun s hs => hcount s (by simpa [hk, Kind.counters] using hs))
      tuple hm
  | _ => exact ⟨hexec, by simp⟩

end Interpretation

/-- What each statement of a tree keeps, with the values visible to it, holds wherever a
statement is reached and at the end. -/
theorem Tree.run_scoped {G : Observation V → Prop} {P : List StmtId → Memory V → Prop}
    {I : Interpretation V} {t : Tree} (scope : List StmtId)
    (hmono : ∀ {scope scope' m}, scope ⊆ scope' → P scope' m → P scope m)
    (hexec : ∀ p ∈ t.sites scope, ∀ m, P p.scope m → G (.reached p.id p.stmt m) →
      P (p.stmt.scopeAfter p.id p.scope) (I.exec p.id p.stmt m))
    (hcount : ∀ p ∈ t.sites scope, ∀ s ∈ p.stmt.kind.counters, ∀ contents m, P p.scope m →
      P p.scope (m.write p.id s contents)) (budget : Nat) :
    Keeps G (P scope) (P (t.scopeAfter scope))
      (fun o => ∀ id stmt n, o = .reached id stmt n →
        ∃ scope', ⟨id, stmt, scope'⟩ ∈ t.sites scope ∧ P scope' n)
      (t.run I budget) := by
  induction t generalizing scope with
  | nil => exact fun m hm _ => ⟨hm, fun _ => hm, by simp [run]⟩
  | cons id stmt first second rest ih₁ ih₂ ih₃ =>
    simp only [sites, List.mem_cons, List.mem_append] at hexec hcount
    have ih₁ := ih₁ scope (fun p hp => hexec p (.inr (.inl (.inl hp))))
      (fun p hp => hcount p (.inr (.inl (.inl hp))))
    have ih₂ := ih₂ scope (fun p hp => hexec p (.inr (.inl (.inr hp))))
      (fun p hp => hcount p (.inr (.inl (.inr hp))))
    have ih₃ := ih₃ _ (fun p hp => hexec p (.inr (.inr hp))) fun p hp => hcount p (.inr (.inr hp))
    -- what holds at the sites of a part holds at the sites of the whole
    have hwiden : ∀ {sites sites' : List Site} {o : Observation V}, (∀ p ∈ sites, p ∈ sites') →
        (∀ id stmt n, o = .reached id stmt n → ∃ scope', ⟨id, stmt, scope'⟩ ∈ sites ∧ P scope' n) →
        ∀ id stmt n, o = .reached id stmt n →
          ∃ scope', ⟨id, stmt, scope'⟩ ∈ sites' ∧ P scope' n := by
      intro sites sites' o hsub h id stmt n ho
      obtain ⟨scope', hp, h⟩ := h id stmt n ho
      exact ⟨scope', hsub _ hp, h⟩
    have hsites : ∀ p, p = ⟨id, stmt, scope⟩ ∨ (p ∈ first.sites scope ∨ p ∈ second.sites scope) ∨
        p ∈ rest.sites (stmt.scopeAfter id scope) →
        p ∈ (cons id stmt first second rest).sites scope := by
      simp only [sites, List.mem_cons, List.mem_append]
      exact fun p h => h
    refine Keeps.andThen (fun m hm hG => ?_)
      (ih₃.imp fun o => hwiden fun p hp => hsites p (.inr (.inr hp)))
      fun _ hm => hmono (subset_scopeAfter stmt id scope) hm
    rw [Result.reach_andThen] at hG ⊢
    simp only [List.mem_cons, forall_eq_or_imp] at hG ⊢
    have hafter := hexec ⟨id, stmt, scope⟩ (.inl rfl) m hm hG.1
    have hhere : ∀ id' stmt' n, (.reached id stmt m : Observation V) = .reached id' stmt' n →
        ∃ scope', ⟨id', stmt', scope'⟩ ∈ (cons id stmt first second rest).sites scope ∧
          P scope' n := by
      rintro id' stmt' n ⟨⟩
      exact ⟨scope, hsites _ (.inl rfl), hm⟩
    cases hv : stmt.kind.hasValue with
    | true =>
      rw [Interpretation.node_of_hasValue hv]
      exact ⟨hmono (subset_scopeAfter stmt id scope) hafter, fun _ => hafter, hhere, by simp⟩
    | false =>
      have hscope : stmt.scopeAfter id scope = scope := by simp [Stmt.scopeAfter, hv]
      rw [hscope] at hafter ⊢
      obtain ⟨hp, ho⟩ := Interpretation.node_keeps
        ((ih₁.imp fun o => hwiden fun p hp => hsites p (.inr (.inl (.inl hp)))).weaken fun _ hm =>
          hmono (subset_scopeAfter_tree first scope) hm)
        ((ih₂.imp fun o => hwiden fun p hp => hsites p (.inr (.inl (.inr hp)))).weaken fun _ hm =>
          hmono (subset_scopeAfter_tree second scope) hm)
        (by simp) (hcount ⟨id, stmt, scope⟩ (.inl rfl)) hm hafter hG.2
      exact ⟨hp, fun _ => hp, hhere, ho⟩

/-- What each statement of a tree keeps is kept by executing the tree. -/
theorem Tree.run_keeps {P : Memory V → Prop} {I : Interpretation V} {t : Tree} {m : Memory V}
    (hexec : ∀ p ∈ t.preorder, ∀ m, P m → P (I.exec p.1 p.2 m))
    (hcount : ∀ p ∈ t.preorder, ∀ s ∈ p.2.kind.counters, ∀ contents m, P m →
      P (m.write p.1 s contents)) (budget : Nat) (hm : P m) :
    P (t.run I budget m).memory ∧
      ∀ id stmt n, .reached id stmt n ∈ (t.run I budget m).observations →
        (id, stmt) ∈ t.preorder ∧ P n := by
  obtain ⟨hp, -, ho⟩ := run_scoped (P := fun _ => P) (G := fun _ => True) [] (fun _ hm => hm)
    (fun p hp m hm _ => hexec (p.id, p.stmt) (mem_preorder_of_mem_sites hp) m hm)
    (fun p hp => hcount (p.id, p.stmt) (mem_preorder_of_mem_sites hp)) budget m hm (by simp)
  refine ⟨hp, fun id stmt n hr => ?_⟩
  obtain ⟨scope, hp, hn⟩ := ho _ hr id stmt n rfl
  exact ⟨mem_preorder_of_mem_sites hp, hn⟩

theorem Result.andThen_run_nil (r : Result V) (I : Interpretation V) (budget : Nat) :
    r.andThen (Tree.nil.run I budget) = r := by
  by_cases h : r.signal = .normal
  · rw [Result.andThen_normal h]
    simp [Tree.run, ← h]
  · exact Result.andThen_of_ne h

/-- A tree is executed statement by statement. -/
theorem Tree.run_cons (I : Interpretation V) (budget : Nat) (id : StmtId) (stmt : Stmt)
    (first second rest : Tree) (m : Memory V) :
      (Tree.cons id stmt first second rest).run I budget m =
      ((Tree.cons id stmt first second .nil).run I budget m).andThen (rest.run I budget) := by
  rw [run, run, Result.andThen_run_nil]

theorem Tree.run_single (I : Interpretation V) (budget : Nat) (id : StmtId) (stmt : Stmt)
    (first second : Tree) (m : Memory V) :
    let r := I.node budget id stmt (first.run I budget) (second.run I budget) m
    (Tree.cons id stmt first second .nil).run I budget m =
      ⟨r.signal, r.memory, .reached id stmt m :: r.observations⟩ := by
  rw [run, Result.andThen_run_nil]
  rfl

/-! ## Frames -/

/-- The slots that a statement writes, what is nested in it aside. -/
def Kind.written : Kind → List StmtId
  | .store slot _ | .atomic _ slot _ => [slot]
  | k => k.counters

/-- The slots that a statement reads, what is nested in it aside. -/
def Kind.slotsRead : Kind → List StmtId
  | .load lanes => lanes.map SlotLane.slot
  | .atomic _ slot _ => [slot]
  | _ => []

theorem Kind.counters_subset_written (k : Kind) : k.counters ⊆ k.written := by
  cases k <;> simp [counters, written]

theorem Kind.slotsRead_subset_operands (k : Kind) : k.slotsRead ⊆ k.operands := by
  cases k <;> simp [slotsRead, operands]

theorem Slot.writes_eq_true_iff {slot : Slot} {k : Kind} :
    slot.writes k = true ↔ slot.id ∈ k.written := by
  cases k with
  | store s v => by_cases h : s = slot.id <;> simp [writes, action, Kind.written, h, eq_comm]
  | atomic op s v => by_cases h : s = slot.id <;> simp [writes, action, Kind.written, h, eq_comm]
  | load lanes =>
    cases h : lanes.any (·.slot == slot.id) <;>
      simp [writes, action, Kind.written, Kind.counters, h]
  | rangeFor counter _ _ _ =>
    by_cases h : counter = slot.id
    · simp [writes, action, Kind.written, Kind.counters, h]
    · simp [writes, action, Kind.written, Kind.counters, h, Ne.symm h]
  | structFor counters _ _ =>
    by_cases h : slot.id ∈ counters <;> simp [writes, action, Kind.written, Kind.counters, h]
  | _ => simp [writes, action, Kind.written, Kind.counters]

theorem Slot.reads_eq_true_iff {slot : Slot} {k : Kind} :
    slot.reads k = true ↔ slot.id ∈ k.slotsRead ∨ slot.id ∈ k.counters := by
  cases k with
  | store s v => by_cases h : s = slot.id <;> simp [reads, action, Kind.slotsRead, Kind.counters, h]
  | atomic op s v =>
    by_cases h : s = slot.id <;> simp [reads, action, Kind.slotsRead, Kind.counters, h, eq_comm]
  | load lanes =>
    have hany : lanes.any (·.slot == slot.id) = true ↔ slot.id ∈ lanes.map SlotLane.slot := by
      simp [List.any_eq_true, List.mem_map]
    by_cases h : lanes.any (·.slot == slot.id) = true
    · simp [reads, action, Kind.slotsRead, h, hany.1 h]
    · simp [reads, action, Kind.slotsRead, Kind.counters, h, mt hany.2 h]
  | rangeFor counter _ _ _ =>
    by_cases h : counter = slot.id
    · simp [reads, action, Kind.slotsRead, Kind.counters, h]
    · simp [reads, action, Kind.slotsRead, Kind.counters, h, Ne.symm h]
  | structFor counters _ _ =>
    by_cases h : slot.id ∈ counters <;> simp [reads, action, Kind.slotsRead, Kind.counters, h]
  | _ => simp [reads, action, Kind.slotsRead, Kind.counters]

section Statement

variable (I : Interpretation V) {id s : StmtId} {stmt : Stmt} {m : Memory V}

theorem value_exec (h : s ≠ id) : (I.exec id stmt m).value s = m.value s := by
  unfold Interpretation.exec
  split <;> simp [h]

/-- A statement writes slots that are declared, and an `alloca` declares its own. -/
theorem cell?_exec (id : StmtId) (stmt : Stmt) (m : Memory V) (s : StmtId) :
    (I.exec id stmt m).cell? s = m.cell? s ∨
    ∃ contents, (I.exec id stmt m).cell? s = some ⟨contents, id⟩ ∧
      (s ∈ stmt.kind.written ∧ (m.cell? s).isSome = true ∨ s = id ∧ stmt.kind = .alloca) := by
  unfold Interpretation.exec
  split
  · next hk =>
    by_cases h : s = id
    · subst h
      exact .inr ⟨_, if_pos rfl, .inr ⟨rfl, hk⟩⟩
    · exact .inl (by simp [h])
  · exact .inl rfl
  · exact .inl rfl
  · exact .inl rfl
  · exact .inl rfl
  · next slot value hk =>
    rcases Memory.cell?_write_cases m id s slot (m.value value) with h | ⟨heq, hsome, hc⟩
    · exact .inl h
    · exact .inr ⟨_, hc, .inl ⟨by simp [hk, Kind.written, heq], hsome⟩⟩
  · next op slot value hk =>
    dsimp only
    rcases Memory.cell?_write_cases (m.bind id _) id s slot _ with h | ⟨heq, hsome, hc⟩
    · exact .inl h
    · exact .inr ⟨_, hc, .inl ⟨by simp [hk, Kind.written, heq], hsome⟩⟩
  · exact .inl rfl

end Statement

namespace Tree

variable (I : Interpretation V) (budget : Nat) {t : Tree} {m : Memory V} {s : StmtId}

/-- A tree only binds the values of its own statements. -/
theorem value_run (h : s ∉ t.ids) : (t.run I budget m).memory.value s = m.value s := by
  refine (run_keeps (P := fun n => n.value s = m.value s) (fun p hp n hn => ?_)
    (fun p _ _ _ _ n hn => hn) budget rfl).1
  have hne : s ≠ p.1 := fun heq => h (heq ▸ mem_ids_of_mem_preorder hp)
  exact (value_exec I hne).trans hn

/-- A slot that is declared stays declared. -/
theorem isSome_cell?_run (h : (m.cell? s).isSome = true) :
    ((t.run I budget m).memory.cell? s).isSome = true := by
  refine (run_keeps (P := fun n => (n.cell? s).isSome = true) (fun p hp n hn => ?_)
    (fun p _ r _ contents n hn => ?_) budget h).1
  · rcases cell?_exec I p.1 p.2 n s with heq | ⟨_, heq, -⟩
    · rwa [heq]
    · simp [heq]
  · rcases n.cell?_write_cases p.1 s r contents with heq | ⟨-, -, heq⟩
    · rwa [heq]
    · simp [heq]

/-- The contents of a slot stay where it is neither declared nor written. -/
theorem cell?_run {slot : Slot} (hw : slot.writtenIn t = false) (h : slot.id ∉ t.ids) :
    (t.run I budget m).memory.cell? slot.id = m.cell? slot.id := by
  have hwritten : ∀ p ∈ t.preorder, slot.id ∉ p.2.kind.written := by
    intro p hp hmem
    have := List.any_eq_false.1 hw p hp
    exact this (Slot.writes_eq_true_iff.2 hmem)
  refine (run_keeps (P := fun n => n.cell? slot.id = m.cell? slot.id) (fun p hp n hn => ?_)
    (fun p hp r hr contents n hn => ?_) budget rfl).1
  · rcases cell?_exec I p.1 p.2 n slot.id with heq | ⟨_, -, ⟨hmem, -⟩ | ⟨heq, -⟩⟩
    · exact heq.trans hn
    · exact absurd hmem (hwritten p hp)
    · exact absurd (heq ▸ mem_ids_of_mem_preorder hp) h
  · rcases n.cell?_write_cases p.1 slot.id r contents with heq | ⟨heq, -⟩
    · exact heq.trans hn
    · exact absurd (p.2.kind.counters_subset_written (heq ▸ hr)) (hwritten p hp)

/-- Only statements of the tree are reached in it. -/
theorem mem_preorder_of_reached {id : StmtId} {stmt : Stmt} {n : Memory V}
    (h : .reached id stmt n ∈ (t.run I budget m).observations) : (id, stmt) ∈ t.preorder :=
  ((run_keeps (P := fun _ => True) (fun _ _ _ _ => trivial) (fun _ _ _ _ _ _ _ => trivial) budget
    trivial).2 id stmt n h).1

/-- Only statements of a tree are reached in it. -/
theorem mem_ids_of_reached {id : StmtId} {stmt : Stmt} {n : Memory V}
    (h : .reached id stmt n ∈ (t.run I budget m).observations) : id ∈ t.ids :=
  mem_ids_of_mem_preorder (mem_preorder_of_reached I budget h)

/-- Whatever is reached, and at the end, what a slot holds was there in front of the tree or
was written by a statement of it that writes the slot. -/
theorem writers_run {W : StmtId → StmtId → Prop}
    (hwritten : ∀ p ∈ t.preorder, ∀ s ∈ p.2.kind.written, W s p.1)
    (hdeclared : ∀ p ∈ t.preorder, p.2.kind = .alloca → W p.1 p.1)
    (h : ∀ s cell, m.cell? s = some cell → W s cell.writer) :
    (∀ s cell, (t.run I budget m).memory.cell? s = some cell → W s cell.writer) ∧
      ∀ id stmt n, .reached id stmt n ∈ (t.run I budget m).observations →
        ∀ s cell, n.cell? s = some cell → W s cell.writer := by
  have hkept := run_keeps (I := I) (t := t) (m := m)
    (P := fun n => ∀ s cell, n.cell? s = some cell → W s cell.writer) (fun p hp n hn s => ?_)
    (fun p hp r hr contents n hn s => ?_) budget h
  · exact ⟨hkept.1, fun id stmt n hr => (hkept.2 id stmt n hr).2⟩
  · rcases cell?_exec I p.1 p.2 n s with
      heq | ⟨_, heq, ⟨hmem, -⟩ | ⟨rfl, hk⟩⟩
    · rw [heq]
      exact hn s
    · rw [heq]
      rintro cell ⟨⟩
      exact hwritten p hp s hmem
    · rw [heq]
      rintro cell ⟨⟩
      exact hdeclared p hp hk
  · rcases n.cell?_write_cases p.1 s r contents with heq | ⟨rfl, -, heq⟩
    · rw [heq]
      exact hn s
    · rw [heq]
      rintro cell ⟨⟩
      exact hwritten p hp s (p.2.kind.counters_subset_written hr)

/-- Whatever is reached, and at the end, what a slot holds was there in front of the tree or
was written in it. -/
theorem writer_run {W : StmtId → Prop} (hids : ∀ id ∈ t.ids, W id)
    (h : ∀ cell, m.cell? s = some cell → W cell.writer) :
    (∀ cell, (t.run I budget m).memory.cell? s = some cell → W cell.writer) ∧
      ∀ id stmt n, .reached id stmt n ∈ (t.run I budget m).observations →
        ∀ cell, n.cell? s = some cell → W cell.writer := by
  have hrun := writers_run I budget (t := t) (m := m) (W := fun r w => r = s → W w)
    (fun p hp _ _ _ => hids _ (mem_ids_of_mem_preorder hp))
    (fun p hp _ _ => hids _ (mem_ids_of_mem_preorder hp))
    (fun r cell hc hr => h cell (hr ▸ hc))
  exact ⟨fun cell hc => hrun.1 s cell hc rfl, fun id stmt n hn cell hc =>
    hrun.2 id stmt n hn s cell hc rfl⟩

end Tree

/-! ## What is reached -/

section Reached

variable {I : Interpretation V} {budget : Nat} {slot : Slot} {id : StmtId} {stmt : Stmt}
  {first second rest : Tree} {m : Memory V}

/-- What is shown by a tree is shown by its first statement or by the others after it. -/
theorem mem_run_cons {o : Observation V}
    (ho : o ∈ ((Tree.cons id stmt first second rest).run I budget m).observations) :
    o ∈ ((Tree.cons id stmt first second .nil).run I budget m).observations ∨
      ((Tree.cons id stmt first second .nil).run I budget m).signal = .normal ∧
        o ∈ (rest.run I budget
          ((Tree.cons id stmt first second .nil).run I budget m).memory).observations := by
  rwa [Tree.run_cons, Result.mem_andThen] at ho

/-- What is reached with a statement is this statement or is reached in one of its blocks. -/
theorem exists_of_reached_single {reader : StmtId} {u : Stmt} {n : Memory V}
    (ho : .reached reader u n ∈
      ((Tree.cons id stmt first second .nil).run I budget m).observations) :
    (reader = id ∧ u = stmt ∧ n = m) ∨
      ∃ m₁, .reached reader u n ∈ (first.run I budget m₁).observations ∨
      .reached reader u n ∈ (second.run I budget m₁).observations := by
  rw [Tree.run_single, List.mem_cons] at ho
  rcases ho with heq | ho
  · exact .inl (Observation.reached.inj heq)
  · have hblock : ∀ t, t = first ∨ t = second →
        Keeps (fun _ => True) (fun _ => True) (fun _ => True) (fun o => ∀ reader u n,
          o = .reached reader u n →
            ∃ m₁, .reached reader u n ∈ (first.run I budget m₁).observations ∨
            .reached reader u n ∈ (second.run I budget m₁).observations) (t.run I budget) := by
      rintro t (rfl | rfl) m - -
      · exact ⟨trivial, fun _ => trivial, fun o ho r u n heq => ⟨m, .inl (heq ▸ ho)⟩⟩
      · exact ⟨trivial, fun _ => trivial, fun o ho r u n heq => ⟨m, .inr (heq ▸ ho)⟩⟩
    exact .inr ((Interpretation.node_keeps (hblock first (.inl rfl)) (hblock second (.inr rfl))
      (by simp) (fun _ _ _ _ _ => trivial) trivial trivial (fun _ _ => trivial)).2 _ ho reader
        u n rfl)

/-- What is reached in a loop is reached in its body, from a memory of the kind that
iterations lead to. -/
theorem exists_of_reached_loop {P : Memory V → Prop} {masked binds : Bool}
    (ha : slot.action stmt.kind = .loop masked binds)
    (hbody : ∀ m, P m → P (first.run I budget m).memory)
    (hcount : ∀ s ∈ stmt.kind.counters, ∀ contents m, P m → P (m.write id s contents)) (hm : P m)
    {reader : StmtId} {u : Stmt} {n : Memory V}
    (ho : .reached reader u n ∈
      ((Tree.cons id stmt first second .nil).run I budget m).observations) :
    (reader = id ∧ u = stmt) ∨
      ∃ m₁, P m₁ ∧ .reached reader u n ∈ (first.run I budget m₁).observations := by
  have hexec : I.exec id stmt m = m := by
    unfold Interpretation.exec
    rcases Slot.action_eq_loop ha with ⟨_, _, hk⟩ | ⟨_, _, _, _, hk⟩ | ⟨_, _, _, hk⟩ <;> rw [hk]
  have hnode : ∀ f g : Memory V → Result V,
      I.node budget id stmt f g m = I.node budget id stmt f f m := by
    intro f g
    unfold Interpretation.node
    rcases Slot.action_eq_loop ha with ⟨_, _, hk⟩ | ⟨_, _, _, _, hk⟩ | ⟨_, _, _, hk⟩ <;> rw [hk]
  rw [Tree.run_single, hnode, List.mem_cons] at ho
  rcases ho with heq | ho
  · have heq := Observation.reached.inj heq
    exact .inl ⟨heq.1, heq.2.1⟩
  · have hfirst : Keeps (fun _ => True) P P (fun o => ∀ reader u n, o = .reached reader u n →
        ∃ m₁, P m₁ ∧ .reached reader u n ∈ (first.run I budget m₁).observations)
        (first.run I budget) :=
      fun m hm _ => ⟨hbody m hm, fun _ => hbody m hm, fun o ho r u n heq => ⟨m, hm, heq ▸ ho⟩⟩
    exact .inr ((Interpretation.node_keeps hfirst hfirst (by simp) hcount hm
      (hexec.symm ▸ hm) (by simp)).2 _ ho reader u n rfl)

/-- Whenever a statement behind a slot is reached, the statements behind the slot have been
entered right after its declaration. -/
theorem exists_declared_of_mem_slots {t : Tree} (hn : t.ids.Nodup) (h : slot ∈ t.slots)
    {reader : StmtId} {u : Stmt} {n : Memory V} (hreader : reader ∈ slot.following.ids)
    (ho : .reached reader u n ∈ (t.run I budget m).observations) :
    ∃ m₁, m₁.cell? slot.id = some ⟨I.zeros slot.type?, slot.id⟩ ∧
      .reached reader u n ∈ (slot.following.run I budget m₁).observations := by
  induction t generalizing m with
  | nil => cases h
  | cons id stmt first second rest ih₁ ih₂ ih₃ =>
    simp only [Tree.ids_cons, List.nodup_cons, List.nodup_append, List.mem_append] at hn
    obtain ⟨hid, ⟨hn₁, hn₂, hd₁⟩, hn₃, hd₂⟩ := hn
    have hmem : ∀ {t : Tree}, slot ∈ t.slots → reader ∈ t.ids := fun h =>
      List.map_subset Prod.fst (Slot.subset_of_mem_slots h).2 hreader
    have hnested : slot ∈ first.slots ∨ slot ∈ second.slots →
        ∃ m₁, .reached reader u n ∈ (first.run I budget m₁).observations ∨
          .reached reader u n ∈ (second.run I budget m₁).observations := by
      intro h
      have hin := h.imp hmem hmem
      rcases mem_run_cons ho with ho | ⟨-, ho⟩
      · rcases exists_of_reached_single ho with ⟨rfl, -⟩ | ho
        · exact absurd (.inl hin) hid
        · exact ho
      · exact absurd rfl (hd₂ reader hin reader (Tree.mem_ids_of_reached I budget ho))
    have hlater : slot ∈ first.slots ++ second.slots ++ rest.slots →
        ∃ m₁, m₁.cell? slot.id = some ⟨I.zeros slot.type?, slot.id⟩ ∧
          .reached reader u n ∈ (slot.following.run I budget m₁).observations := by
      simp only [List.mem_append]
      rintro ((hs | hs) | hs)
      · obtain ⟨m₁, ho | ho⟩ := hnested (.inl hs)
        · exact ih₁ hn₁ hs ho
        · exact absurd rfl (hd₁ reader (hmem hs) reader (Tree.mem_ids_of_reached I budget ho))
      · obtain ⟨m₁, ho | ho⟩ := hnested (.inr hs)
        · exact absurd rfl (hd₁ reader (Tree.mem_ids_of_reached I budget ho) reader (hmem hs))
        · exact ih₂ hn₂ hs ho
      · rcases mem_run_cons ho with ho | ⟨-, ho⟩
        · rcases exists_of_reached_single ho with ⟨rfl, -⟩ | ⟨m₁, ho⟩
          · exact absurd (.inr (hmem hs)) hid
          · exact absurd rfl (hd₂ reader (ho.imp (Tree.mem_ids_of_reached I budget)
              (Tree.mem_ids_of_reached I budget)) reader (hmem hs))
        · exact ih₃ hn₃ hs ho
    simp only [Tree.slots] at h
    split at h
    · next halloca =>
      rcases List.mem_cons.1 h with rfl | h
      · have hkind : stmt.kind = .alloca := by
          cases hk : stmt.kind <;> simp_all [Kind.isAlloca]
        have hrun : (Tree.cons id stmt first second .nil).run I budget m =
            ⟨.normal, m.declare id (I.zeros stmt.type?), [.reached id stmt m]⟩ := by
          simp only [Tree.run_single, Interpretation.node, Interpretation.exec, hkind]
        rcases mem_run_cons ho with ho | ⟨-, ho⟩
        · rw [hrun] at ho
          obtain ⟨rfl, -⟩ := Observation.reached.inj (List.mem_singleton.1 ho)
          exact absurd (.inr hreader) hid
        · rw [hrun] at ho
          exact ⟨_, by simp, ho⟩
      · exact hlater h
    · exact hlater h

/-- The first statement of a tree is reached once, at the beginning. -/
theorem eq_of_reached_head (hn : (Tree.cons id stmt first second rest).ids.Nodup) {u : Stmt}
    {n : Memory V}
    (ho : .reached id u n ∈ ((Tree.cons id stmt first second rest).run I budget m).observations) :
    u = stmt ∧ n = m := by
  simp only [Tree.ids_cons, List.nodup_cons, List.mem_append] at hn
  rcases mem_run_cons ho with ho | ⟨-, ho⟩
  · rcases exists_of_reached_single ho with ⟨-, heq⟩ | ⟨m₁, ho⟩
    · exact heq
    · exact absurd (.inl (ho.imp (Tree.mem_ids_of_reached I budget)
        (Tree.mem_ids_of_reached I budget))) hn.1
  · exact absurd (.inr (Tree.mem_ids_of_reached I budget ho)) hn.1

end Reached

end KernelIR
