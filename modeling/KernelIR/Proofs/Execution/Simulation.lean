import KernelIR.Proofs.Execution.Frame
import KernelIR.Slot.Optimize

/-!
# Executions of rewritten trees

Every rewrite takes one statement out of a tree, puts another one or nothing in its
place, and another value in the place of its value (`Tree.exchange`). A tree that is
rewritten so is executed in step with the one it was made from (`Tree.run_exchange`), if
in the latter no other statement reads what the statement wrote, and if wherever its value
is used this is also the other one (`Exchange.Undisturbed`).

On the way the memories match but for the value of the statement and for the slots that
it wrote last (`Exchange.Matches`).
-/

namespace KernelIR

variable {V : Type}

/-- In related memories the second execution goes like the first one, prints the same and
leads to related memories, if all that shows in the first one is as `G` says. -/
def Simulates (G : Observation V → Prop) (R : Memory V → Memory V → Prop)
    (f f' : Memory V → Result V) : Prop :=
  ∀ m m', R m m' → (∀ o ∈ (f m).observations, G o) →
    (f' m').signal = (f m).signal ∧ (f' m').prints = (f m).prints ∧ R (f m).memory (f' m').memory

/-- Two parts print what the first one prints, and then what the second one does. -/
theorem Result.prints_andThen {r : Result V} {f : Memory V → Result V} (h : r.signal = .normal) :
    (r.andThen f).prints = r.prints ++ (f r.memory).prints := by
  simp [andThen_normal h, prints]

namespace Simulates

variable {G : Observation V → Prop} {R : Memory V → Memory V → Prop}
  {f f' g g' : Memory V → Result V}

theorem andThen (hf : Simulates G R f f') (hg : Simulates G R g g') :
    Simulates G R (fun m => (f m).andThen g) fun m => (f' m).andThen g' := by
  intro m m' hR hG
  dsimp only at hG ⊢
  obtain ⟨hs, hp, hm⟩ := hf m m' hR fun o ho => hG o (Result.mem_andThen.2 (.inl ho))
  by_cases hn : (f m).signal = .normal
  · obtain ⟨hs', hp', hm'⟩ := hg _ _ hm fun o ho => hG o (Result.mem_andThen.2 (.inr ⟨hn, ho⟩))
    have hn' := hs.trans hn
    rw [Result.prints_andThen hn, Result.prints_andThen hn', hp, hp', Result.andThen_normal hn,
      Result.andThen_normal hn']
    exact ⟨hs', rfl, hm'⟩
  · rw [Result.andThen_of_ne hn, Result.andThen_of_ne (hs ▸ hn)]
    exact ⟨hs, hp, hm⟩

theorem repeatBody (hf : Simulates G R f f') (n : Nat) :
    Simulates G R (KernelIR.repeatBody f n) (KernelIR.repeatBody f' n) := by
  induction n with
  | zero => exact fun m m' hR _ => ⟨rfl, rfl, hR⟩
  | succ n ih =>
    intro m m' hR hG
    by_cases hleft : (f m).signal = .left
    · rw [repeatBody_of_left hleft] at hG ⊢
      obtain ⟨hs, hp, hm⟩ := hf m m' hR hG
      rw [repeatBody_of_left (hs.trans hleft)]
      exact ⟨rfl, hp, hm⟩
    · rw [repeatBody_of_ne hleft] at hG ⊢
      have hs := (hf m m' hR fun o ho => hG o (Result.mem_andThen.2 (.inl ho))).1
      rw [repeatBody_of_ne (hs ▸ hleft)]
      exact (hf.andThen ih) m m' hR hG

theorem countBody {α : Type} (hf : Simulates G R f f') {k k' : α → Memory V → Memory V}
    (hc : ∀ v m m', R m m' → R (k v m) (k' v m')) (l : List α) :
    Simulates G R (KernelIR.countBody f (l.map k)) (KernelIR.countBody f' (l.map k')) := by
  induction l with
  | nil => exact fun m m' hR _ => ⟨rfl, rfl, hR⟩
  | cons v l ih => exact fun m m' hR hG => (hf.andThen ih) _ _ (hc v m m' hR) hG

end Simulates

/-! ## Exchanges -/

/-- A load only names slots. -/
theorem Kind.replace_load {old new : StmtId} {lanes : List SlotLane}
    (h : ∀ lane ∈ lanes, lane.slot ≠ old) :
    (Kind.load lanes).replace old new = .load lanes := by
  refine congrArg Kind.load (List.ext_getElem? fun i => ?_)
  cases hi : lanes[i]? with
  | none => simp [hi]
  | some lane => simp [hi, h lane (List.mem_of_getElem? hi)]

/-- Nothing is nested in an access. -/
theorem Tree.eq_nil_of_isAccess {id : StmtId} {stmt : Stmt} {first second rest : Tree}
    (ht : (Tree.cons id stmt first second rest).Shaped) (h : stmt.kind.isAccess = true) :
    first = .nil ∧ second = .nil := by
  obtain ⟨hfirst, hsecond, -⟩ := ht
  cases hk : stmt.kind <;> simp_all [Kind.isAccess, Kind.firstBlock?, Kind.secondBlock?]

/-- A statement to take out of a tree, what to put in its place, and the value to use
instead of its own. -/
structure Exchange where
  old : StmtId
  new? : Option (StmtId × Stmt)
  value : StmtId

/-- Makes an exchange. -/
def Tree.exchange (e : Exchange) : Tree → Tree
  | nil => nil
  | cons id stmt first second rest =>
    if id = e.old then
      match e.new? with
      | none => rest.exchange e
      | some (new, newStmt) => cons new newStmt nil nil (rest.exchange e)
    else
      cons id (stmt.mapKind (Kind.replace e.old e.value)) (first.exchange e) (second.exchange e)
        (rest.exchange e)

namespace Exchange

/-- The statement that comes into the tree. -/
def newId? (e : Exchange) : Option StmtId :=
  e.new?.map Prod.fst

/-- What a tree must be like for an exchange : the statement accesses a slot and is not one
for others, unless it is among the counters of a loop, and what is put in its place is a new
constant. -/
structure Apt (e : Exchange) (t : Tree) : Prop where
  old : ∀ stmt, (e.old, stmt) ∈ t.preorder → stmt.kind.isAccess = true
  slots : ∀ p ∈ t.preorder, e.old ∉ p.2.kind.slotsRead ∧
    (e.old ∈ p.2.kind.written → e.old ∈ p.2.kind.counters)
  declared : e.value ≠ e.old → ∀ p ∈ t.preorder, p.2.kind = .alloca → p.1 ≠ e.old ∧ p.1 ≠ e.value
  new : ∀ new newStmt, e.new? = some (new, newStmt) → new = e.value ∧
    (∃ cs, newStmt.kind = .const cs) ∧ ∀ p ∈ t.preorder, new ≠ p.1 ∧ new ∉ p.2.kind.operands
  value : ∀ p ∈ t.preorder, e.old ∈ p.2.kind.operands → e.value ≠ e.old

theorem Apt.mono {e : Exchange} {t t' : Tree} (h : e.Apt t) (hsub : t'.preorder ⊆ t.preorder) :
    e.Apt t' where
  old u hu := h.old u (hsub hu)
  slots p hp := h.slots p (hsub hp)
  declared hne p hp := h.declared hne p (hsub hp)
  new new u hu :=
    have ⟨hvalue, hconst, hfresh⟩ := h.new new u hu
    ⟨hvalue, hconst, fun p hp => hfresh p (hsub hp)⟩
  value p hp := h.value p (hsub hp)

theorem Apt.of_cons {e : Exchange} {id : StmtId} {stmt : Stmt} {first second rest : Tree}
    (h : e.Apt (.cons id stmt first second rest)) : e.Apt first ∧ e.Apt second ∧ e.Apt rest := by
  refine ⟨h.mono ?_, h.mono ?_, h.mono ?_⟩ <;> intro p hp <;> simp [Tree.preorder, hp]

/-- What must hold where a statement is reached : it does not read what the old statement
wrote, and it finds the other value where it takes the old one. The new statement makes
the value that the old one does. -/
structure Undisturbed (e : Exchange) (I : Interpretation V) (id : StmtId) (stmt : Stmt)
    (m : Memory V) : Prop where
  read : id ≠ e.old → ∀ s ∈ stmt.kind.slotsRead, ∀ cell, m.cell? s = some cell →
    cell.writer ≠ e.old
  value : e.new? = none → e.old ∈ stmt.kind.operands → m.value e.old = m.value e.value
  new : id = e.old → ∀ new newStmt, e.new? = some (new, newStmt) → ∀ m' : Memory V,
    (I.exec new newStmt m').value new = (I.exec id stmt m).value id

/-- What the old statement left behind is all that differs. If another value is used instead
of its own, neither is a slot. -/
structure Matches (e : Exchange) (m m' : Memory V) : Prop where
  value : ∀ s, s ≠ e.old → e.newId? ≠ some s → m'.value s = m.value s
  moved : ∀ new, e.newId? = some new → m'.value new = m.value e.old
  cell : ∀ s, s ≠ e.old → m'.cell? s = m.cell? s ∨
    ∃ cell, m.cell? s = some cell ∧ cell.writer = e.old ∧ (m'.cell? s).isSome = true
  bare : e.value ≠ e.old → m.cell? e.old = none ∧ m'.cell? e.value = none

variable {e : Exchange} {I : Interpretation V} {m m' : Memory V} {id : StmtId} {stmt : Stmt}

namespace Matches

/-- With nothing declared and nothing bound the memories match. -/
theorem empty : e.Matches (Memory.empty : Memory V) .empty where
  value _ _ _ := rfl
  moved _ _ := rfl
  cell _ _ := .inl rfl
  bare _ := ⟨rfl, rfl⟩

variable (h : e.Matches m m')
include h

theorem bind (hid : id ≠ e.old) (hnew : e.newId? ≠ some id) (value : List V) :
    e.Matches (m.bind id value) (m'.bind id value) where
  value s hs hns := by
    rw [Memory.value_bind, Memory.value_bind, h.value s hs hns]
  moved new hn := by
    have hne : new ≠ id := by
      rintro rfl
      exact hnew hn
    rw [Memory.value_bind, Memory.value_bind, if_neg hne, if_neg hid.symm, h.moved new hn]
  cell := h.cell
  bare := h.bare

/-- Declaring a slot that is not exchanged keeps the memories matching. -/
theorem declare (hid : e.value ≠ e.old → id ≠ e.old ∧ id ≠ e.value) (contents : List V) :
    e.Matches (m.declare id contents) (m'.declare id contents) where
  value := h.value
  moved := h.moved
  cell s hs := by
    rw [Memory.cell?_declare, Memory.cell?_declare]
    split
    · exact .inl rfl
    · exact h.cell s hs
  bare hne := by
    rw [Memory.cell?_declare, Memory.cell?_declare, if_neg (hid hne).1.symm,
      if_neg (hid hne).2.symm]
    exact h.bare hne

theorem write {slot : StmtId} (hslot : slot ≠ e.old) (contents : List V) :
    e.Matches (m.write id slot contents) (m'.write id slot contents) where
  value := h.value
  moved := h.moved
  cell s hs := by
    rw [Memory.cell?_write, Memory.cell?_write]
    split
    · rcases h.cell slot hslot with heq | ⟨cell, hc, -, hsome⟩
      · exact .inl (by rw [heq])
      · obtain ⟨cell', hc'⟩ := Option.isSome_iff_exists.1 hsome
        exact .inl (by simp [hc, hc'])
    · exact h.cell s hs
  bare hne := by
    rw [Memory.cell?_write, Memory.cell?_write, if_neg hslot.symm]
    refine ⟨(h.bare hne).1, ?_⟩
    split
    · next heq => rw [← heq, (h.bare hne).2, Option.map_none]
    · exact (h.bare hne).2

/-- A loop may write a counter that is no slot, which has no effect. -/
theorem writeCounter {s : StmtId} (hs : s = e.old → e.value ≠ e.old) (contents : List V) :
    e.Matches (m.write id s contents)
      (m'.write id (if s = e.old then e.value else s) contents) := by
  split
  · next heq =>
    subst heq
    have hne := hs rfl
    have hwrite : ∀ {n : Memory V} {s : StmtId}, n.cell? s = none → n.write id s contents = n := by
      intro n s hn
      rw [Memory.write, hn, Option.map_none, Function.update_eq_self_iff.2 hn.symm]
    rw [hwrite (h.bare hne).1, hwrite (h.bare hne).2]
    exact h
  · next hne => exact h.write hne contents

theorem writeAll {slots : List StmtId} (hslots : e.old ∈ slots → e.value ≠ e.old)
    (tuple : Nat → List V) : e.Matches (m.writeAll id slots tuple)
      (m'.writeAll id (slots.mapIdx fun _ s => if s = e.old then e.value else s) tuple) := by
  have hfold : ∀ (l : List (StmtId × Nat)) (m m' : Memory V), (∀ p ∈ l, p.1 ∈ slots) →
      e.Matches m m' → e.Matches (l.foldl (fun m p => m.write id p.1 (tuple p.2)) m)
        ((l.map fun p => (if p.1 = e.old then e.value else p.1, p.2)).foldl
          (fun m p => m.write id p.1 (tuple p.2)) m') := by
    intro l
    induction l with
    | nil => exact fun m m' _ h => h
    | cons p l ih =>
      intro m m' hl h
      refine ih _ _ (fun q hq => hl q (by simp [hq])) (h.writeCounter (fun heq => hslots ?_) _)
      exact heq ▸ hl p (by simp)
  have hzip : (slots.mapIdx fun _ s => if s = e.old then e.value else s).zipIdx =
      slots.zipIdx.map fun p => (if p.1 = e.old then e.value else p.1, p.2) :=
    List.ext_getElem? fun i => by cases hi : slots[i]? <;> simp [hi]
  rw [Memory.writeAll, Memory.writeAll, hzip]
  exact hfold _ m m' (fun p hp => List.fst_mem_of_mem_zipIdx hp) h

/-- A statement takes the same value from both memories. -/
theorem operand (hu : e.Undisturbed I id stmt m)
    (hnew : ∀ new newStmt, e.new? = some (new, newStmt) → new = e.value ∧ new ∉ stmt.kind.operands)
    (hvalue : e.old ∈ stmt.kind.operands → e.value ≠ e.old) {v : StmtId}
    (hv : v ∈ stmt.kind.operands) : m'.value (if v = e.old then e.value else v) = m.value v := by
  split
  · next heq =>
    subst heq
    cases hn : e.new? with
    | none =>
      rw [h.value e.value (hvalue hv) (by simp [newId?, hn]), hu.value hn hv]
    | some p =>
      obtain ⟨new, newStmt⟩ := p
      obtain ⟨rfl, -⟩ := hnew new newStmt hn
      exact h.moved _ (by simp [newId?, hn])
  · next hne =>
    refine h.value v hne fun hn => ?_
    obtain ⟨⟨new, newStmt⟩, hp, rfl⟩ := Option.map_eq_some_iff.1 hn
    exact (hnew new newStmt hp).2 hv

theorem cell_old (s : StmtId) (hs : s ≠ e.old) :
    m'.cell? s = (I.exec e.old stmt m).cell? s ∨ ∃ cell,
      (I.exec e.old stmt m).cell? s = some cell ∧ cell.writer = e.old ∧
        (m'.cell? s).isSome = true := by
  rcases cell?_exec I _ _ _ s with heq | ⟨c, heq, ⟨-, hsome⟩ | ⟨hold, -⟩⟩
  · rw [heq]
    exact h.cell s hs
  · refine .inr ⟨_, heq, rfl, ?_⟩
    rcases h.cell s hs with hc | ⟨-, -, -, hc⟩
    · rwa [hc]
    · exact hc
  · exact absurd hold hs

theorem bare_old (hk : e.value ≠ e.old → stmt.kind ≠ .alloca) (hne : e.value ≠ e.old) :
    (I.exec e.old stmt m).cell? e.old = none := by
  rcases cell?_exec I e.old stmt m e.old with heq | ⟨c, -, ⟨-, hsome⟩ | ⟨-, ha⟩⟩
  · rw [heq, (h.bare hne).1]
  · simp [(h.bare hne).1] at hsome
  · exact absurd ha (hk hne)

/-- What a slot contains is the same in both, unless it was written by the statement that is taken
out. -/
theorem contents {s : StmtId} (hs : s ≠ e.old)
    (hread : ∀ cell, m.cell? s = some cell → cell.writer ≠ e.old) :
      m'.contents s = m.contents s := by
  rcases h.cell s hs with heq | ⟨cell, hc, hw, -⟩
  · simp only [Memory.contents, heq]
  · exact absurd hw (hread cell hc)

end Matches

section Statement

variable {t : Tree} (hapt : e.Apt t) (hp : (id, stmt) ∈ t.preorder)
include hapt hp

theorem Apt.newId?_ne : e.newId? ≠ some id := by
  intro hn
  obtain ⟨⟨new, newStmt⟩, hnew, rfl⟩ := Option.map_eq_some_iff.1 hn
  exact ((hapt.new new newStmt hnew).2.2 _ hp).1 rfl

/-- Operands have the same values, the exchanged one being read under its new name. -/
theorem Apt.operand (h : e.Matches m m') (hu : e.Undisturbed I id stmt m) {v : StmtId}
    (hv : v ∈ stmt.kind.operands) : m'.value (if v = e.old then e.value else v) = m.value v :=
  h.operand hu (fun new newStmt hn =>
    ⟨(hapt.new new newStmt hn).1, ((hapt.new new newStmt hn).2.2 _ hp).2⟩)
    (hapt.value _ hp) hv

/-- A statement that stays keeps memories matching. -/
theorem Apt.exec (hid : id ≠ e.old) (h : e.Matches m m') (hu : e.Undisturbed I id stmt m) :
    e.Matches (I.exec id stmt m) (I.exec id (stmt.mapKind (Kind.replace e.old e.value)) m') := by
  have hnew := hapt.newId?_ne hp
  have hop := fun v hv => hapt.operand hp (v := v) h hu hv
  have hread := fun s hs => hu.read hid s hs
  obtain ⟨hold', hold⟩ := hapt.slots _ hp
  unfold Interpretation.exec
  cases hk : stmt.kind with
  | alloca =>
    simp only [Stmt.mapKind, hk, Kind.replace, Kind.mapOperands]
    exact h.declare (fun hne => hapt.declared hne _ hp hk) _
  | const cs =>
    simp only [Stmt.mapKind, hk, Kind.replace, Kind.mapOperands]
    exact h.bind hid hnew _
  | arg index =>
    simp only [Stmt.mapKind, hk, Kind.replace, Kind.mapOperands]
    exact h.bind hid hnew _
  | binary op lhs rhs =>
    have hl := hop lhs (by simp [hk, Kind.operands])
    have hr := hop rhs (by simp [hk, Kind.operands])
    simp only [Stmt.mapKind, hk, Kind.replace, Kind.mapOperands, hl, hr]
    exact h.bind hid hnew _
  | load lanes =>
    simp only [hk, Kind.slotsRead, List.mem_map, forall_exists_index, and_imp,
      forall_apply_eq_imp_iff₂, not_exists, not_and] at hread hold'
    have hsame : (Kind.load lanes).replace e.old e.value = .load lanes :=
      Kind.replace_load hold'
    have helement : ∀ i : Nat, (lanes[i]?).map (I.element m') = (lanes[i]?).map (I.element m) := by
      intro i
      cases hi : lanes[i]? with
      | none => rfl
      | some lane =>
        have hl := List.mem_of_getElem? hi
        simp only [Option.map_some, Interpretation.element,
          h.contents (hold' lane hl) (hread lane hl)]
    simp only [Stmt.mapKind, hk, hsame, helement]
    exact h.bind hid hnew _
  | store slot value =>
    have hslot : slot ≠ e.old := by
      rintro rfl
      simp [hk, Kind.written, Kind.counters] at hold
    have hv := hop value (by simp [hk, Kind.operands])
    simp only [Stmt.mapKind, hk, Kind.replace, Kind.mapOperands, hv, if_neg hslot]
    exact h.write hslot _
  | atomic op slot value =>
    have hslot : slot ≠ e.old := by
      rintro rfl
      simp [hk, Kind.written, Kind.counters] at hold
    have hv := hop value (by simp [hk, Kind.operands])
    have hc := h.contents hslot (hread slot (by simp [hk, Kind.slotsRead]))
    simp only [Stmt.mapKind, hk, Kind.replace, Kind.mapOperands, hv, hc, if_neg hslot]
    exact (h.bind hid hnew _).write hslot _
  | _ =>
    simp only [Stmt.mapKind, hk, Kind.replace, Kind.mapOperands]
    exact h

/-- A statement that stays executes in step with itself. -/
theorem Apt.node {G : Observation V → Prop} {first first' second second' : Memory V → Result V}
    (hid : id ≠ e.old) (hfirst : Simulates G e.Matches first first')
    (hsecond : Simulates G e.Matches second second') (h : e.Matches m m')
    (hu : e.Undisturbed I id stmt m) {budget : Nat}
    (hG : ∀ o ∈ (I.node budget id stmt first second m).observations, G o) :
    let r := I.node budget id stmt first second m
    let r' := I.node budget id (stmt.mapKind (Kind.replace e.old e.value)) first' second' m'
    r'.signal = r.signal ∧ r'.prints = r.prints ∧ e.Matches r.memory r'.memory := by
  have hexec := hapt.exec hp hid h hu
  have hop := fun v hv => hapt.operand hp (v := v) h hu hv
  have hcounters : e.old ∈ stmt.kind.operands → e.value ≠ e.old := hapt.value _ hp
  dsimp only
  unfold Interpretation.node at hG ⊢
  cases hk : stmt.kind with
  | branch cond _ _ _ _ =>
    have hc := hop cond (by simp [hk, Kind.operands])
    simp only [hk, Stmt.mapKind, Kind.replace, Kind.mapOperands, hc] at hG ⊢
    by_cases ht : I.truth (m.value cond) = true
    · simp only [ht, if_true] at hG ⊢
      exact hfirst m m' h hG
    · simp only [ht] at hG ⊢
      exact hsecond m m' h hG
  | loop =>
    simp only [hk, Stmt.mapKind, Kind.replace, Kind.mapOperands] at hG ⊢
    exact hfirst.repeatBody budget m m' h hG
  | leave cond =>
    have hc := hop cond (by simp [hk, Kind.operands])
    simp only [hk, Stmt.mapKind, Kind.replace, Kind.mapOperands, hc]
    exact ⟨trivial, rfl, h⟩
  | print value =>
    have hv := hop value (by simp [hk, Kind.operands])
    simp only [hk, Stmt.mapKind, Kind.replace, Kind.mapOperands, hv]
    exact ⟨trivial, rfl, h⟩
  | rangeFor counter lower upper _ =>
    have hcounter : counter = e.old → e.value ≠ e.old := fun heq =>
      hcounters (by simp [hk, Kind.operands, heq])
    have hl := hop lower (by simp [hk, Kind.operands])
    have hu := hop upper (by simp [hk, Kind.operands])
    simp only [hk, Stmt.mapKind, Kind.replace, Kind.mapOperands, hl, hu] at hG ⊢
    exact hfirst.countBody (fun v _ _ h => h.writeCounter hcounter v) _ m m' h hG
  | structFor counters snode _ =>
    have hcounter : e.old ∈ counters → e.value ≠ e.old := fun hm =>
      hcounters (by simpa [hk, Kind.operands] using hm)
    simp only [hk, Stmt.mapKind, Kind.replace, Kind.mapOperands] at hG ⊢
    exact hfirst.countBody (fun tuple _ _ h => h.writeAll hcounter tuple) _ m m' h hG
  | _ =>
    simp only [hk, Stmt.mapKind, Kind.replace, Kind.mapOperands] at hexec ⊢
    exact ⟨trivial, rfl, hexec⟩

end Statement

theorem node_of_isAccess (h : stmt.kind.isAccess = true)
    (first second : Memory V → Result V) (budget : Nat) (m : Memory V) :
    I.node budget id stmt first second m = ⟨.normal, I.exec id stmt m, []⟩ := by
  unfold Interpretation.node
  cases hk : stmt.kind <;> simp_all [Kind.isAccess]

theorem cell?_exec_const {cs : List Constant} (hk : stmt.kind = .const cs) :
    (I.exec id stmt m).cell? = m.cell? := by
  simp only [Interpretation.exec, hk]
  rfl

/-- The old statement leaves memories matching, if a constant with its value is put in its
place. -/
theorem Matches.put (h : e.Matches m m') {new : StmtId} {newStmt : Stmt}
    (hnew : e.new? = some (new, newStmt)) (hne : new ≠ e.old) {cs : List Constant}
    (hk : newStmt.kind = .const cs)
    (hvalue : (I.exec new newStmt m').value new = (I.exec e.old stmt m).value e.old)
    (halloca : e.value ≠ e.old → stmt.kind ≠ .alloca) :
    e.Matches (I.exec e.old stmt m) (I.exec new newStmt m') where
  value s hs hns := by
    have hsn : s ≠ new := by
      rintro rfl
      exact hns (by simp [newId?, hnew])
    rw [value_exec I hs, value_exec I hsn, h.value s hs hns]
  moved w hw := by
    obtain rfl : new = w := by simpa [newId?, hnew] using hw
    exact hvalue
  cell s hs := by
    rw [cell?_exec_const hk]
    exact h.cell_old s hs
  bare hne := by
    rw [cell?_exec_const hk]
    exact ⟨h.bare_old halloca hne, (h.bare hne).2⟩

/-- The old statement leaves memories matching, if nothing is put in its place. -/
theorem Matches.drop (h : e.Matches m m') (hnew : e.new? = none)
    (halloca : e.value ≠ e.old → stmt.kind ≠ .alloca) : e.Matches (I.exec e.old stmt m) m' where
  value s hs hns := (h.value s hs hns).trans (value_exec I hs).symm
  moved new hn := by simp [newId?, hnew] at hn
  cell := h.cell_old
  bare hne := ⟨h.bare_old halloca hne, (h.bare hne).2⟩

end Exchange

open Exchange in
/-- The rewritten tree is executed in step with the tree it was made from. -/
theorem Tree.run_exchange {e : Exchange} {I : Interpretation V} {root t : Tree} (hapt : e.Apt root)
    (hsub : ∀ p ∈ t.preorder, p ∈ root.preorder) (budget : Nat) :
    Simulates (fun o => ∀ id stmt n, o = .reached id stmt n → e.Undisturbed I id stmt n) e.Matches
      (t.run I budget) ((t.exchange e).run I budget) := by
  induction t with
  | nil => exact fun m m' h _ => ⟨rfl, rfl, h⟩
  | cons id stmt first second rest ih₁ ih₂ ih₃ =>
    simp only [preorder, List.mem_cons, List.mem_append] at hsub
    have ih₁ := ih₁ fun p hp => hsub p (.inr (.inl (.inl hp)))
    have ih₂ := ih₂ fun p hp => hsub p (.inr (.inl (.inr hp)))
    have ih₃ := ih₃ fun p hp => hsub p (.inr (.inr hp))
    have hp := hsub (id, stmt) (.inl rfl)
    rw [exchange]
    by_cases hid : id = e.old
    · subst hid
      rw [if_pos rfl]
      intro m m' h hG
      have hrun : (cons e.old stmt first second .nil).run I budget m =
          ⟨.normal, I.exec e.old stmt m, [.reached e.old stmt m]⟩ := by
        rw [run_single, node_of_isAccess (hapt.old stmt hp)]
      rw [run_cons, hrun, Result.andThen_normal rfl] at hG ⊢
      simp only [List.singleton_append, List.mem_cons, forall_eq_or_imp] at hG
      have hu := hG.1 e.old stmt m rfl
      have halloca : e.value ≠ e.old → stmt.kind ≠ .alloca := fun hne hk =>
        (hapt.declared hne _ hp hk).1 rfl
      cases hnew : e.new? with
      | none => exact ih₃ _ _ (h.drop hnew halloca) hG.2
      | some q =>
        obtain ⟨new, newStmt⟩ := q
        obtain ⟨-, ⟨cs, hk⟩, hfresh⟩ := hapt.new new newStmt hnew
        have hrun' : (cons new newStmt nil nil nil).run I budget m' =
            ⟨.normal, I.exec new newStmt m', [.reached new newStmt m']⟩ := by
          rw [run_single, Interpretation.node_of_hasValue (by simp [hk, Kind.hasValue])]
        dsimp only
        rw [run_cons, hrun', Result.andThen_normal rfl]
        exact ih₃ _ _ (h.put hnew (hfresh _ hp).1 hk (hu.new rfl new newStmt hnew m') halloca) hG.2
    · rw [if_neg hid]
      have hone : Simulates (fun o => ∀ id stmt n, o = .reached id stmt n →
          e.Undisturbed I id stmt n) e.Matches ((cons id stmt first second nil).run I budget)
          ((cons id (stmt.mapKind (Kind.replace e.old e.value)) (first.exchange e)
            (second.exchange e) nil).run I budget) := by
        intro m m' h hG
        rw [run_single] at hG ⊢
        rw [run_single]
        simp only [List.mem_cons, forall_eq_or_imp] at hG
        exact hapt.node hp hid ih₁ ih₂ h (hG.1 id stmt m rfl) hG.2
      intro m m' h hG
      have hseq := hone.andThen ih₃ m m' h
      simp only [← run_cons] at hseq
      exact hseq hG

end KernelIR
