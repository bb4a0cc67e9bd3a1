import KernelIR.Proofs.Completeness

/-!
# Optimizing twice

A slot that offers no rewrite is finished, and the rewrites of other slots come after that. When the
optimizer has come to its end, a second run analyses all slots again.

A finished slot stays without a rewrite, except if a later rewrite opens it again
(`Slot.Reopens`) : a load is forwarded, which makes the values equal that the slot holds at the
end of two branches, or the last statement is taken out that takes the value of an atomic
operation. All other rewrites are nothing to a walk of the slot (`Slot.scan_exchange`).
Optimizing a second time makes no rewrite if no slot of the tree was opened again the first
time (`optimizeSlots_again`).

In `FeedingKernel` a slot is finished while the other one, which it has values from, is taken
out. In `ReopenedKernel` a slot is opened again by a forwarded load.
-/

namespace KernelIR

/-- The value to use in the place of another one. -/
def Exchange.valueOf (e : Exchange) (v : StmtId) : StmtId :=
  if v = e.old then e.value else v

/-- A slot that is neither of the values is not taken for one of them. -/
theorem Exchange.valueOf_eq_iff {e : Exchange} {s : StmtId}
    (h : e.value ≠ e.old → s ≠ e.old ∧ s ≠ e.value) (v : StmtId) : e.valueOf v = s ↔ v = s := by
  unfold valueOf
  by_cases hsame : e.value = e.old <;> grind

/-- Values that differ become equal only if they are the ones of the exchange. -/
theorem Exchange.eq_or_of_map_valueOf {e : Exchange} {a b : Option StmtId}
    (h : a.map e.valueOf = b.map e.valueOf) (hne : a ≠ b) :
    (a = some e.old ∧ b = some e.value) ∨ (a = some e.value ∧ b = some e.old) := by
  unfold valueOf at h
  cases a <;> cases b <;> grind

/-- The state of a walk, with values exchanged. -/
def SlotState.exchange (e : Exchange) (st : SlotState) : SlotState :=
  st.relabel (fun s => s) e.valueOf

theorem SlotState.lastAtomic?_exchange (e : Exchange) (st : SlotState) :
    (st.exchange e).lastAtomic? = st.lastAtomic? := by
  simp [exchange, relabel]

theorem SlotState.deadStore?_exchange (e : Exchange) (st : SlotState) :
    Slot.deadStore? (st.exchange e) = Slot.deadStore? st := by
  simp [Slot.deadStore?, exchange, relabel]

/-- Branches are joined to the same with values exchanged, if they do not end with the two values
that become equal. -/
theorem SlotState.mergeIf_exchange {e : Exchange} (st : SlotState) {thenState elseState : SlotState}
    (hnot : ¬(thenState.forwardable? = some e.old ∧ elseState.forwardable? = some e.value))
    (hnot' : ¬(thenState.forwardable? = some e.value ∧ elseState.forwardable? = some e.old)) :
    (st.exchange e).mergeIf (thenState.exchange e) (elseState.exchange e) =
      (st.mergeIf thenState elseState).exchange e := by
  refine mergeIf_relabel _ _ _ Function.injective_id fun hholds hholds' heq => ?_
  by_contra hne
  rcases Exchange.eq_or_of_map_valueOf heq hne with ⟨hthen, helse⟩ | ⟨hthen, helse⟩
  · exact hnot ⟨(if_pos hholds).trans hthen, (if_pos hholds').trans helse⟩
  · exact hnot' ⟨(if_pos hholds).trans hthen, (if_pos hholds').trans helse⟩

namespace Slot

variable {slot : Slot} {id : StmtId} {stmt : Stmt} {first second rest t root : Tree}
  {st st' : SlotState} {scope : List StmtId}

/-- A branch is next at whose end the slot holds `v` if the first block was executed, and `w` if
it was the second one. -/
def Joins (slot : Slot) (v w : StmtId) (x : Point) : Prop :=
  ∃ id stmt first second rest thenState elseState,
    x.tree = .cons id stmt first second rest ∧ slot.action stmt.kind = .branch false ∧
      slot.scan first x.state = .ok thenState ∧ slot.scan second x.state = .ok elseState ∧
      thenState.forwardable? = some v ∧ elseState.forwardable? = some w

/-- An access that does not name the slot is nothing to its walk. -/
theorem action_eq_pass_of_not_mem {k : Kind} (haccess : k.isAccess = true)
    (h : slot.id ∉ k.operands) : slot.action k = .pass := by
  cases k with
  | alloca => rfl
  | load lanes =>
    have hany : lanes.any (·.slot == slot.id) = false := by
      simpa [Kind.operands] using h
    simp [action, hany]
  | store s v | atomic op s v =>
    have hs : s ≠ slot.id := fun heq => h (by simp [Kind.operands, heq])
    exact if_neg hs
  | _ => cases haccess

section Exchange

variable {e : Exchange}

/-- A walk goes past a load under other labels, too. -/
theorem scanLoad_relabel {f g : StmtId → StmtId} (hg : ∀ v, g v = slot.id ↔ v = slot.id)
    {load : StmtId} (h : slot.scanLoad load stmt st = .ok st') :
    slot.scanLoad load (stmt.mapKind (Kind.rename g)) (st.relabel f g) = .ok (st'.relabel f g) := by
  obtain rfl := scanLoad_eq_ok h
  have hforward : (st'.relabel f g).forwardable? = st'.forwardable?.map g :=
    (apply_ite (Option.map g) (st'.storeHolds = true) st'.lastValue? none).symm
  unfold scanLoad at h ⊢
  rw [Stmt.mapKind, hforward, Kind.isRegularLoadOf_rename hg,
    show (st'.relabel f g).readsZero = st'.readsZero from rfl]
  split at h
  · next htype => simp [htype]
  · next type htype =>
    simp only [htype]
    split at h
    · next hwhole => rw [if_pos hwhole]
    · next hwhole =>
      rw [if_neg hwhole]
      split at h
      · cases h
      · next hzero =>
        rw [if_neg hzero]
        split at h
        · cases h
        · next hnone => rw [hnone]; rfl

/-- A walk that comes to its end comes there, too, with values exchanged, if these are not joined
on the way. -/
theorem scan_exchange (hapt : e.Apt t) (ht : t.Shaped)
    (hslot : e.value ≠ e.old → slot.id ≠ e.old ∧ slot.id ≠ e.value)
    (hold : ∀ stmt, (e.old, stmt) ∈ t.preorder → slot.id ∉ stmt.kind.operands)
    (hjoins : ∀ x, slot.Reaches ⟨t, scope, st⟩ x →
      ¬slot.Joins e.old e.value x ∧ ¬slot.Joins e.value e.old x)
    (h : slot.scan t st = .ok st') :
    slot.scan (t.exchange e) (st.exchange e) = .ok (st'.exchange e) := by
  have hg := Exchange.valueOf_eq_iff hslot
  induction t generalizing scope st st' with
  | nil =>
    obtain rfl := Except.ok.inj h
    rfl
  | cons s stmt first second rest ih₁ ih₂ ih₃ =>
    obtain ⟨hapt₁, hapt₂, hapt₃⟩ := hapt.of_cons
    obtain ⟨mid, hv, hr⟩ := scan_cons_eq_ok h
    have hfrom : ∀ {y : Point}, slot.Next ⟨.cons s stmt first second rest, scope, st⟩ y →
        ∀ x, slot.Reaches y x → ¬slot.Joins e.old e.value x ∧ ¬slot.Joins e.value e.old x :=
      fun hn x hx => hjoins x (.head hn hx)
    have ih₁ := fun {st st'} => @ih₁ st st' scope hapt₁ ht.2.2.1 fun u hu =>
      hold u (by simp [Tree.preorder, hu])
    have ih₂ := fun {st st'} => @ih₂ st st' scope hapt₂ ht.2.2.2.1 fun u hu =>
      hold u (by simp [Tree.preorder, hu])
    have ih₃ := ih₃ hapt₃ ht.2.2.2.2 (fun u hu => hold u (by simp [Tree.preorder, hu]))
      (hfrom (.after hv)) hr
    rw [Tree.exchange]
    split
    · next hid =>
      -- the statement that is taken out is nothing to the walk, and neither is a constant
      subst hid
      have haction := action_eq_pass_of_not_mem (hapt.old stmt List.mem_cons_self)
        (hold stmt List.mem_cons_self)
      rw [visit, haction] at hv
      obtain rfl := Except.ok.inj hv
      cases hnew : e.new? with
      | none => exact ih₃
      | some p =>
        obtain ⟨-, ⟨cs, hk⟩, -⟩ := hapt.new p.1 p.2 hnew
        dsimp only
        rw [scan_cons, visit, hk]
        exact ih₃
    · next hid =>
      suffices hvisit : slot.visit s (stmt.mapKind (Kind.replace e.old e.value)) (first.exchange e)
          (second.exchange e) (st.exchange e) = .ok (mid.exchange e) by
        rw [scan_cons, hvisit]
        exact ih₃
      have haction : slot.action (stmt.mapKind (Kind.replace e.old e.value)).kind =
          (slot.action stmt.kind).rename e.valueOf := action_rename hg
      rw [visit, haction]
      cases visited_of_visit hv with
      | pass ha | store ha | atomic ha =>
        rw [ha]
        rfl
      | load ha =>
        rw [visit, ha] at hv
        rw [ha]
        dsimp only [Action.rename]
        rw [SlotState.exchange, SlotState.load_relabel]
        exact scanLoad_relabel hg hv
      | @branch ha thenState elseState hthen helse =>
        rw [ha]
        simp only [Action.rename, Bool.false_eq_true, if_false, ih₁ (hfrom (.first ha)) hthen,
          ih₂ (hfrom (.second ha hthen)) helse]
        have hjoin : ∀ {v w : StmtId}, thenState.forwardable? = some v ∧
            elseState.forwardable? = some w →
            slot.Joins v w ⟨.cons s stmt first second rest, scope, st⟩ := fun hends =>
          ⟨s, stmt, first, second, rest, thenState, elseState, rfl, ha, hthen, helse, hends⟩
        obtain ⟨hnot, hnot'⟩ := hjoins _ .refl
        exact congrArg Except.ok (SlotState.mergeIf_exchange st (fun hends => hnot (hjoin hends))
          fun hends => hnot' (hjoin hends))
      | inner ha hregion hbody =>
        rw [ha]
        change slot.scanLoop s false (slot.scan (first.exchange e)) (st.exchange e) = _
        exact scanLoop_eq_ok_iff.2 ⟨fun hb => absurd hb Bool.false_ne_true,
          .inl ⟨hregion, ih₁ (hfrom (.inner ha hregion)) hbody⟩⟩
      | @loop binds ha hbinds hregion bodyEnd hbody =>
        rw [ha]
        have hmerge : (st.exchange e).mergeLoop (bodyEnd.exchange e) binds =
            (st.mergeLoop bodyEnd binds).exchange e := SlotState.mergeLoop_relabel st bodyEnd binds
        change slot.scanLoop s binds (slot.scan (first.exchange e)) (st.exchange e) = _
        refine scanLoop_eq_ok_iff.2 ⟨hbinds, .inr ⟨hregion, bodyEnd.exchange e,
          ih₁ (hfrom (.body ha hbinds hregion)) hbody, hmerge, fun hrewalk => ?_⟩⟩
        have hrewalk : st.needsRewalk bodyEnd binds = true := hrewalk
        obtain ⟨again, hagain⟩ := exists_scan_of_needsRewalk ha hregion hbody hrewalk hv
        rw [hmerge]
        exact ⟨_, ih₁ (hfrom (.again ha hregion hbody hrewalk)) hagain⟩

/-- Whether statements take a slot does not change if none of them is taken out. -/
theorem isTaken_exchange (hapt : e.Apt t) (ht : t.Shaped)
    (hslot : e.value ≠ e.old → slot.id ≠ e.old ∧ slot.id ≠ e.value)
    (hold : ∀ stmt, (e.old, stmt) ∈ t.preorder → slot.id ∉ stmt.kind.operands) :
    isTaken (t.exchange e) slot.id = isTaken t slot.id := by
  have hiff := Tree.forall_exchange hapt ht (respects_names hapt hslot hold)
  simp only [List.contains_eq_mem, decide_eq_false_iff_not, ← Context.isTaken_eq_false_iff] at hiff
  rw [← Bool.not_eq_true, ← Bool.not_eq_true, not_iff_not] at hiff
  exact Bool.eq_iff_iff.2 hiff

end Exchange

/-- What the slot holds at the end of a branch has been stored to it. -/
theorem Joins.exists_stores {v w : StmtId} {x : Point} (h : slot.Joins v w x)
    (hx : Point.Inv slot root x) {isSlot : StmtId → Bool}
    (hroot : ∀ p ∈ root.sites [], p.Fits isSlot) :
    (∃ p ∈ root.preorder, slot.action p.2.kind = .store v) ∧
      ∃ p ∈ root.preorder, slot.action p.2.kind = .store w := by
  have hstored : ∀ {scope : List StmtId} {st : SlotState} {u : StmtId}, slot.Tracks root scope st →
      st.forwardable? = some u → ∃ p ∈ root.preorder, slot.action p.2.kind = .store u := by
    intro scope st u htracks hu
    obtain ⟨hholds, hvalue⟩ := Option.ite_none_right_eq_some.1 hu
    obtain ⟨s, v, stmt, -, hv, -, hm, ha⟩ := htracks.holds hholds
    obtain rfl := Option.some.inj (hvalue.symm.trans hv)
    exact ⟨(s, stmt), hm, ha⟩
  obtain ⟨t, scope, st⟩ := x
  obtain ⟨id, stmt, first, second, rest, thenState, elseState, rfl, -, hthen, helse, hv, hw⟩ := h
  exact ⟨hstored (hx.intoFirst.scan hroot hthen) hv, hstored (hx.intoSecond.scan hroot helse) hw⟩

/-- An analysis of the slot asks for nothing. -/
def Settled (slot : Slot) (root : Tree) : Prop :=
  slot.analyze root (isTaken root slot.id) = .ok ()

/-- A rewrite of the slot `other` opens this slot again. -/
inductive Reopens (slot : Slot) (root : Tree) (other : StmtId) (rewrite : Rewrite) : Prop where
  /-- A load is forwarded whose value the slot holds at the end of one branch, while it holds the
  value that comes in its place at the end of the other one. -/
  | join {load value : StmtId} {x : Point} (forward : rewrite = .forward load value)
    (walk : slot.Walks root x) (joins : slot.Joins load value x ∨ slot.Joins value load x)
  /-- Nothing has read what the latest atomic operation wrote, and nothing but the statement that
  is taken out takes its value. -/
  | atomic {st : SlotState} {s : StmtId}
    (scan : slot.scan slot.following (.start .outside) = .ok st) (last : st.lastAtomic? = some s)
    (unread : st.atomicUnread = true)
    (only : ∀ p ∈ root.preorder, s ∈ p.2.kind.operands → p.1 = rewrite.old other)

/-- A walk only looks at the statements that it is given. -/
theorem scan_following (slot : Slot) (following : Tree) :
    Slot.scan { slot with following := following } = slot.scan := by
  funext t
  induction t with
  | nil => rfl
  | cons id stmt first second rest ih₁ ih₂ ih₃ =>
    funext st
    rw [scan_cons, scan_cons, visit, visit, ih₁, ih₂, ih₃]
    rfl

/-- At the end of a walk nothing is left to take out. -/
theorem leftover?_eq_none_iff {used : Bool} : leftover? root used st = none ↔
    deadStore? st = none ∧ deadAtomic? root st = none ∧ deadAlloca? used st = none := by
  simp [leftover?]

/-- The latest atomic operation is read, or its value is taken. -/
theorem deadAtomic?_eq_none_iff : deadAtomic? root st = none ↔ ∀ s, st.lastAtomic? = some s →
    st.atomicUnread = true → ∃ p ∈ root.preorder, s ∈ p.2.kind.operands := by
  unfold deadAtomic?
  cases st.lastAtomic? with
  | none => simp
  | some s =>
    have htaken := not_congr (@Context.isTaken_eq_false_iff root s)
    simp only [Bool.not_eq_false, not_forall, not_not] at htaken
    cases hunread : st.atomicUnread <;> simp [htaken]

end Slot

namespace Context

variable {c : Context} {root : BlockId} {strict : Bool} {slot : Slot}

/-- Whether a slot is used can be told from the tree. -/
theorem Kept.analyze_eq (h : c.Kept strict root) (hslot : slot ∈ (c.tree root).slots) :
    slot.analyze (c.tree root) (c.chain slot.id ≠ []) =
      slot.analyze (c.tree root) (Slot.isTaken (c.tree root) slot.id) := by
  obtain ⟨declaration, scope, hsite, halloca, -⟩ := h.exists_site_of_mem_slots hslot
  have hchain := h.chain_eq_nil_iff (Tree.mem_preorder_of_mem_sites hsite)
    (by rw [show declaration.kind = .alloca from halloca]; rfl)
  rw [← isTaken_eq_false_iff] at hchain
  congr 1
  cases htaken : Slot.isTaken (c.tree root) slot.id <;> simp [hchain, htaken]

section Settled

variable {q : Slot} {rewrite : Rewrite}

/-- A rewrite that does not open a slot makes no values equal that are joined. -/
theorem Kept.not_joins (h : c.Kept strict root) (ha : c.Allows (c.tree root) slot rewrite)
    (hq : q ∈ (c.tree root).slots) (hopens : ¬q.Reopens (c.tree root) slot.id rewrite)
    {block? : Option BlockId} {e : Exchange}
    (he : rewrite.exchange slot.id ⟨c.stmts.size⟩ block? = e) {x : Slot.Point}
    (hx : q.Walks (c.tree root) x) : ¬q.Joins e.old e.value x ∧ ¬q.Joins e.value e.old x := by
  have hapt := h.apt ha block?
  rw [he] at hapt
  by_contra! hjoins
  have hjoins : q.Joins e.old e.value x ∨ q.Joins e.value e.old x := by tauto
  -- both values are stored to the slot
  obtain ⟨⟨p, hp, hold⟩, r, hr, hvalue⟩ :
      (∃ p ∈ (c.tree root).preorder, q.action p.2.kind = .store e.old) ∧
        ∃ p ∈ (c.tree root).preorder, q.action p.2.kind = .store e.value := by
    have hinv := hx.inv (shaped_tree c root) h.nodup h.valid.fits hq
    rcases hjoins with hj | hj
    · exact hj.exists_stores hinv h.valid.fits
    · exact (hj.exists_stores hinv h.valid.fits).symm
  have hne := hapt.value p hp (by simp [Slot.action_eq_store hold, Kind.operands])
  have hmem : e.value ∈ r.2.kind.operands := by simp [Slot.action_eq_store hvalue, Kind.operands]
  cases rewrite with
  | zeroFold load type =>
    subst he
    exact ((hapt.new _ _ rfl).2.2 r hr).2 hmem
  | forward load value =>
    subst he
    exact hopens (.join rfl hx hjoins)
  | deadStore | deadAtomic | deadAlloca =>
    subst he
    exact hne rfl

/-- The value of an atomic operation is still taken if a rewrite elsewhere does not take out the
last statement that takes it. -/
theorem Kept.deadAtomic?_exchange (h : c.Kept strict root)
    (ha : c.Allows (c.tree root) slot rewrite) (hq : q ∈ (c.tree root).slots) (hne : q.id ≠ slot.id)
    (hopens : ¬q.Reopens (c.tree root) slot.id rewrite) {block? : Option BlockId} {e : Exchange}
    (he : rewrite.exchange slot.id ⟨c.stmts.size⟩ block? = e) {st : SlotState}
    (hscan : q.scan q.following (.start .outside) = .ok st)
    (hatomic : Slot.deadAtomic? (c.tree root) st = none) :
    Slot.deadAtomic? ((c.tree root).exchange e) (st.exchange e) = none := by
  have hapt := h.apt ha block?
  have holdId := rewrite.old_exchange slot.id ⟨c.stmts.size⟩ block?
  rw [he] at hapt holdId
  refine Slot.deadAtomic?_eq_none_iff.2 fun s hs hunread => ?_
  rw [SlotState.lastAtomic?_exchange] at hs
  obtain ⟨p, hp, hop⟩ := Slot.deadAtomic?_eq_none_iff.1 hatomic s hs hunread
  obtain ⟨p, hp, hop, hstays⟩ : ∃ p ∈ (c.tree root).preorder, s ∈ p.2.kind.operands ∧
      p.1 ≠ e.old := by
    by_contra! hall
    exact hopens (.atomic hscan hs hunread fun p hp hop => (hall p hp hop).trans holdId)
  -- the operation itself names the slot, and is not taken out
  have hs' : s ≠ e.old := by
    rintro rfl
    obtain ⟨_, _, -, -, -, hstart⟩ := h.exists_site_of_mem_slots hq
    obtain ⟨u, hu, haction⟩ := (hstart.scan h.valid.fits hscan).atomic _ hs
    obtain ⟨op, v, hkind⟩ := Slot.action_eq_atomic haction
    exact h.not_mem_operands_old ha hq hne (holdId ▸ hu) (by simp [hkind, Kind.operands])
  refine ⟨_, Exchange.mem_preorder_exchange_of_ne hapt (shaped_tree c root) hp hstays, ?_⟩
  rw [Stmt.mapKind, Kind.operands_replace]
  exact List.mem_map.2 ⟨s, hop, if_neg hs'⟩

/-- A slot stays settled if a rewrite elsewhere does not open it again. -/
theorem Kept.settled_exchange (h : c.Kept strict root) (ha : c.Allows (c.tree root) slot rewrite)
    (hq : q ∈ (c.tree root).slots) (hne : q.id ≠ slot.id) (hsettled : q.Settled (c.tree root))
    (hopens : ¬q.Reopens (c.tree root) slot.id rewrite) {block? : Option BlockId} {e : Exchange}
    (he : rewrite.exchange slot.id ⟨c.stmts.size⟩ block? = e) :
    Slot.Settled { q with following := q.following.exchange e } ((c.tree root).exchange e) := by
  have hapt := h.apt ha block?
  have holdId := rewrite.old_exchange slot.id ⟨c.stmts.size⟩ block?
  rw [he] at hapt holdId
  obtain ⟨declaration, scope, hsite, halloca, -, hstart⟩ := h.exists_site_of_mem_slots hq
  have hsub := (Slot.subset_of_mem_slots hq).2
  have hnames := fun hne => hapt.declared hne _ (Tree.mem_preorder_of_mem_sites hsite) halloca
  have hold : ∀ stmt, (e.old, stmt) ∈ (c.tree root).preorder → q.id ∉ stmt.kind.operands :=
    fun stmt hm => h.not_mem_operands_old ha hq hne (holdId ▸ hm)
  obtain ⟨st, hscan, hleft⟩ := Slot.analyze_eq_ok hsettled
  obtain ⟨hstore, hatomic, hunused⟩ := Slot.leftover?_eq_none_iff.1 hleft
  have hscan' : q.scan (q.following.exchange e) (.start .outside) = .ok (st.exchange e) :=
    Slot.scan_exchange (hapt.mono hsub) hstart.shaped hnames (fun stmt hm => hold stmt (hsub hm))
      (fun x hx => h.not_joins ha hq hopens he ⟨_, hsite, rfl, hx⟩) hscan
  have hleft' : Slot.leftover? ((c.tree root).exchange e)
      (Slot.isTaken ((c.tree root).exchange e) q.id) (st.exchange e) = none := by
    rw [Slot.isTaken_exchange hapt (shaped_tree c root) hnames hold]
    exact Slot.leftover?_eq_none_iff.2 ⟨(st.deadStore?_exchange e).trans hstore,
      h.deadAtomic?_exchange ha hq hne hopens he hscan hatomic, hunused⟩
  rw [Slot.Settled, Slot.analyze, Slot.scan_following, hscan']
  dsimp only [bind, Except.bind]
  rw [hleft']
  rfl

end Settled

/-- A sweep over slots without a rewrite does not end early. -/
theorem halt?_sweep_eq_none {c : Context} {t : Tree} {slots : List Slot} (finished : List StmtId)
    (h : ∀ slot ∈ slots, slot.analyze t (c.chain slot.id ≠ []) = .ok ()) :
    (c.sweep t slots finished).halt? = none := by
  cases hhalt : (c.sweep t slots finished).halt? with
  | none => rfl
  | some p =>
    obtain ⟨s, halt⟩ := p
    obtain ⟨slot, hslot, -, -, ha⟩ := sweep_halt hhalt
    rw [h slot hslot] at ha
    cases ha

end Context

namespace Work

variable {root : BlockId} {w w' : Work} {strict : Bool} {stats : Stats}

/-- The next sweep opens a finished slot again. -/
def Reopens (root : BlockId) (w : Work) (s : StmtId) : Prop :=
  ∃ slot rewrite, (w.sweep root).halt? = some (slot, .rewrite rewrite) ∧
    s ∈ (w.sweep root).finished ∧
    ∃ q ∈ (w.context.tree root).slots, q.id = s ∧ q.Reopens (w.context.tree root) slot rewrite

/-- The slot offers no rewrite, or has been opened again. -/
def SettledOrReopened (root : BlockId) (w : Work) (slot : Slot) (t : Tree) : Prop :=
  slot.Settled t ∨ ∃ v, Reaches root w v ∧ v.Reopens root slot.id

theorem HoldsOfFinished.sweep_settled {start : Work}
    (h : w.HoldsOfFinished root (start.SettledOrReopened root)) (hw : w.context.Kept strict root) :
    ∀ slot ∈ (w.context.tree root).slots, slot.id ∈ (w.sweep root).finished →
      start.SettledOrReopened root slot (w.context.tree root) :=
  h.sweep hw fun _ hslot ha => .inl ((hw.analyze_eq hslot).symm.trans ha)

/-- The finished slots offer no rewrite, except for those that have been opened again. -/
theorem Reaches.settled (h : Reaches root w w') (hw : w.context.Kept strict root)
    (hstart : w.progress.finished = []) : w'.HoldsOfFinished root (w.SettledOrReopened root) := by
  induction h with
  | refl => simp [HoldsOfFinished, hstart]
  | @tail v v' hreach hstep ih =>
    have hv := Reaches.kept hreach hw
    obtain ⟨-, slot, rewrite, hmakes⟩ := hstep.makes hv
    refine hmakes.holdsOfFinished hv rfl fun q hq hfinished hne => ?_
    rcases ih.sweep_settled hv q hq hfinished with hsettled | hopened
    · by_cases hopens : q.Reopens (v.context.tree root) slot.id rewrite
      · exact .inr ⟨v, hreach, slot.id, rewrite, hmakes.halt, hfinished, q, hq, rfl, hopens⟩
      · exact .inl (hv.settled_exchange hmakes.allows hq hne hsettled hopens rfl)
    · exact .inr hopened

/-- A kernel that the optimizer has accepted is accepted again. -/
theorem Settles.exists_ok (h : w.Settles root (.ok stats)) (hw : w.context.Kept strict root)
    (hclean : w.Clean root) : ∃ events' stats' c',
      optimizeSlots root none w.context = .ok (⟨events', .ok stats'⟩, c') := by
  have hfirst := h.eq_error_iff hw hclean
  obtain ⟨⟨events', result⟩, w', hrun, hreach, hsettles⟩ := hw.optimizeSlots_none
  obtain ⟨hclean', hkept⟩ := hreach.firstOffence?_eq hw fun _ _ hm => absurd hm List.not_mem_nil
  cases result with
  | ok stats' => exact ⟨events', stats', w'.context, hrun⟩
  | error error =>
    have herror := (hsettles.eq_error_iff (hreach.kept hw) hclean' error).1 rfl
    cases (hfirst error).2 (hkept.symm.trans herror)

end Work

/-- Optimizing changes nothing if no slot offers a rewrite. -/
theorem Context.Kept.optimizeSlots_eq_of_settled {c : Context} {root : BlockId} {strict : Bool}
    (h : c.Kept strict root) (hall : ∀ slot ∈ (c.tree root).slots, slot.Settled (c.tree root)) :
    ∃ events, KernelIR.optimizeSlots root none c =
      .ok (⟨events, .ok (Work.start c).final⟩, c) := by
  have hhalt : ((Work.start c).sweep root).halt? = none :=
    Context.halt?_sweep_eq_none [] fun slot hslot => (h.analyze_eq hslot).trans (hall slot hslot)
  have hrun := Work.sweeps_succ (w := .start c) h.present
    ((c.tree root).find fun _ stmt => stmt.kind.isAccess).length
  rw [hhalt] at hrun
  exact ⟨_, hrun⟩

/-- A verified kernel that has been optimized to the end is accepted a second time, and nothing
changes if no slot that is left was opened again after it had been finished. -/
theorem optimizeSlots_again {c c' : Context} {kernel : Kernel} (h : c.Verified kernel)
    {events : List Event} {stats : Stats}
    (hrun : optimizeSlots kernel.body none c = .ok (⟨events, .ok stats⟩, c')) :
    ∃ events' stats' c'', optimizeSlots kernel.body none c' = .ok (⟨events', .ok stats'⟩, c'') ∧
      ((∀ slot ∈ (c'.tree kernel.body).slots, ∀ w, (Work.start c).Reaches kernel.body w →
          ¬w.Reopens kernel.body slot.id) →
        c'' = c' ∧ stats'.totalRewrites = 0 ∧ stats'.sweeps = 1) := by
  obtain ⟨outcome, w, hrun', hreach, hsettles⟩ := h.kept.optimizeSlots_none
  obtain ⟨rfl, rfl⟩ := Prod.mk.inj (Except.ok.inj (hrun.symm.trans hrun'))
  have hw := hreach.kept h.kept
  obtain ⟨hclean, -⟩ := hreach.firstOffence?_eq h.kept fun _ _ hm => absurd hm List.not_mem_nil
  obtain ⟨events', stats', c'', hagain⟩ := hsettles.exists_ok hw hclean
  refine ⟨events', stats', c'', hagain, fun hopened => ?_⟩
  have hall : ∀ slot ∈ (w.context.tree kernel.body).slots,
      slot.Settled (w.context.tree kernel.body) := fun slot hslot => by
    cases hsettles with
    | fixpoint hhalt =>
      refine ((hreach.settled h.kept rfl).sweep_settled hw slot hslot
        (Context.mem_finished_of_halt?_eq_none hhalt slot hslot)).resolve_right ?_
      rintro ⟨v, hv, hopens⟩
      exact hopened slot hslot v hv hopens
  obtain ⟨_, hsame⟩ := hw.optimizeSlots_eq_of_settled hall
  obtain ⟨houtcome, rfl⟩ := Prod.mk.inj (Except.ok.inj (hagain.symm.trans hsame))
  obtain ⟨-, hstats⟩ := Outcome.mk.inj houtcome
  obtain rfl := Except.ok.inj hstats
  exact ⟨rfl, rfl, rfl⟩

/-! ## Slots that stay as they are -/

namespace Slot

/-- The value is stored to the slot somewhere in the tree. -/
def receives (slot : Slot) (root : Tree) (v : StmtId) : Bool :=
  root.preorder.any fun p => p.2.kind = .store slot.id v

/-- What is taken out, and what comes in its place, is not both stored to the slot, and other
statements take the values of the atomic operations on it. -/
def outlives (slot : Slot) (root : Tree) (other : StmtId) (rewrite : Rewrite) : Bool :=
  (match rewrite with
    | .forward load value => !(slot.receives root load && slot.receives root value)
    | _ => true) &&
  root.preorder.all fun p => match slot.action p.2.kind with
    | .atomic => root.preorder.any fun r => p.1 ∈ r.2.kind.operands ∧ r.1 ≠ rewrite.old other
    | _ => true

end Slot

/-- The statements alone tell that such a slot is not opened again. -/
theorem Context.Kept.not_reopens {c : Context} {root : BlockId} {strict : Bool}
    (h : c.Kept strict root) {slot : Slot} (hslot : slot ∈ (c.tree root).slots) {other : StmtId}
    {rewrite : Rewrite} (hout : slot.outlives (c.tree root) other rewrite = true) :
    ¬slot.Reopens (c.tree root) other rewrite := by
  obtain ⟨hstores, hatomics⟩ := Bool.and_eq_true_iff.1 hout
  rintro (⟨rfl, hwalk, hjoins⟩ | ⟨hscan, hlast, -, honly⟩)
  · have hinv := hwalk.inv (shaped_tree c root) h.nodup h.valid.fits hslot
    have hreceives : ∀ {v : StmtId},
        (∃ p ∈ (c.tree root).preorder, slot.action p.2.kind = .store v) →
        slot.receives (c.tree root) v = true := by
      rintro v ⟨p, hp, ha⟩
      exact List.any_eq_true.2 ⟨p, hp, decide_eq_true (Slot.action_eq_store ha)⟩
    rcases hjoins with hj | hj <;> obtain ⟨hv, hw⟩ := hj.exists_stores hinv h.valid.fits <;>
      simp [hreceives hv, hreceives hw] at hstores
  · obtain ⟨declaration, scope, -, -, -, hstart⟩ := h.exists_site_of_mem_slots hslot
    obtain ⟨u, hu, ha⟩ := (hstart.scan h.valid.fits hscan).atomic _ hlast
    have huser := List.all_eq_true.1 hatomics _ hu
    simp only [ha, List.any_eq_true, decide_eq_true_eq] at huser
    obtain ⟨r, hr, hop, hne⟩ := huser
    exact hne (honly r hr hop)

namespace Work

variable {root : BlockId} {w w' : Work} {strict : Bool}

/-- The finished slots outlive the rewrite of the next sweep. -/
def spares (root : BlockId) (w : Work) : Bool :=
  match (w.sweep root).halt? with
  | some (slot, .rewrite rewrite) => (w.context.tree root).slots.all fun q =>
    q.id ∉ (w.sweep root).finished ∨ q.outlives (w.context.tree root) slot rewrite
  | _ => true

theorem not_reopens_of_spares (h : w.spares root = true) (hw : w.context.Kept strict root)
    (s : StmtId) : ¬w.Reopens root s := by
  rintro ⟨slot, rewrite, hhalt, hfinished, q, hq, rfl, hopens⟩
  rw [spares, hhalt] at h
  have hout := of_decide_eq_true (List.all_eq_true.1 h q hq)
  exact hw.not_reopens hq (hout.resolve_left fun hnot => hnot hfinished) hopens

/-- A test holds of the work in front of all sweeps, which are fewer than the bound. -/
def always (root : BlockId) (p : Work → Bool) : Nat → Work → Bool
  | 0, _ => false
  | bound + 1, w => p w && match (w.sweep root).halt? with
    | some (slot, .rewrite rewrite) =>
      match rewrite.apply slot w.context with
      | .ok (event, c') => always root p bound ⟨w.advance root rewrite event, c'⟩
      | .error _ => true
    | _ => true

theorem Reaches.of_always {p : Work → Bool} (h : Reaches root w w') {bound : Nat}
    (hp : w.always root p bound = true) : p w' = true := by
  induction h using Relation.ReflTransGen.head_induction_on generalizing bound with
  | refl =>
    cases bound with
    | zero => cases hp
    | succ bound => exact (Bool.and_eq_true_iff.1 hp).1
  | head hstep _ ih =>
    cases bound with
    | zero => cases hp
    | succ bound =>
      have hrest := (Bool.and_eq_true_iff.1 hp).2
      cases hstep with
      | mk halt apply =>
        simp only [halt, apply] at hrest
        exact ih hrest

end Work

namespace FeedingKernel

/-- Two slots that get values from each other. -/
def text : List Char :=
  "kernel @k \x7b %c = arg 0 : u1 %v = arg 1 : i32 %w = arg 2 : i32 %a = alloca : i32
    %b = alloca : i32 local_store %b, %v %l = local_load %b : i32 if %c \x7b local_store %a, %l \x7d
    else \x7b local_store %a, %w \x7d %t = atomic_add %a, %l : i32 local_store %b, %t
    print %t \x7d".toList

/-- What the text is parsed to. -/
def context : Context where
  stmts := #[⟨.arg 0, some ⟨.u1, 1⟩, some ⟨0⟩⟩, ⟨.arg 1, some ⟨.i32, 1⟩, some ⟨0⟩⟩,
    ⟨.arg 2, some ⟨.i32, 1⟩, some ⟨0⟩⟩, ⟨.alloca, some ⟨.i32, 1⟩, some ⟨0⟩⟩,
    ⟨.alloca, some ⟨.i32, 1⟩, some ⟨0⟩⟩, ⟨.store ⟨4⟩ ⟨1⟩, none, some ⟨0⟩⟩,
    ⟨.load [⟨⟨4⟩, 0⟩], some ⟨.i32, 1⟩, some ⟨0⟩⟩, ⟨.store ⟨3⟩ ⟨6⟩, none, some ⟨1⟩⟩,
    ⟨.store ⟨3⟩ ⟨2⟩, none, some ⟨2⟩⟩, ⟨.branch ⟨0⟩ none none (some ⟨1⟩) (some ⟨2⟩), none, some ⟨0⟩⟩,
    ⟨.atomic .add ⟨3⟩ ⟨6⟩, some ⟨.i32, 1⟩, some ⟨0⟩⟩, ⟨.store ⟨4⟩ ⟨10⟩, none, some ⟨0⟩⟩,
    ⟨.print ⟨10⟩, none, some ⟨0⟩⟩]
  blocks := #[⟨[⟨0⟩, ⟨1⟩, ⟨2⟩, ⟨3⟩, ⟨4⟩, ⟨5⟩, ⟨6⟩, ⟨9⟩, ⟨10⟩, ⟨11⟩, ⟨12⟩], none⟩,
    ⟨[⟨7⟩], some ⟨9⟩⟩, ⟨[⟨8⟩], some ⟨9⟩⟩]
  uses := [⟨⟨4⟩, ⟨5⟩, 0⟩, ⟨⟨1⟩, ⟨5⟩, 1⟩, ⟨⟨4⟩, ⟨6⟩, 0⟩, ⟨⟨3⟩, ⟨7⟩, 0⟩, ⟨⟨6⟩, ⟨7⟩, 1⟩, ⟨⟨3⟩, ⟨8⟩, 0⟩,
    ⟨⟨2⟩, ⟨8⟩, 1⟩, ⟨⟨0⟩, ⟨9⟩, 0⟩, ⟨⟨3⟩, ⟨10⟩, 0⟩, ⟨⟨6⟩, ⟨10⟩, 1⟩, ⟨⟨4⟩, ⟨11⟩, 0⟩, ⟨⟨10⟩, ⟨11⟩, 1⟩,
    ⟨⟨10⟩, ⟨12⟩, 0⟩]

theorem verified : context.Verified ⟨"k", ⟨0⟩⟩ :=
  have hparse : parseKernel text .empty = .ok (.ok ⟨"k", ⟨0⟩⟩, context) := by decide +kernel
  Parsed.empty.tidy.verified hparse (by decide +kernel)

end FeedingKernel

open FeedingKernel in
/-- Four rewrites are made of the second slot while the first one is finished, and none of them
opens it again. -/
theorem optimizeSlots_again_feeding : context.Verified ⟨"k", ⟨0⟩⟩ ∧
    ((Work.start context).sweep ⟨0⟩).finished = [⟨3⟩] ∧
    ((Work.start context).sweep ⟨0⟩).halt? = some (⟨4⟩, .rewrite (.forward ⟨6⟩ ⟨1⟩)) ∧
    ∃ events stats c' events' stats',
      optimizeSlots ⟨0⟩ none context = .ok (⟨events, .ok stats⟩, c') ∧ stats.totalRewrites = 4 ∧
      (∀ slot ∈ (c'.tree ⟨0⟩).slots, ∀ w, (Work.start context).Reaches ⟨0⟩ w →
        ¬w.Reopens ⟨0⟩ slot.id) ∧
      optimizeSlots ⟨0⟩ none c' = .ok (⟨events', .ok stats'⟩, c') ∧
      stats'.totalRewrites = 0 ∧ stats'.sweeps = 1 := by
  obtain ⟨events, stats, c', hrun, htotal⟩ : ∃ events stats c',
      optimizeSlots ⟨0⟩ none context = .ok (⟨events, .ok stats⟩, c') ∧ stats.totalRewrites = 4 :=
    ⟨_, _, _, rfl, rfl⟩
  have hspares : (Work.start context).always ⟨0⟩ (Work.spares ⟨0⟩) 5 = true := by decide +kernel
  have hopened : ∀ slot ∈ (c'.tree ⟨0⟩).slots, ∀ w, (Work.start context).Reaches ⟨0⟩ w →
      ¬w.Reopens ⟨0⟩ slot.id := fun slot _ w hw =>
    Work.not_reopens_of_spares (hw.of_always hspares) (hw.kept verified.kept) slot.id
  obtain ⟨events', stats', c'', hagain, hsame⟩ := optimizeSlots_again verified hrun
  obtain ⟨rfl, htotal', hsweeps⟩ := hsame hopened
  exact ⟨verified, by decide +kernel, by decide +kernel, events, stats, c'', events', stats', hrun,
    htotal, hopened, hagain, htotal', hsweeps⟩

namespace ReopenedKernel

/-- A kernel whose first slot is written with a load from the second slot in one branch, and
with the value of this load in the other one. -/
def text : List Char :=
  "kernel @k \x7b %a = alloca : i32 %b = alloca : i32 %v = arg 1 : i32 local_store %b, %v
    %c = arg 0 : u1 %l = local_load %b : i32 if %c \x7b local_store %a, %v \x7d else \x7b
    local_store %a, %l \x7d %r = local_load %a : i32 print %r \x7d".toList

/-- What the text is parsed to. -/
def context : Context where
  stmts := #[⟨.alloca, some ⟨.i32, 1⟩, some ⟨0⟩⟩, ⟨.alloca, some ⟨.i32, 1⟩, some ⟨0⟩⟩,
    ⟨.arg 1, some ⟨.i32, 1⟩, some ⟨0⟩⟩, ⟨.store ⟨1⟩ ⟨2⟩, none, some ⟨0⟩⟩,
    ⟨.arg 0, some ⟨.u1, 1⟩, some ⟨0⟩⟩, ⟨.load [⟨⟨1⟩, 0⟩], some ⟨.i32, 1⟩, some ⟨0⟩⟩,
    ⟨.store ⟨0⟩ ⟨2⟩, none, some ⟨1⟩⟩, ⟨.store ⟨0⟩ ⟨5⟩, none, some ⟨2⟩⟩,
    ⟨.branch ⟨4⟩ none none (some ⟨1⟩) (some ⟨2⟩), none, some ⟨0⟩⟩,
    ⟨.load [⟨⟨0⟩, 0⟩], some ⟨.i32, 1⟩, some ⟨0⟩⟩, ⟨.print ⟨9⟩, none, some ⟨0⟩⟩]
  blocks := #[⟨[⟨0⟩, ⟨1⟩, ⟨2⟩, ⟨3⟩, ⟨4⟩, ⟨5⟩, ⟨8⟩, ⟨9⟩, ⟨10⟩], none⟩, ⟨[⟨6⟩], some ⟨8⟩⟩,
    ⟨[⟨7⟩], some ⟨8⟩⟩]
  uses := [⟨⟨1⟩, ⟨3⟩, 0⟩, ⟨⟨2⟩, ⟨3⟩, 1⟩, ⟨⟨1⟩, ⟨5⟩, 0⟩, ⟨⟨0⟩, ⟨6⟩, 0⟩, ⟨⟨2⟩, ⟨6⟩, 1⟩, ⟨⟨0⟩, ⟨7⟩, 0⟩,
    ⟨⟨5⟩, ⟨7⟩, 1⟩, ⟨⟨4⟩, ⟨8⟩, 0⟩, ⟨⟨0⟩, ⟨9⟩, 0⟩, ⟨⟨9⟩, ⟨10⟩, 0⟩]

end ReopenedKernel

open ReopenedKernel in
/-- A second time the optimizer finds four more rewrites. -/
theorem exists_rewrite_again : parseKernel text .empty = .ok (.ok ⟨"k", ⟨0⟩⟩, context) ∧
    context.verify ⟨"k", ⟨0⟩⟩ = .ok () ∧
    ∃ outcome stats c' outcome' stats' c'', optimizeSlots ⟨0⟩ none context = .ok (outcome, c') ∧
      outcome.result = .ok stats ∧ stats.reachedFixpoint = true ∧
      optimizeSlots ⟨0⟩ none c' = .ok (outcome', c'') ∧ outcome'.result = .ok stats' ∧
      stats'.totalRewrites = 4 ∧ stats'.sweeps = 5 :=
  ⟨by decide +kernel, by decide +kernel, _, _, _, _, _, _, rfl, rfl, rfl, rfl, rfl, rfl, rfl⟩

end KernelIR
