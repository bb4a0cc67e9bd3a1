import KernelIR.Proofs.Meaning

/-!
# The optimizer keeps types

A statement never changes its type, whatever happens in a context (`Context.type?_of_steps`). So
an operand changes its type only if another value takes its place. A load is replaced by
zeros of its own type, or by a value that was stored in a slot of that type. If what is stored
has the type of the slot (`Context.StoresTyped`), then whatever the limit of sweeps is, the
operands of an optimized kernel have the types that they had before
(`operandTypes_of_optimizeSlots`).

Nobody checks what is stored : `MistypedKernel` is valid, and its optimized form prints a
value of another type.
-/

namespace KernelIR

namespace Context

variable {c c' : Context} {s : StmtId} {stmt : Stmt}

/-! ## Types in a context -/

/-- The types of the operands of a statement. -/
def operandTypes (c : Context) (s : StmtId) : List (Option ValueType) :=
  (c.operandsOf s).map c.type?

theorem type?_of_stmt? (h : c.stmt? s = some stmt) : c.type? s = stmt.type? := by
  simp [type?, h]

theorem operandTypes_of_stmt? (h : c.stmt? s = some stmt) :
    c.operandTypes s = stmt.kind.operands.map c.type? := by
  rw [operandTypes, operandsOf_of_stmt? h]

/-- No operation removes a statement or changes its type. -/
theorem Step.exists_stmt? (h : Step c c') (hs : c.stmt? s = some stmt) :
    ∃ stmt', c'.stmt? s = some stmt' ∧ stmt'.type? = stmt.type? := by
  have hlist : ∀ b i t, ∃ stmt', (c.list b i t).stmt? s = some stmt' ∧
    stmt'.type? = stmt.type? := by
    intro b i t
    rw [stmt?_list, hs]
    split <;> exact ⟨_, rfl, rfl⟩
  have hunlist : ∀ b i t, ∃ stmt', (c.unlist b i t).stmt? s = some stmt' ∧
      stmt'.type? = stmt.type? := by
    intro b i t
    rw [stmt?_unlist, hs]
    split <;> exact ⟨_, rfl, rfl⟩
  cases h with
  | createBlock hc =>
    obtain ⟨-, rfl⟩ := createBlock_eq_ok hc
    exact ⟨stmt, hs, rfl⟩
  | createStmt hc =>
    have hcr := createStmt_eq_ok hc
    rw [hcr.stmt?, if_neg, hs]
    · exact ⟨stmt, rfl, rfl⟩
    · rintro rfl
      simp [hcr.id_eq, Context.stmt?] at hs
  | push hc =>
    obtain ⟨_, block, -, -, -, rfl⟩ := push_eq_ok hc
    exact hlist _ _ _
  | insertAfter hc =>
    obtain ⟨_, b, i, -, -, -, rfl⟩ := insertAfter_eq_ok hc
    exact hlist _ _ _
  | erase hc =>
    obtain ⟨b, i, -, -, rfl⟩ := erase_eq_ok hc
    exact hunlist _ _ _
  | eraseAt hc =>
    obtain ⟨t, -, -, rfl⟩ := eraseAt_eq_ok hc
    exact hunlist _ _ _
  | replaceAllUses hc =>
    rcases replaceAllUses_eq_ok hc with rfl | ⟨-, rfl⟩
    · exact ⟨stmt, hs, rfl⟩
    · rw [stmt?_redirected, hs]
      exact ⟨_, rfl, rfl⟩

theorem exists_stmt?_of_steps (h : Relation.ReflTransGen Step c c') (hs : c.stmt? s = some stmt) :
    ∃ stmt', c'.stmt? s = some stmt' ∧ stmt'.type? = stmt.type? := by
  induction h with
  | refl => exact ⟨stmt, hs, rfl⟩
  | tail _ hstep ih =>
    obtain ⟨stmt', hs', htype⟩ := ih
    obtain ⟨stmt'', hs'', htype'⟩ := hstep.exists_stmt? hs'
    exact ⟨stmt'', hs'', htype'.trans htype⟩

theorem type?_of_steps (h : Relation.ReflTransGen Step c c') (hs : (c.stmt? s).isSome = true) :
    c'.type? s = c.type? s := by
  obtain ⟨stmt, hs⟩ := Option.isSome_iff_exists.1 hs
  obtain ⟨stmt', hs', htype⟩ := exists_stmt?_of_steps h hs
  rw [type?_of_stmt? hs, type?_of_stmt? hs', htype]

end Context

/-- A computation on a context that succeeds does so step by step. -/
theorem Edit.exists_of_bind {α β : Type} {x : Edit α} {f : α → Edit β} {c c' : Context} {b : β}
    (h : (x >>= f) c = .ok (b, c')) : ∃ a d, x c = .ok (a, d) ∧ f a d = .ok (b, c') := by
  cases hx : x c with
  | error e => simp [bind, StateT.bind, Except.bind, hx] at h
  | ok p => exact ⟨p.1, p.2, rfl, by simpa [bind, StateT.bind, Except.bind, hx] using h⟩

/-- A rewrite consists of operations on the context. -/
theorem Rewrite.steps_of_apply {rewrite : Rewrite} {slot : StmtId} {c c' : Context} {event : Event}
    (h : rewrite.apply slot c = .ok (event, c')) : Relation.ReflTransGen Context.Step c c' := by
  have hremove : ∀ {s d} {e : Event}, (Context.erase s >>= fun _ => pure e : Edit Event) d =
      .ok (event, c') → Context.Step d c' := by
    intro s d e h
    obtain ⟨⟨⟩, d', herase, hpure⟩ := Edit.exists_of_bind h
    obtain ⟨-, rfl⟩ := Prod.mk.inj (Except.ok.inj hpure)
    exact .erase herase
  cases rewrite with
  | deadStore | deadAtomic | deadAlloca => exact .single (hremove h)
  | forward load value =>
    obtain ⟨⟨⟩, d, hreplace, h⟩ := Edit.exists_of_bind h
    exact .tail (.single (.replaceAllUses hreplace)) (hremove h)
  | zeroFold load type =>
    obtain ⟨zero, d₁, hcreate, h⟩ := Edit.exists_of_bind h
    obtain ⟨⟨⟩, d₂, hinsert, h⟩ := Edit.exists_of_bind h
    obtain ⟨⟨⟩, d₃, hreplace, h⟩ := Edit.exists_of_bind h
    exact .tail (.tail (.tail (.single (.createStmt hcreate)) (.insertAfter hinsert))
      (.replaceAllUses hreplace)) (hremove h)

/-! ## Types of stored values -/

/-- The slot and the value of a store. -/
def Kind.stored? : Kind → Option (StmtId × StmtId)
  | .store slot value => some (slot, value)
  | _ => none

namespace Context

/-- What is stored in a slot has the type of the slot. -/
def StoresTyped (c : Context) (root : BlockId) : Prop :=
  ∀ p ∈ (c.tree root).preorder, ∀ a ∈ p.2.kind.stored?, c.type? a.2 = c.type? a.1

instance (c : Context) (root : BlockId) : Decidable (c.StoresTyped root) :=
  inferInstanceAs (Decidable (∀ p ∈ (c.tree root).preorder, ∀ a ∈ p.2.kind.stored?,
    c.type? a.2 = c.type? a.1))

variable {c : Context} {root : BlockId} {slot : Slot} {load value : StmtId} {strict : Bool}

/-- A load that is forwarded has the type of the slot, and the value has been stored there. -/
theorem Kept.exists_of_forward (h : c.Kept strict root) (hslot : slot ∈ (c.tree root).slots)
    (ha : slot.analyze (c.tree root) (c.chain slot.id ≠ []) =
      .error (.rewrite (.forward load value))) :
    c.type? load = c.type? slot.id ∧
      ∃ s stmt, (s, stmt) ∈ (c.tree root).preorder ∧ stmt.kind = .store slot.id value := by
  obtain ⟨declaration, scope, hsite, hkind, htype, hstart⟩ := h.exists_site_of_mem_slots hslot
  rcases Slot.analyze_eq_rewrite ha (slot.id :: scope) with ⟨x, hreach, hasks⟩ | ⟨st, -, hleft⟩
  · have hinv := hstart.reaches h.valid.fits hreach
    obtain ⟨t, scope', st⟩ := x
    obtain ⟨s, u, first, second, rest, rfl, -, hrewrite⟩ := hasks
    obtain ⟨type, htype', hwhole, -, ⟨-, heq⟩ | ⟨-, v, hv, heq⟩⟩ :=
      Slot.scanLoad_eq_rewrite hrewrite
    · cases heq
    · obtain ⟨rfl, rfl⟩ := Rewrite.forward.inj heq
      refine ⟨?_, ?_⟩
      · rw [type?_of_stmt? (stmt?_of_mem_treeAt hinv.mem_preorder),
          type?_of_stmt? (stmt?_of_mem_treeAt (Tree.mem_preorder_of_mem_sites hsite)), htype',
          ← hwhole, htype]
      · unfold SlotState.forwardable? SlotState.load at hv
        split at hv
        · next hholds =>
          obtain ⟨r, w, su, -, hw, -, hsu, hstore⟩ := hinv.tracks.holds hholds
          obtain rfl : w = value := Option.some.inj (hw.symm.trans hv)
          exact ⟨r, su, hsu, Slot.action_eq_store hstore⟩
        · cases hv
  · rcases leftover?_eq_some hleft with ⟨_, heq, -⟩ | ⟨_, heq, -⟩ | ⟨heq, -⟩ <;> cases heq

/-- What takes the place of a value has its type. -/
theorem Sound.type?_of_mem_exchange (h : c.Sound root) (hslot : slot ∈ (c.tree root).slots)
    (hstores : c.StoresTyped root) {rewrite : Rewrite}
    (ha : slot.analyze (c.tree root) (c.chain slot.id ≠ []) = .error (.rewrite rewrite))
    {block? : Option BlockId} {e : Exchange}
    (he : e = rewrite.exchange slot.id ⟨c.stmts.size⟩ block?) {z : Stmt}
    (hz : (e.value, z) ∈ ((c.tree root).exchange e).preorder) : z.type? = c.type? e.old := by
  have hallows := h.allows hslot ha
  rcases Exchange.mem_preorder_exchange hz with hnew | ⟨⟨v, u⟩, hu, hne, heq⟩
  · cases hallows with
    | zeroFold hm _ _ htype =>
      obtain rfl := he
      obtain ⟨-, rfl⟩ := Prod.mk.inj (Option.some.inj hnew)
      exact (htype.symm.trans (type?_of_stmt? (stmt?_of_mem_treeAt hm)).symm)
    | _ =>
      obtain rfl := he
      cases hnew
  · obtain ⟨rfl, rfl⟩ := Prod.mk.inj heq
    have hv := stmt?_of_mem_treeAt hu
    cases rewrite with
    | zeroFold load type =>
      obtain rfl := he
      simp [Rewrite.exchange, stmt?] at hv
    | forward load value =>
      obtain rfl := he
      obtain ⟨hload, s, stmt, hs, hk⟩ := h.kept.exists_of_forward hslot ha
      have hstored := hstores _ hs (slot.id, value) (by simp [hk, Kind.stored?])
      exact (type?_of_stmt? hv).symm.trans (hstored.trans hload.symm)
    | _ =>
      obtain rfl := he
      exact absurd rfl hne

end Context

/-! ## Sweeps keep types -/

namespace Work

variable {root : BlockId} {w w' : Work} {s : StmtId}

theorem Step.steps (h : Step root w w') :
    Relation.ReflTransGen Context.Step w.context w'.context := by
  cases h with
  | mk _ apply => exact Rewrite.steps_of_apply apply

theorem Reaches.steps (h : Reaches root w w') :
    Relation.ReflTransGen Context.Step w.context w'.context := by
  induction h with
  | refl => exact .refl
  | tail _ hstep ih => exact ih.trans hstep.steps

/-- A statement of the tree after a step is a constant that was not there before the step, or it
was in the tree, in its kind up to the operands, and the operands had the same types. -/
theorem Step.operandTypes (h : Step root w w') (hw : w.context.Sound root)
    (hstores : w.context.StoresTyped root) {u' : Stmt}
    (hs : (s, u') ∈ (w'.context.tree root).preorder) :
    w.context.stmt? s = none ∧ (∃ cs, u'.kind = .const cs) ∨
      ∃ u, (s, u) ∈ (w.context.tree root).preorder ∧
        (∃ old new, u'.kind = u.kind.replace old new) ∧
        w'.context.operandTypes s = w.context.operandTypes s := by
  obtain ⟨-, slot, rewrite, hmakes⟩ := h.makes hw.kept
  have htree := hmakes.exchange
  obtain ⟨e, he⟩ : ∃ e, e = rewrite.exchange slot.id ⟨w.context.stmts.size⟩
    (w.context.home? (rewrite.old slot.id)) := ⟨_, rfl⟩
  rw [← he] at htree
  rcases Exchange.mem_preorder_exchange (htree ▸ hs) with hnew | ⟨⟨_, u⟩, hu, -, heq⟩
  · obtain rfl := he
    cases rewrite <;> simp only [Rewrite.exchange, reduceCtorEq, Option.some.injEq] at hnew
    obtain ⟨rfl, rfl⟩ := Prod.mk.inj hnew
    exact .inl ⟨by simp [Context.stmt?], _, rfl⟩
  · obtain ⟨rfl, rfl⟩ := Prod.mk.inj heq
    refine .inr ⟨u, hu, ⟨_, _, rfl⟩, ?_⟩
    rw [Context.operandTypes_of_stmt? (Context.stmt?_of_mem_treeAt hs),
      Context.operandTypes_of_stmt? (Context.stmt?_of_mem_treeAt hu), Stmt.mapKind,
      Kind.operands_replace, List.map_map]
    refine List.map_congr_left fun v hv => ?_
    rw [Function.comp_apply]
    split
    · next hold =>
      subst hold
      have hop : e.value ∈ (u.mapKind (Kind.replace e.old e.value)).kind.operands := by
        rw [Stmt.mapKind, Kind.operands_replace]
        exact List.mem_map.2 ⟨e.old, hv, if_pos rfl⟩
      obtain ⟨z, hz, -⟩ := (h.sound hw).exists_of_mem_operands hs hop
      rw [Context.type?_of_stmt? (Context.stmt?_of_mem_treeAt hz)]
      exact hw.type?_of_mem_exchange hmakes.mem_slots hstores hmakes.asked he (htree ▸ hz)
    · obtain ⟨z, hz, -⟩ := hw.exists_of_mem_operands hu hv
      exact Context.type?_of_steps h.steps (by simp [Context.stmt?_of_mem_treeAt hz])

theorem Step.storesTyped (h : Step root w w') (hw : w.context.Sound root)
    (hstores : w.context.StoresTyped root) : w'.context.StoresTyped root := by
  rintro ⟨s, u'⟩ hs ⟨slot', value'⟩ hk
  rcases h.operandTypes hw hstores hs with ⟨-, cs, hconst⟩ | ⟨u, hu, ⟨old, new, hkind⟩, htypes⟩
  · simp [hconst, Kind.stored?] at hk
  · obtain ⟨slot, value, hstore⟩ : ∃ slot value, u.kind = .store slot value := by
      rw [hkind] at hk
      cases hu' : u.kind <;> simp [hu', Kind.replace, Kind.mapOperands, Kind.stored?] at hk
      exact ⟨_, _, rfl⟩
    have hstore' : u'.kind = .store slot' value' := by
      cases hu' : u'.kind <;> simp [hu', Kind.stored?] at hk
      rw [hk.1, hk.2]
    rw [Context.operandTypes_of_stmt? (Context.stmt?_of_mem_treeAt hs),
      Context.operandTypes_of_stmt? (Context.stmt?_of_mem_treeAt hu), hstore, hstore'] at htypes
    simp only [Kind.operands, List.map_cons, List.cons.injEq] at htypes
    have := hstores _ hu (slot, value) (by simp [hstore, Kind.stored?])
    dsimp only at this ⊢
    rw [htypes.1, htypes.2.1, this]

/-- Steps keep the types of the operands of a statement that was there before them and still is
in the tree. -/
theorem Reaches.operandTypes (h : Reaches root w w') (hw : w.context.Sound root)
    (hstores : w.context.StoresTyped root) : w'.context.StoresTyped root ∧
      ∀ s ∈ (w'.context.tree root).ids, (w.context.stmt? s).isSome = true →
        s ∈ (w.context.tree root).ids ∧
          w'.context.operandTypes s = w.context.operandTypes s := by
  induction h with
  | refl => exact ⟨hstores, fun s hs _ => ⟨hs, rfl⟩⟩
  | @tail v v' hreach hstep ih =>
    obtain ⟨hv, hkept⟩ := ih
    have hsound := Reaches.sound hreach hw
    refine ⟨hstep.storesTyped hsound hv, fun s hs hthere => ?_⟩
    obtain ⟨u', hu'⟩ := Tree.mem_ids.1 hs
    rcases hstep.operandTypes hsound hv hu' with ⟨hnone, -⟩ | ⟨u, hu, -, htypes⟩
    · obtain ⟨stmt, hstmt⟩ := Option.isSome_iff_exists.1 hthere
      obtain ⟨stmt', hstmt', -⟩ := Context.exists_stmt?_of_steps (Reaches.steps hreach) hstmt
      simp [hnone] at hstmt'
    · obtain ⟨hmem, heq⟩ := hkept s (Tree.mem_ids_of_mem_preorder hu) hthere
      exact ⟨hmem, htypes.trans heq⟩

end Work

/-- Optimizing a verified kernel, with any limit of sweeps, keeps the types of operands, if what
is stored in a slot has the type of the slot. -/
theorem operandTypes_of_optimizeSlots {c₀ c : Context} {text : List Char} {kernel : Kernel}
    (h₀ : Parsed c₀) (hparse : parseKernel text c₀ = .ok (.ok kernel, c))
    (hverify : c.verify kernel = .ok ()) (hstores : c.StoresTyped kernel.body)
    (maxSweeps? : Option Nat) :
    ∃ outcome c', optimizeSlots kernel.body maxSweeps? c = .ok (outcome, c') ∧
      ∀ s ∈ (c'.tree kernel.body).ids, s ∈ (c.tree kernel.body).ids →
        c'.operandTypes s = c.operandTypes s := by
  have hsound := h₀.tidy.sound hparse hverify
  obtain ⟨outcome, w, hrun, hreach, -⟩ := hsound.optimizeSlots maxSweeps?
  refine ⟨outcome, w.context, hrun, fun s hs hthere => ?_⟩
  obtain ⟨stmt, hm⟩ := Tree.mem_ids.1 hthere
  exact ((hreach.operandTypes hsound hstores).2 s hs
    (by simp [Work.start, Context.stmt?_of_mem_treeAt hm])).2

open LoopKernel in
/-- A value is forwarded into a loop at its own type. -/
theorem operandTypes_of_optimizeSlots_loop :
    parseKernel text .empty = .ok (.ok ⟨"k", ⟨0⟩⟩, context) ∧
      context.verify ⟨"k", ⟨0⟩⟩ = .ok () ∧ context.StoresTyped ⟨0⟩ ∧
      ∃ outcome c', optimizeSlots ⟨0⟩ none context = .ok (outcome, c') ∧
        ∀ s ∈ (c'.tree ⟨0⟩).ids, s ∈ (context.tree ⟨0⟩).ids →
          c'.operandTypes s = context.operandTypes s := by
  have hstores : context.StoresTyped ⟨0⟩ := by decide +kernel
  exact ⟨parse, verify, hstores, operandTypes_of_optimizeSlots .empty parse verify hstores none⟩

namespace MistypedKernel

/-- An argument of another type is stored in the slot. -/
def text : List Char :=
  "kernel @k \x7b %a = alloca : i32 %v = arg 0 : f32 local_store %a, %v
    %l = local_load %a : i32 print %l \x7d".toList

/-- What the text is parsed to. -/
def context : Context where
  stmts := #[⟨.alloca, some ⟨.i32, 1⟩, some ⟨0⟩⟩, ⟨.arg 0, some ⟨.f32, 1⟩, some ⟨0⟩⟩,
    ⟨.store ⟨0⟩ ⟨1⟩, none, some ⟨0⟩⟩, ⟨.load [⟨⟨0⟩, 0⟩], some ⟨.i32, 1⟩, some ⟨0⟩⟩,
    ⟨.print ⟨3⟩, none, some ⟨0⟩⟩]
  blocks := #[⟨[⟨0⟩, ⟨1⟩, ⟨2⟩, ⟨3⟩, ⟨4⟩], none⟩]
  uses := [⟨⟨0⟩, ⟨2⟩, 0⟩, ⟨⟨1⟩, ⟨2⟩, 1⟩, ⟨⟨0⟩, ⟨3⟩, 0⟩, ⟨⟨3⟩, ⟨4⟩, 0⟩]

end MistypedKernel

open MistypedKernel in
/-- The kernel prints an integer, and its optimized form prints the argument. -/
theorem exists_retyped_operand : parseKernel text .empty = .ok (.ok ⟨"k", ⟨0⟩⟩, context) ∧
    context.verify ⟨"k", ⟨0⟩⟩ = .ok () ∧
    ∃ outcome c', optimizeSlots ⟨0⟩ none context = .ok (outcome, c') ∧
      ⟨4⟩ ∈ (context.tree ⟨0⟩).ids ∧ ⟨4⟩ ∈ (c'.tree ⟨0⟩).ids ∧
      context.operandTypes ⟨4⟩ = [some ⟨.i32, 1⟩] ∧ c'.operandTypes ⟨4⟩ = [some ⟨.f32, 1⟩] :=
  ⟨by decide +kernel, by decide +kernel, _, _, rfl, by decide +kernel, by decide +kernel, rfl, rfl⟩

end KernelIR
