import KernelIR.Proofs.Text.Numbering

/-!
# Parsing behind other kernels

What a text is parsed to does not depend on what there is in the context already. If it is parsed
in one context then it is parsed in any other one, to a kernel of the same name whose tree is alike,
and the numbers of one tree are those of the other one with a constant added
(`Context.Tidy.exists_parseKernel`).

Names stand for numbers, and other numbers for the names give the same shapes with other operands
(`Head.exists_shape`). So a draft builds trees that are alike, whichever number is the next
(`Draft.exists_build_of_rename`).
-/

namespace KernelIR

variable {f : StmtId → StmtId}

/-! ## Names -/

namespace Names

variable {names : Names}

/-- The same names for other values. -/
def rename (f : StmtId → StmtId) (names : Names) : Names :=
  names.map fun p => (p.1, f p.2)

theorem lookup_rename (name : ValueName) :
    (names.rename f).lookup name = (names.lookup name).map f := by
  induction names with
  | nil => rfl
  | cons p names ih =>
    obtain ⟨key, s⟩ := p
    rw [rename, List.map_cons, List.lookup_cons, List.lookup_cons]
    cases name == key with
    | true => rfl
    | false => exact ih

theorem exists_find {name : ValueName} {v' : StmtId} (h : (names.rename f).find name = .ok v') :
    ∃ v, names.find name = .ok v ∧ f v = v' := by
  unfold find at h ⊢
  rw [lookup_rename] at h
  cases hv : names.lookup name with
  | none =>
    rw [hv] at h
    cases h
  | some v =>
    rw [hv] at h
    exact ⟨v, rfl, Except.ok.inj h⟩

theorem exists_find?_rename {name? : Option ValueName} {v'? : Option StmtId}
    (h : (names.rename f).find? name? = .ok v'?) :
    ∃ v?, names.find? name? = .ok v? ∧ Option.Rel (fun v v' => f v = v') v? v'? := by
  cases name? with
  | none =>
    obtain rfl := Except.ok.inj h
    exact ⟨none, rfl, .none⟩
  | some name =>
    obtain ⟨v', hv', h⟩ := exists_of_bind_eq_ok h
    obtain rfl := Except.ok.inj h
    obtain ⟨v, hv, hrel⟩ := exists_find hv'
    exact ⟨some v, by rw [find?, hv]; rfl, .some hrel⟩

theorem exists_bind_rename {s : StmtId} {name? : Option ValueName} {names' : Names}
    (h : (names.rename f).bind (f s) name? = .ok names') :
    ∃ next, names.bind s name? = .ok next ∧ names' = next.rename f := by
  cases name? with
  | none => exact ⟨names, rfl, (Except.ok.inj h).symm⟩
  | some name =>
    simp only [bind, lookup_rename, Option.isSome_map] at h ⊢
    split at h
    · cases h
    · next hnot =>
      rw [if_neg hnot]
      exact ⟨_, rfl, (Except.ok.inj h).symm⟩

end Names

/-! ## One statement -/

/-- The shapes are the same but for their operands, which `Q` relates, and whatever blocks they
get. -/
def Shape.Like (Q : StmtId → StmtId → Prop) : Shape → Shape → Prop
  | .plain kind, .plain kind' => kind.Like Eq Q kind'
  | .body kind, .body kind' => ∀ d d', (kind d).Like Eq Q (kind' d')
  | .branch kind otherwise, .branch kind' otherwise' => otherwise = otherwise' ∧
      ∀ d d' e? e'?, e?.isSome = e'?.isSome → (kind d e?).Like Eq Q (kind' d' e'?)
  | _, _ => False

theorem exists_left_forall₂ {α β γ : Type} {R : α → β → Prop} {S : α → γ → Prop} {T : γ → β → Prop}
    {l : List α} {l' : List β} (h : List.Forall₂ R l l')
    (hR : ∀ a b, R a b → ∃ c, S a c ∧ T c b) : ∃ m, List.Forall₂ S l m ∧ List.Forall₂ T m l' := by
  induction h with
  | nil => exact ⟨[], .nil, .nil⟩
  | cons hab _ ih =>
    obtain ⟨c, hac, hcb⟩ := hR _ _ hab
    obtain ⟨m, hm, hm'⟩ := ih
    exact ⟨c :: m, .cons hac hm, .cons hcb hm'⟩

namespace Head

variable {names : Names} {head : Head} {type? : Option ValueType}

/-- Other numbers for the names only give other operands. -/
theorem Shapes.exists_of_rename {form : Form} {shape' : Shape}
    (h : head.Shapes (names.rename f) type? form shape') : ∃ shape,
      head.Shapes names type? form shape ∧ shape.Like (fun v v' => f v = v') shape' := by
  cases h with
  | alloca => exact ⟨_, .alloca, .alloca⟩
  | splat htype hlane => exact ⟨_, .splat htype hlane, .const rfl⟩
  | lanes htype hlength hlanes => exact ⟨_, .lanes htype hlength hlanes, .const rfl⟩
  | arg index => exact ⟨_, .arg index, .arg index⟩
  | binary hop hl hr =>
    obtain ⟨l, hl, hleft⟩ := Names.exists_find hl
    obtain ⟨r, hr, hright⟩ := Names.exists_find hr
    exact ⟨_, .binary hop hl hr, .binary _ hleft hright⟩
  | loadSlot htype hs =>
    obtain ⟨s, hs, hslot⟩ := Names.exists_find hs
    refine ⟨_, .loadSlot htype hs, .load ?_⟩
    rw [List.forall₂_map_left_iff, List.forall₂_map_right_iff]
    exact List.forall₂_same.2 fun _ _ => ⟨hslot, rfl⟩
  | loadLanes htype hlength hlanes =>
    obtain ⟨lanes, hlanes, hlike⟩ := exists_left_forall₂ hlanes
      (S := fun lane (lane' : SlotLane) => names.find lane.1 = .ok lane'.slot ∧
        lane.2 = lane'.offset)
      (T := fun a b => f a.slot = b.slot ∧ a.offset = b.offset) fun lane lane' hlane => by
        obtain ⟨s, hs, hslot⟩ := Names.exists_find hlane.1
        exact ⟨⟨s, lane.2⟩, ⟨hs, rfl⟩, hslot, hlane.2⟩
    exact ⟨_, .loadLanes htype (hlike.length_eq.trans hlength) hlanes, .load hlike⟩
  | store hs hv =>
    obtain ⟨s, hs, htarget⟩ := Names.exists_find hs
    obtain ⟨v, hv, hsource⟩ := Names.exists_find hv
    exact ⟨_, .store hs hv, .store htarget hsource⟩
  | atomic hop hs hv =>
    obtain ⟨s, hs, htarget⟩ := Names.exists_find hs
    obtain ⟨v, hv, hsource⟩ := Names.exists_find hv
    exact ⟨_, .atomic hop hs hv, .atomic _ htarget hsource⟩
  | print hv =>
    obtain ⟨v, hv, hsource⟩ := Names.exists_find hv
    exact ⟨_, .print hv, .print hsource⟩
  | branch otherwise hv hm hn =>
    obtain ⟨v, hv, htest⟩ := Names.exists_find hv
    obtain ⟨m?, hm, htrue⟩ := Names.exists_find?_rename hm
    obtain ⟨n?, hn, hfalse⟩ := Names.exists_find?_rename hn
    exact ⟨_, .branch otherwise hv hm hn, rfl, fun _ _ _ _ he => .branch htest htrue hfalse rfl he⟩
  | loop hm =>
    obtain ⟨m?, hm, hmask⟩ := Names.exists_find?_rename hm
    exact ⟨_, .loop hm, fun _ _ => .loop hmask⟩
  | leave hv =>
    obtain ⟨v, hv, htest⟩ := Names.exists_find hv
    exact ⟨_, .leave hv, .leave htest⟩
  | rangeFor hu hv hw =>
    obtain ⟨u, hu, hcounter⟩ := Names.exists_find hu
    obtain ⟨v, hv, hlower⟩ := Names.exists_find hv
    obtain ⟨w, hw, hupper⟩ := Names.exists_find hw
    exact ⟨_, .rangeFor hu hv hw, fun _ _ => .rangeFor hcounter hlower hupper⟩
  | structFor snode hvs =>
    obtain ⟨vs, hvs, hcounters⟩ := exists_left_forall₂ hvs fun _ _ => Names.exists_find
    exact ⟨_, .structFor snode hvs, fun _ _ => .structFor _ hcounters⟩

theorem exists_shape {shape' : Shape} (h : head.shape (names.rename f) = .ok (type?, shape')) :
    ∃ shape, head.shape names = .ok (type?, shape) ∧ shape.Like (fun v v' => f v = v') shape' := by
  obtain ⟨type?', htype, h⟩ := exists_of_bind_eq_ok h
  obtain ⟨shape'', hshape, h⟩ := exists_of_bind_eq_ok h
  cases h
  obtain ⟨shape, hshapes, hlike⟩ := (shapes_of_shapeAt hshape).exists_of_rename
  refine ⟨shape, ?_, hlike⟩
  rw [Head.shape, htype]
  change (head.shapeAt names _ >>= _) = _
  rw [shapeAt_of_shapes hshapes]
  rfl

end Head

/-! ## Blocks -/

/-- If a draft builds a tree then it builds one that is alike whichever number is the next, with the
same constant added to the numbers of the statements. -/
theorem Draft.exists_build_of_rename {draft : Draft} {names : Names} {b b' : BlockId}
    {n n' m m' : Nat} {v' : Tree × Nat × Nat} (h : draft.build (names.rename f) b' n' m' = .ok v')
    (hf : ∀ i < v'.1.size, f ⟨n + i⟩ = ⟨n' + i⟩) : ∃ v, draft.build names b n m = .ok v ∧
      v.1.Like Eq (fun v v' => f v = v') v'.1 := by
  induction draft generalizing names b b' n n' m m' v' with
  | nil =>
    obtain rfl := Except.ok.inj h
    exact ⟨_, rfl, .nil⟩
  | cons head first second rest ih₁ ih₂ ih₃ =>
    obtain ⟨type?, shape', kind', t₁', t₂', n₁', m₁', names', v₃', hshape', hblocks',
      hbind', hrest',
      rfl⟩ := build_cons_eq_ok_iff.1 h
    obtain ⟨shape, hshape, hlike⟩ := head.exists_shape hshape'
    simp only [Tree.size] at hf
    have hn' := (hblocks'.numbered fun _ _ _ _ _ _ => numbered_of_build).2.2
    obtain ⟨kind, t₁, t₂, n₁, m₁, hblocks, hkind, h₁, h₂⟩ : ∃ kind t₁ t₂ n₁ m₁,
        BuildsBlocks first second names n m shape kind t₁ t₂ n₁ m₁ ∧
        kind.Like Eq (fun v v' => f v = v') kind' ∧ t₁.Like Eq (fun v v' => f v = v') t₁' ∧
        t₂.Like Eq (fun v v' => f v = v') t₂' := by
      cases hblocks' with
      | plain kind' =>
        cases shape with
        | plain kind => exact ⟨_, _, _, _, _, .plain kind, hlike, .nil, .nil⟩
        | _ => cases hlike
      | body kind' hfirst' =>
        obtain ⟨v₁, hfirst, h₁⟩ := ih₁ (b := ⟨m⟩) (n := n) (m := m + 1) hfirst'
          fun i hi => hf i (by omega)
        cases shape with
        | body kind => exact ⟨_, _, _, _, _, .body kind hfirst, hlike _ _, h₁, .nil⟩
        | _ => cases hlike
      | ifThen kind' hfirst' =>
        obtain ⟨v₁, hfirst, h₁⟩ := ih₁ (b := ⟨m⟩) (n := n) (m := m + 1) hfirst'
          fun i hi => hf i (by omega)
        cases shape with
        | branch kind otherwise =>
          obtain ⟨rfl, hkind⟩ := hlike
          exact ⟨_, _, _, _, _, .ifThen kind hfirst, hkind _ _ _ _ rfl, h₁, .nil⟩
        | _ => cases hlike
      | ifThenElse kind' hfirst' hsecond' =>
        obtain ⟨v₁, hfirst, h₁⟩ := ih₁ (b := ⟨m⟩) (n := n) (m := m + 1) hfirst'
          fun i hi => hf i (by omega)
        obtain ⟨v₂, hsecond, h₂⟩ := ih₂ (b := ⟨v₁.2.2⟩) (n := v₁.2.1) (m := v₁.2.2 + 1) hsecond'
          fun i hi => by
            rw [(numbered_of_build hfirst).2, (numbered_of_build hfirst').2, ← h₁.size_eq,
              Nat.add_assoc, Nat.add_assoc]
            exact hf _ (by rw [h₁.size_eq]; omega)
        cases shape with
        | branch kind otherwise =>
          obtain ⟨rfl, hkind⟩ := hlike
          exact ⟨_, _, _, _, _, .ifThenElse kind hfirst hsecond, hkind _ _ _ _ rfl, h₁, h₂⟩
        | _ => cases hlike
    have hn := (hblocks.numbered fun _ _ _ _ _ _ => numbered_of_build).2.2
    rw [← h₁.size_eq, ← h₂.size_eq] at hn' hf
    have hid : f ⟨n₁⟩ = ⟨n₁'⟩ := by
      have := hf (t₁.size + t₂.size) (by omega)
      rwa [← Nat.add_assoc, ← Nat.add_assoc, ← hn, ← hn'] at this
    rw [← hid] at hbind'
    obtain ⟨next, hbind, rfl⟩ := Names.exists_bind_rename hbind'
    obtain ⟨v₃, hrest, h₃⟩ := ih₃ (b := b) (n := n₁ + 1) (m := m₁) hrest' fun i hi => by
      have := hf (t₁.size + t₂.size + 1 + i) (by omega)
      simp only [← Nat.add_assoc, ← hn, ← hn'] at this
      exact this
    exact ⟨_, build_cons_eq_ok_iff.2 ⟨_, _, _, _, _, _, _, _, _, hshape, hblocks, hbind,
      hrest, rfl⟩,
      .cons hid hkind rfl h₁ h₂ h₃⟩

/-- A text that is parsed in one context is parsed in any other. -/
theorem Context.Tidy.exists_parseKernel {c c' d : Context} (hc : c.Tidy) (hd : d.Tidy)
    {text : List Char} {kernel : Kernel}
    (hparse : KernelIR.parseKernel text c = .ok (.ok kernel, c'))
    (hf : ∀ i < (c'.tree kernel.body).size, f ⟨d.stmts.size + i⟩ = ⟨c.stmts.size + i⟩) :
    ∃ kernel' d', KernelIR.parseKernel text d = .ok (.ok kernel', d') ∧ kernel'.name = kernel.name ∧
      (d'.tree kernel'.body).Like Eq (fun v v' => f v = v') (c'.tree kernel.body) := by
  obtain ⟨name, draft, m, hread, hbuild, rfl⟩ := hc.parseKernel_eq_ok_iff.1 ⟨c', hparse, rfl, rfl⟩
  change draft.build (Names.rename f []) _ _ _ = _ at hbuild
  obtain ⟨⟨t, n, m⟩, hbuild', hlike⟩ := Draft.exists_build_of_rename (b := ⟨d.blocks.size⟩)
    (m := d.blocks.size + 1) hbuild hf
  obtain ⟨d', hparse', rfl, -⟩ := hd.parseKernel_eq_ok_iff.2 ⟨name, draft, m, hread, hbuild', rfl⟩
  exact ⟨_, d', hparse', rfl, hlike⟩

end KernelIR
