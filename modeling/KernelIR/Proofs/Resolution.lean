import KernelIR.Proofs.Text.Visibility
import KernelIR.Proofs.Text.Written

/-!
# Name resolution decides the rules

Resolving carries a list of visible names from statement to statement, which a nested block extends
and gives back. The rules of `Draft.Lawful` are said of places instead, without any such list. A
text that the grammar reads is parsed just if its draft is lawful, in every context, and then each
reference is resolved to the one statement before it that binds the name
(`parseKernel_eq_ok_iff_lawful`).

Both sides are taken apart statement by statement : the rules by `Draft.lawfulIn_cons_iff`, and
resolving by `Draft.build_cons_eq_ok_iff`. For one statement, `Head.lawful_iff` compares them.
-/

namespace KernelIR

/-! ## The blocks of a form -/

namespace Form

def hasFirst : Form → Bool
  | branch _ _ _ _ | loop _ | rangeFor _ _ _ | structFor _ _ => true
  | _ => false

def hasSecond : Form → Bool
  | branch _ _ _ otherwise => otherwise
  | _ => false

end Form

/-- Statements have something in the blocks of their form only. -/
def Draft.Owned : Draft → Prop :=
  All fun head first second =>
    (head.form.hasFirst = false → first = .nil) ∧ (head.form.hasSecond = false → second = .nil)

theorem Scan.owned_form {block : Scan Draft} (h : Ensures block Draft.Owned) :
    Admits (fun head first second => (head.form.hasFirst = false → first = .nil) ∧
      (head.form.hasSecond = false → second = .nil)) (form block) := by
  intro keyword
  have hplain : ∀ {form : Form}, form.hasSecond = false →
      (∀ (result? : Option ValueName) (annotation? : Option (List Char)),
        (form.hasFirst = false → Draft.nil = .nil) ∧ (form.hasSecond = false → Draft.nil = .nil)) ∧
          Draft.nil.Owned ∧ Draft.nil.Owned :=
    fun _ => ⟨fun _ _ => ⟨fun _ => rfl, fun _ => rfl⟩, trivial, trivial⟩
  unfold form
  split
  · exact .pure (hplain rfl)
  · exact .seq fun _ => .pure ⟨fun _ _ => ⟨fun _ => rfl, fun _ => rfl⟩, trivial, trivial⟩
  · exact .seq fun _ => .pure (hplain rfl)
  · exact .seq fun _ => .pure ⟨fun _ _ => ⟨fun _ => rfl, fun _ => rfl⟩, trivial, trivial⟩
  · exact .seq fun _ => .pure (hplain rfl)
  · exact .seq fun _ => .pure (hplain rfl)
  · exact .seq fun _ => .pure (hplain rfl)
  · refine .seq fun _ => .seq fun _ => .seq fun _ => .seq fun _ => .bind h fun first hfirst =>
      .bind (.optional (.seq fun _ => .seq fun _ => .seq fun _ => h)) fun second? hsecond =>
        .pure ⟨fun _ _ => ⟨nofun, fun hnone => ?_⟩, hfirst, ?_⟩
    · cases second? with
      | none => rfl
      | some second => cases hnone
    · cases second? with
      | none => trivial
      | some second => exact hsecond second rfl
  · exact .seq fun _ => .seq fun _ => .bind h fun _ hd =>
      .pure ⟨fun _ _ => ⟨nofun, fun _ => rfl⟩, hd, trivial⟩
  · exact .seq fun _ => .seq fun _ => .seq fun _ => .seq fun _ => .seq fun _ => .seq fun _ =>
      .seq fun _ => .seq fun _ => .bind h fun _ hd =>
        .pure ⟨fun _ _ => ⟨nofun, fun _ => rfl⟩, hd, trivial⟩
  · exact .seq fun _ => .seq fun _ => .seq fun _ => .seq fun _ => .seq fun _ => .bind h fun _ hd =>
      .pure ⟨fun _ _ => ⟨nofun, fun _ => rfl⟩, hd, trivial⟩
  · exact .seq fun _ => .pure ⟨fun _ _ => ⟨fun _ => rfl, fun _ => rfl⟩, trivial, trivial⟩

theorem owned_of_readKernel {text name : List Char} {draft : Draft}
    (h : readKernel text = .ok (name, draft)) : draft.Owned :=
  (Scan.all_of_readKernel Scan.owned_form h).2

/-! ## Names -/

namespace Names

variable {names names' : Names} {name : ValueName}

/-- The name is visible. -/
def Has (names : Names) (name : ValueName) : Prop :=
  name ∈ names.map Prod.fst

theorem isSome_lookup_iff : (names.lookup name).isSome = true ↔ names.Has name := by
  induction names with
  | nil => simp [Has]
  | cons p names ih =>
    rw [List.lookup_cons]
    by_cases heq : name = p.1
    · simp [Has, heq]
    · have hne : (name == p.1) = false := by simpa using heq
      simp only [hne, Has, List.map_cons, List.mem_cons, heq, false_or]
      exact ih

theorem exists_find_iff : (∃ s, names.find name = .ok s) ↔ names.Has name := by
  rw [← isSome_lookup_iff, find]
  cases names.lookup name <;> simp

theorem exists_find?_iff {name? : Option ValueName} :
    (∃ s?, names.find? name? = .ok s?) ↔ ∀ name, name? = some name → names.Has name := by
  cases name? with
  | none => simp [find?]
  | some name =>
    simp only [Option.some.injEq, forall_eq', ← exists_find_iff]
    constructor
    · rintro ⟨s?, h⟩
      obtain ⟨s, hs, -⟩ := exists_of_bind_eq_ok h
      exact ⟨s, hs⟩
    · rintro ⟨s, hs⟩
      exact ⟨some s, by rw [find?, hs]; rfl⟩

theorem exists_bind_iff {s : StmtId} {name? : Option ValueName} :
    (∃ names', names.bind s name? = .ok names') ↔ ∀ name, name? = some name → ¬names.Has name := by
  cases name? with
  | none => simp [bind]
  | some name =>
    simp only [Option.some.injEq, forall_eq', ← isSome_lookup_iff, bind]
    split <;> simp_all

theorem has_of_bind {s : StmtId} {name? : Option ValueName} (h : names.bind s name? = .ok names') :
    names'.Has = fun name => name? = some name ∨ names.Has name := by
  funext name
  unfold bind at h
  split at h
  · cases h
    simp
  · split at h
    · cases h
    · cases h
      simp [Has, eq_comm]

/-- What a name means behind a statement is the statement, or what it meant in front of it. -/
theorem find_of_bind {s v : StmtId} {name? : Option ValueName} (h : names.bind s name? = .ok names')
    (hv : names'.find name = .ok v) : (name? = some name ∧ v = s) ∨ names.find name = .ok v := by
  unfold bind at h
  split at h
  · cases h
    exact .inr hv
  · next binder =>
    split at h
    · cases h
    · cases h
      rw [find, List.lookup_cons] at hv
      by_cases heq : name = binder
      · rw [heq, beq_self_eq_true] at hv
        exact .inl ⟨congrArg some heq.symm, (Except.ok.inj hv).symm⟩
      · have hne : (name == binder) = false := by simpa using heq
        rw [hne] at hv
        exact .inr hv

end Names

/-! ## One statement -/

theorem BinaryOp.exists_ofName?_iff {cs : List Char} :
    (∃ op, ofName? cs = some op) ↔ ∃ op : BinaryOp, cs = op.name.toList := by
  constructor
  · rintro ⟨op, h⟩
    have := List.find?_some h
    exact ⟨op, (beq_iff_eq.1 this).symm⟩
  · rintro ⟨op, rfl⟩
    exact ⟨op, ofName?_name op⟩

theorem AtomicOp.exists_ofName?_iff {cs : List Char} :
    (∃ op, ("atomic_".toList.isPrefixOf? cs).bind ofName? = some op) ↔
      ∃ op : AtomicOp, cs = "atomic_".toList ++ op.name.toList := by
  simp only [Option.bind_eq_some_iff, List.isPrefixOf?_eq_some_iff_append_eq]
  constructor
  · rintro ⟨op, cs, rfl, h⟩
    have := List.find?_some h
    exact ⟨op, congrArg _ (beq_iff_eq.1 this).symm⟩
  · rintro ⟨op, rfl⟩
    exact ⟨op, _, rfl, ofName?_name op⟩

theorem Constant.exists_convert_iff {lane : Constant} {type : ValueType} :
    (∃ lane', lane.convert type = .ok lane') ↔ ∀ x, lane = .float x →
      type.element.isFloat = true := by
  cases lane with
  | int i => simp [convert]
  | float x =>
    rw [convert]
    split <;> simp_all

theorem exists_forall₂_iff {α β : Type} {R : α → β → Prop} {l : List α} :
    (∃ l', List.Forall₂ R l l') ↔ ∀ a ∈ l, ∃ b, R a b := by
  induction l with
  | nil => simp
  | cons a l ih =>
    simp only [List.forall₂_cons_left_iff, List.forall_mem_cons, ← ih]
    constructor
    · rintro ⟨_, b, l', hb, hl', rfl⟩
      exact ⟨⟨b, hb⟩, l', hl'⟩
    · rintro ⟨⟨b, hb⟩, l', hl'⟩
      exact ⟨_, b, l', hb, hl', rfl⟩

/-- What is said of a name by name resolution comes to the rules for one statement. -/
theorem Head.exists_shapes_iff {names : Names} {head : Head} {type? : Option ValueType}
    {form : Form} (htype : form.hasValue = true → type?.isSome = true) :
    (∃ shape, head.Shapes names type? form shape) ↔ form.KnownOperation head.keyword ∧
      (∀ name ∈ form.references, names.Has name) ∧
      (∀ n type, form.entries? = some n → type? = some type → n = type.width) ∧
      ∀ x type, .float x ∈ form.literals → type? = some type → type.element.isFloat = true := by
  have has : ∀ {name s}, names.find name = .ok s → names.Has name :=
    fun h => Names.exists_find_iff.1 ⟨_, h⟩
  constructor
  · rintro ⟨shape, h⟩
    cases h with
    | alloca | arg => exact ⟨trivial, by simp [Form.references, Form.operands], nofun, nofun⟩
    | splat htype' hlane =>
      refine ⟨trivial, by simp [Form.references, Form.operands], nofun, fun x type hx ht => ?_⟩
      obtain rfl := Option.some.inj (htype'.symm.trans ht)
      exact Constant.exists_convert_iff.1 ⟨_, hlane⟩ x (List.mem_singleton.1 hx).symm
    | lanes htype' hlength hlanes =>
      refine ⟨trivial, by simp [Form.references, Form.operands], fun n type hn ht => ?_,
        fun x type hx ht => ?_⟩ <;> obtain rfl := Option.some.inj (htype'.symm.trans ht)
      · exact (Option.some.inj hn).symm.trans (hlanes.length_eq.trans hlength)
      · exact Constant.exists_convert_iff.1 (exists_forall₂_iff.1 ⟨_, hlanes⟩ _ hx) x rfl
    | binary hop hl hr =>
      exact ⟨BinaryOp.exists_ofName?_iff.1 ⟨_, hop⟩,
        by simp [Form.references, Form.operands, has hl, has hr], nofun, nofun⟩
    | loadSlot _ hs =>
      exact ⟨trivial, by simp [Form.references, Form.operands, has hs], nofun, nofun⟩
    | loadLanes htype' hlength hlanes =>
      refine ⟨trivial, fun name hname => ?_, fun n type hn ht => ?_, nofun⟩
      · obtain ⟨lane, hlane, rfl⟩ := List.mem_map.1 hname
        obtain ⟨_, hfind, -⟩ := exists_forall₂_iff.1 ⟨_, hlanes⟩ _ hlane
        exact has hfind
      · obtain rfl := Option.some.inj (htype'.symm.trans ht)
        exact (Option.some.inj hn).symm.trans (hlanes.length_eq.trans hlength)
    | store hs hv =>
      exact ⟨trivial, by simp [Form.references, Form.operands, has hs, has hv], nofun, nofun⟩
    | atomic hop hs hv =>
      exact ⟨AtomicOp.exists_ofName?_iff.1 ⟨_, hop⟩,
        by simp [Form.references, Form.operands, has hs, has hv], nofun, nofun⟩
    | print hv | leave hv =>
      exact ⟨trivial, by simp [Form.references, Form.operands, has hv], nofun, nofun⟩
    | branch _ hv hm hn =>
      have hm := Names.exists_find?_iff.1 ⟨_, hm⟩
      have hn := Names.exists_find?_iff.1 ⟨_, hn⟩
      refine ⟨trivial, ?_, nofun, nofun⟩
      simp only [Form.references, Form.operands, List.mem_cons, List.mem_append, Option.mem_toList]
      rintro name (rfl | hname | hname)
      · exact has hv
      · exact hm name hname
      · exact hn name hname
    | loop hm =>
      have hm := Names.exists_find?_iff.1 ⟨_, hm⟩
      exact ⟨trivial, by simpa [Form.references, Form.operands] using hm, nofun, nofun⟩
    | rangeFor hu hv hw =>
      exact ⟨trivial, by simp [Form.references, Form.operands, has hu, has hv, has hw],
        nofun, nofun⟩
    | structFor _ hvs =>
      refine ⟨trivial, fun name hname => ?_, nofun, nofun⟩
      obtain ⟨_, hfind⟩ := exists_forall₂_iff.1 ⟨_, hvs⟩ _ hname
      exact has hfind
  · rintro ⟨hop, hdefined, hentries, hliterals⟩
    have find : ∀ name ∈ form.references, ∃ s, names.find name = .ok s :=
      fun name hname => Names.exists_find_iff.2 (hdefined name hname)
    cases form with
    | alloca => exact ⟨_, .alloca⟩
    | arg index => exact ⟨_, .arg index⟩
    | splat lane =>
      obtain ⟨type, rfl⟩ := Option.isSome_iff_exists.1 (htype rfl)
      obtain ⟨lane', hlane⟩ := Constant.exists_convert_iff.2 fun x (hx : lane = .float x) =>
        hliterals x type (by simp [Form.literals, hx]) rfl
      exact ⟨_, .splat rfl hlane⟩
    | lanes l =>
      obtain ⟨type, rfl⟩ := Option.isSome_iff_exists.1 (htype rfl)
      obtain ⟨l', hl⟩ := exists_forall₂_iff.2 fun lane hlane => Constant.exists_convert_iff.2
        fun x hx => hliterals x type (hx ▸ hlane) rfl
      exact ⟨_, .lanes rfl (hl.length_eq.symm.trans (hentries _ type rfl rfl)) hl⟩
    | binary lhs rhs =>
      obtain ⟨op, hop⟩ := BinaryOp.exists_ofName?_iff.2 hop
      obtain ⟨l, hl⟩ := find lhs (by simp [Form.references, Form.operands])
      obtain ⟨r, hr⟩ := find rhs (by simp [Form.references, Form.operands])
      exact ⟨_, .binary hop hl hr⟩
    | loadSlot slot =>
      obtain ⟨type, rfl⟩ := Option.isSome_iff_exists.1 (htype rfl)
      obtain ⟨s, hs⟩ := find slot (by simp [Form.references, Form.operands])
      exact ⟨_, .loadSlot rfl hs⟩
    | loadLanes l =>
      obtain ⟨type, rfl⟩ := Option.isSome_iff_exists.1 (htype rfl)
      obtain ⟨l', hl⟩ : ∃ l', List.Forall₂ (fun (lane : ValueName × Nat) (lane' : SlotLane) =>
          names.find lane.1 = .ok lane'.slot ∧ lane.2 = lane'.offset) l l' :=
        exists_forall₂_iff.2 fun lane hlane =>
          have ⟨s, hs⟩ := find lane.1 (List.mem_map_of_mem hlane)
          ⟨⟨s, lane.2⟩, hs, rfl⟩
      exact ⟨_, .loadLanes rfl (hl.length_eq.symm.trans (hentries _ type rfl rfl)) hl⟩
    | store slot value =>
      obtain ⟨s, hs⟩ := find slot (by simp [Form.references, Form.operands])
      obtain ⟨v, hv⟩ := find value (by simp [Form.references, Form.operands])
      exact ⟨_, .store hs hv⟩
    | atomic slot value =>
      obtain ⟨op, hop⟩ := AtomicOp.exists_ofName?_iff.2 hop
      obtain ⟨s, hs⟩ := find slot (by simp [Form.references, Form.operands])
      obtain ⟨v, hv⟩ := find value (by simp [Form.references, Form.operands])
      exact ⟨_, .atomic hop hs hv⟩
    | print value =>
      obtain ⟨v, hv⟩ := find value (by simp [Form.references, Form.operands])
      exact ⟨_, .print hv⟩
    | leave cond =>
      obtain ⟨v, hv⟩ := find cond (by simp [Form.references, Form.operands])
      exact ⟨_, .leave hv⟩
    | branch cond trueMask falseMask otherwise =>
      obtain ⟨v, hv⟩ := find cond (by simp [Form.references, Form.operands])
      obtain ⟨m?, hm⟩ := Names.exists_find?_iff.2 fun name (hname : trueMask = some name) =>
        hdefined name (by simp [Form.references, Form.operands, hname])
      obtain ⟨n?, hn⟩ := Names.exists_find?_iff.2 fun name (hname : falseMask = some name) =>
        hdefined name (by simp [Form.references, Form.operands, hname])
      exact ⟨_, .branch otherwise hv hm hn⟩
    | loop mask =>
      obtain ⟨m?, hm⟩ := Names.exists_find?_iff.2 fun name (hname : mask = some name) =>
        hdefined name (by simp [Form.references, Form.operands, hname])
      exact ⟨_, .loop hm⟩
    | rangeFor counter lower upper =>
      obtain ⟨u, hu⟩ := find counter (by simp [Form.references, Form.operands])
      obtain ⟨v, hv⟩ := find lower (by simp [Form.references, Form.operands])
      obtain ⟨w, hw⟩ := find upper (by simp [Form.references, Form.operands])
      exact ⟨_, .rangeFor hu hv hw⟩
    | structFor counters snode =>
      obtain ⟨vs, hvs⟩ := exists_forall₂_iff.2 find
      exact ⟨_, .structFor snode hvs⟩

/-- A statement is in order just if it can be resolved and its result can be bound. -/
theorem Head.lawful_iff {names : Names} {head : Head} : head.Lawful names.Has ↔
    (∃ r, head.shape names = .ok r) ∧ ∀ name, head.result? = some name → ¬names.Has name := by
  have hshape : (∃ r, head.shape names = .ok r) ↔ ∃ type?, head.type? = .ok type? ∧
      ∃ shape, head.Shapes names type? head.form shape := by
    constructor
    · rintro ⟨⟨type?, shape⟩, h⟩
      obtain ⟨htype, hshape⟩ := shapes_of_shape h
      exact ⟨type?, htype, shape, hshape⟩
    · rintro ⟨type?, htype, shape, hshape⟩
      refine ⟨(type?, shape), ?_⟩
      rw [Head.shape, htype]
      simp only [bind, Except.bind, shapeAt_of_shapes hshape]
      rfl
  rw [hshape]
  constructor
  · rintro ⟨hproduces, heffect, hop, hdefined, hfresh, hentries, hliterals⟩
    exact ⟨⟨_, type?_eq_ok_iff.2 ⟨rfl, hproduces, heffect⟩, (exists_shapes_iff fun hv =>
      (hproduces hv).2).2 ⟨hop, hdefined, hentries, hliterals⟩⟩, hfresh⟩
  · rintro ⟨⟨_, htype, hshapes⟩, hfresh⟩
    obtain ⟨rfl, hproduces, heffect⟩ := type?_eq_ok_iff.1 htype
    obtain ⟨hop, hdefined, hentries, hliterals⟩ := (exists_shapes_iff fun hv =>
      (hproduces hv).2).1 hshapes
    exact ⟨hproduces, heffect, hop, hdefined, hfresh, hentries, hliterals⟩

/-! ## A whole draft -/

namespace Shape

def hasFirst : Shape → Bool
  | plain _ => false
  | body _ | branch _ _ => true

def hasSecond : Shape → Bool
  | plain _ | body _ => false
  | branch _ otherwise => otherwise

/-- Whatever blocks the statement gets, its kind is as `P` says. -/
def Ensures (P : Kind → Prop) : Shape → Prop
  | plain kind => P kind
  | body kind => ∀ d, P (kind d)
  | branch kind _ => ∀ d e?, P (kind d e?)

end Shape

theorem Head.Shapes.hasBlocks {names : Names} {head : Head} {type? : Option ValueType} {form : Form}
    {shape : Shape} (h : head.Shapes names type? form shape) :
    form.hasFirst = shape.hasFirst ∧ form.hasSecond = shape.hasSecond := by
  cases h <;> exact ⟨rfl, rfl⟩

/-- The operands are found one by one. -/
theorem Head.Shapes.ensures_operands {names : Names} {head : Head} {type? : Option ValueType}
    {form : Form} {shape : Shape} (h : head.Shapes names type? form shape) :
    shape.Ensures fun kind => List.Forall₂ (fun name v => names.find name = .ok v)
      (form.operands (type?.elim 1 ValueType.width)) kind.operands := by
  have hmask : ∀ {mask : Option ValueName} {m? : Option StmtId}, names.find? mask = .ok m? →
      List.Forall₂ (fun name v => names.find name = .ok v) mask.toList m?.toList := by
    intro mask m? hm
    cases mask with
    | none =>
      obtain rfl : none = m? := Except.ok.inj hm
      exact .nil
    | some name =>
      obtain ⟨s, hs, hm⟩ := exists_of_bind_eq_ok hm
      obtain rfl : some s = m? := Except.ok.inj hm
      exact .cons hs .nil
  cases h with
  | alloca | splat | lanes | arg => exact .nil
  | binary _ hl hr => exact .cons hl (.cons hr .nil)
  | @loadSlot slot s type htype hs =>
    subst htype
    have hslots : ((List.range type.width).map (⟨s, ·⟩)).map SlotLane.slot =
        List.replicate type.width s := by
      simp [List.map_map, Function.comp_def]
    simp only [Shape.Ensures, Form.operands, Option.elim, Kind.operands, hslots]
    exact List.forall₂_iff_get.2 ⟨by simp, fun i hi hi' => by simpa using hs⟩
  | loadLanes _ _ hlanes =>
    simp only [Shape.Ensures, Form.operands, Kind.operands, List.forall₂_map_left_iff,
      List.forall₂_map_right_iff]
    exact hlanes.imp fun _ _ h => h.1
  | store hs hv | atomic _ hs hv => exact .cons hs (.cons hv .nil)
  | print hv | leave hv => exact .cons hv .nil
  | branch _ hv hm hn => exact fun _ _ => .cons hv (List.rel_append (hmask hm) (hmask hn))
  | loop hm => exact fun _ => hmask hm
  | rangeFor hu hv hw => exact fun _ => .cons hu (.cons hv (.cons hw .nil))
  | structFor _ hvs => exact fun _ => hvs

namespace Draft

variable {first second rest : Draft} {names : Names} {n m n₁ m₁ : Nat} {shape : Shape} {kind : Kind}
  {t₁ t₂ : Tree}

theorem BuildsBlocks.of_ensures (h : BuildsBlocks first second names n m shape kind t₁ t₂ n₁ m₁)
    {P : Kind → Prop} (hP : shape.Ensures P) : P kind := by
  cases h with
  | plain => exact hP
  | body => exact hP _
  | ifThen | ifThenElse => exact hP _ _

/-- Resolving succeeds just if the draft is lawful where the names are visible. -/
theorem exists_build_iff {draft : Draft} (howned : draft.Owned) {names : Names} {b : BlockId}
    {n m : Nat} : (∃ v, draft.build names b n m = .ok v) ↔ draft.LawfulIn names.Has := by
  induction draft generalizing names b n m with
  | nil => exact iff_of_true ⟨_, rfl⟩ (lawfulIn_nil _)
  | cons head first second rest ih₁ ih₂ ih₃ =>
    obtain ⟨⟨hfirst, hsecond⟩, ho₁, ho₂, ho₃⟩ := howned
    rw [lawfulIn_cons_iff, Head.lawful_iff]
    constructor
    · rintro ⟨v, hv⟩
      obtain ⟨type?, shape, kind, t₁, t₂, n₁, m₁, names', v₃, hshape, hblocks, hbind, hrest, rfl⟩ :=
        build_cons_eq_ok_iff.1 hv
      obtain ⟨hf, hs⟩ := (Head.shapes_of_shape hshape).2.hasBlocks
      have hnested : first.LawfulIn names.Has ∧ second.LawfulIn names.Has := by
        cases hblocks with
        | plain =>
          obtain rfl := hfirst hf
          obtain rfl := hsecond hs
          exact ⟨lawfulIn_nil _, lawfulIn_nil _⟩
        | body _ h₁ | ifThen _ h₁ =>
          obtain rfl := hsecond hs
          exact ⟨(ih₁ ho₁).1 ⟨_, h₁⟩, lawfulIn_nil _⟩
        | ifThenElse _ h₁ h₂ => exact ⟨(ih₁ ho₁).1 ⟨_, h₁⟩, (ih₂ ho₂).1 ⟨_, h₂⟩⟩
      exact ⟨⟨⟨_, hshape⟩, Names.exists_bind_iff.1 ⟨_, hbind⟩⟩, hnested.1, hnested.2,
        Names.has_of_bind hbind ▸ (ih₃ ho₃).1 ⟨_, hrest⟩⟩
    · rintro ⟨⟨⟨⟨type?, shape⟩, hshape⟩, hfresh⟩, h₁, h₂, h₃⟩
      obtain ⟨kind, t₁, t₂, n₁, m₁, hblocks⟩ : ∃ kind t₁ t₂ n₁ m₁,
          BuildsBlocks first second names n m shape kind t₁ t₂ n₁ m₁ := by
        cases shape with
        | plain kind => exact ⟨_, _, _, _, _, .plain kind⟩
        | body kind =>
          obtain ⟨v₁, hv₁⟩ := (ih₁ ho₁).2 h₁
          exact ⟨_, _, _, _, _, .body kind hv₁⟩
        | branch kind otherwise =>
          obtain ⟨v₁, hv₁⟩ := (ih₁ ho₁).2 h₁
          cases otherwise with
          | false => exact ⟨_, _, _, _, _, .ifThen kind hv₁⟩
          | true =>
            obtain ⟨v₂, hv₂⟩ := (ih₂ ho₂).2 h₂
            exact ⟨_, _, _, _, _, .ifThenElse kind hv₁ hv₂⟩
      obtain ⟨names', hbind⟩ := (Names.exists_bind_iff (s := ⟨n₁⟩)).2 hfresh
      obtain ⟨v₃, hrest⟩ := (ih₃ ho₃).2 (Names.has_of_bind hbind ▸ h₃)
      exact ⟨_, build_cons_eq_ok_iff.2
        ⟨type?, shape, kind, t₁, t₂, n₁, m₁, names', v₃, hshape, hblocks, hbind, hrest, rfl⟩⟩

end Draft

/-! ## Places in a context -/

namespace Context

/-- The list that a path leads to from a list of statements. -/
def listAt? (c : Context) (l : List StmtId) : List (Nat × Side) → Option (List StmtId)
  | [] => some l
  | (i, side) :: inner =>
    match (l[i]?).bind c.stmt? with
    | none => none
    | some stmt =>
      match side.of stmt.kind.firstBlock? stmt.kind.secondBlock? with
      | none => none
      | some d => c.listAt? (c.listed d) inner

/-- The statement at a place below a list of statements. -/
def idAt? (c : Context) (l : List StmtId) (p : Place) : Option StmtId :=
  (c.listAt? l p.path).bind (·[p.index]?)

/-- The statement at a place below a block. -/
def stmtAt? (c : Context) (root : BlockId) (p : Place) : Option StmtId :=
  c.idAt? (c.listed root) p

variable {c : Context} {s : StmtId} {l : List StmtId} {p : Place} {side : Side}

theorem idAt?_later : c.idAt? (s :: l) p.later = c.idAt? l p := by
  obtain ⟨_ | ⟨⟨i, side⟩, path⟩, k⟩ := p <;> rfl

theorem idAt?_inside {stmt : Stmt} {d : BlockId} (hs : c.stmt? s = some stmt)
    (hd : side.of stmt.kind.firstBlock? stmt.kind.secondBlock? = some d) :
    c.idAt? (s :: l) (.inside side p) = c.idAt? (c.listed d) p := by
  simp only [idAt?, Place.inside, listAt?, List.getElem?_cons_zero, Option.bind_some, hs, hd]

end Context

namespace Draft

/-- In the context, every statement stands where it stands in the draft, and has for operands the
statements that its references mean, each the only one before it that binds the name. -/
def Resolves (draft : Draft) (c : Context) (root : BlockId) : Prop :=
  ∀ p head, draft.head? p = some head → ∃ s stmt, c.stmtAt? root p = some s ∧
    c.stmt? s = some stmt ∧ stmt.type? = head.annotated? ∧
    List.Forall₂ (fun name v => ∃ q, q.Before p ∧ draft.Binds q name ∧
        (∀ r, r.Before p → draft.Binds r name → r = q) ∧ c.stmtAt? root q = some v)
      (head.form.operands (head.annotated?.elim 1 ValueType.width)) stmt.kind.operands

/-- The name means this statement at a place, among visible names and what is before the place. -/
def Refers (draft : Draft) (c : Context) (l : List StmtId) (names : Names) (p : Place)
    (name : ValueName) (v : StmtId) : Prop :=
  names.find name = .ok v ∨ ∃ q, q.Before p ∧ draft.Binds q name ∧ c.idAt? l q = some v

/-- What the statement at a place is resolved to. -/
def ResolvedAt (draft : Draft) (c : Context) (l : List StmtId) (names : Names) (p : Place)
    (head : Head) : Prop :=
  ∃ s stmt, c.idAt? l p = some s ∧ c.stmt? s = some stmt ∧ stmt.type? = head.annotated? ∧
    List.Forall₂ (draft.Refers c l names p)
      (head.form.operands (head.annotated?.elim 1 ValueType.width)) stmt.kind.operands

section Cons

variable {c : Context} {head head' : Head} {first second rest : Draft} {names names' : Names}
  {s : StmtId} {l : List StmtId} {p : Place} {side : Side}

/-- What is resolved in a block of the first statement is resolved so in the whole. -/
theorem ResolvedAt.inside {stmt : Stmt} {d : BlockId} (hs : c.stmt? s = some stmt)
    (hd : side.of stmt.kind.firstBlock? stmt.kind.secondBlock? = some d)
    (h : (side.of first second).ResolvedAt c (c.listed d) names p head') :
    (cons head first second rest).ResolvedAt c (s :: l) names (.inside side p) head' := by
  have hid : ∀ q : Place, c.idAt? (s :: l) (.inside side q) = c.idAt? (c.listed d) q := fun _ =>
    Context.idAt?_inside hs hd
  obtain ⟨t, stmt', ht, hstmt', htype, hops⟩ := h
  refine ⟨t, stmt', (hid p).trans ht, hstmt', htype, hops.imp fun name v hrefers => ?_⟩
  rcases hrefers with hfind | ⟨q, hq, hbinds, hv⟩
  · exact .inl hfind
  · exact .inr ⟨.inside side q, Place.before_inside_iff.2 ⟨q, rfl, hq⟩, hbinds, (hid q).trans hv⟩

/-- What follows the first statement sees its result. -/
theorem ResolvedAt.later (hbind : names.bind s head.result? = .ok names')
    (h : rest.ResolvedAt c l names' p head') :
    (cons head first second rest).ResolvedAt c (s :: l) names p.later head' := by
  obtain ⟨t, stmt', ht, hstmt', htype, hops⟩ := h
  refine ⟨t, stmt', Context.idAt?_later.trans ht, hstmt', htype, hops.imp fun name v hrefers => ?_⟩
  rcases hrefers with hfind | ⟨q, hq, ⟨binder, hbinder, hresult⟩, hv⟩
  · rcases Names.find_of_bind hbind hfind with ⟨hresult, rfl⟩ | hfind
    · exact .inr ⟨.start, Place.start_before_later, ⟨head, rfl, hresult⟩, rfl⟩
    · exact .inl hfind
  · exact .inr ⟨q.later, Place.later_before_later.2 hq,
      ⟨binder, head?_later.trans hbinder, hresult⟩,
      Context.idAt?_later.trans hv⟩

end Cons

/-- The statements of the tree that a draft builds have the operands that the draft names. -/
theorem resolvedAt_of_build {draft : Draft} (howned : draft.Owned) {names : Names} {b : BlockId}
    {n m : Nat} {v : Tree × Nat × Nat} (hbuild : draft.build names b n m = .ok v) {c : Context}
    {l : List StmtId} (hstands : v.1.Stands c b l) {p : Place} {head : Head}
    (hp : draft.head? p = some head) : draft.ResolvedAt c l names p head := by
  induction draft generalizing names b n m v l p with
  | nil => simp at hp
  | cons head' first second rest ih₁ ih₂ ih₃ =>
    obtain ⟨⟨hfirst, hsecond⟩, ho₁, ho₂, ho₃⟩ := howned
    obtain ⟨type?, shape, kind, t₁, t₂, n₁, m₁, names', v₃, hshape, hblocks, hbind, hrest, rfl⟩ :=
      build_cons_eq_ok_iff.1 hbuild
    obtain ⟨htype, hshapes⟩ := Head.shapes_of_shape hshape
    obtain ⟨hf, hs⟩ := hshapes.hasBlocks
    have hresolved := Head.shape_resolved hshape
    obtain ⟨rfl, -⟩ := Head.type?_eq_ok_iff.1 htype
    cases hstands with
    | cons present below none₁ none₂ nested₁ nested₂ behind =>
      induction p using Place.walk with
      | start =>
        obtain rfl := Option.some.inj hp
        exact ⟨_, _, rfl, present, rfl,
          (hblocks.of_ensures hshapes.ensures_operands).imp fun _ _ hfind => .inl hfind⟩
      | later p _ => exact .later hbind (ih₃ ho₃ hrest behind (head?_later.symm.trans hp))
      | inside side p _ =>
        cases side with
        | first =>
          cases hblocks with
          | plain =>
            obtain rfl := hfirst hf
            simp [Side.of] at hp
          | body _ h₁ =>
            have hd := (hresolved ⟨m⟩).first
            exact .inside present hd (ih₁ ho₁ h₁ (nested₁ _ hd) hp)
          | ifThen _ h₁ =>
            have hd := (hresolved ⟨m⟩ none).first
            exact .inside present hd (ih₁ ho₁ h₁ (nested₁ _ hd) hp)
          | @ifThenElse _ v₁ v₂ h₁ _ =>
            have hd := (hresolved ⟨m⟩ (some ⟨v₁.2.2⟩)).first
            exact .inside present hd (ih₁ ho₁ h₁ (nested₁ _ hd) hp)
        | second =>
          cases hblocks with
          | plain | body | ifThen =>
            obtain rfl := hsecond hs
            simp [Side.of] at hp
          | @ifThenElse _ v₁ v₂ _ h₂ =>
            have hd := (hresolved ⟨m⟩ (some ⟨v₁.2.2⟩)).second
            exact .inside present hd (ih₂ ho₂ h₂ (nested₂ _ hd) hp)

end Draft

/-- A draft is built without any names from outside just if it is lawful. -/
theorem Draft.exists_build_iff_lawful {draft : Draft} (howned : draft.Owned) {b : BlockId}
    {n m : Nat} :
    (∃ v, draft.build [] b n m = .ok v) ↔ draft.Lawful := by
  rw [Draft.lawful_iff_lawfulIn, Draft.exists_build_iff howned]
  have hnone : Names.Has [] = fun _ => False := funext fun _ => by simp [Names.Has]
  rw [hnone]

/-! ## Texts -/

/-- A text that the grammar reads is parsed just if its statements are lawful, and then its
references mean the statements that are visible under their names. -/
theorem parseKernel_eq_ok_iff_lawful {text name : List Char} {draft : Draft}
    (h : readKernel text = .ok (name, draft)) (c : Context) :
    ∃ result c', parseKernel text c = .ok (result, c') ∧
      ((∃ kernel, result = .ok kernel) ↔ draft.Lawful) ∧
      ∀ kernel, result = .ok kernel →
        kernel.name = String.ofList name ∧ draft.Resolves c' kernel.body := by
  have howned := owned_of_readKernel h
  obtain ⟨result, c', hparse, herror, hok⟩ := parseKernel_of_readKernel h c
  have hlawful : (∃ v, draft.build [] ⟨c.blocks.size⟩ c.stmts.size (c.blocks.size + 1) = .ok v) ↔
      draft.Lawful := Draft.exists_build_iff_lawful howned
  refine ⟨result, c', hparse, ?_⟩
  rw [← hlawful]
  cases hbuild : draft.build [] ⟨c.blocks.size⟩ c.stmts.size (c.blocks.size + 1) with
  | error e =>
    obtain rfl := herror e hbuild
    simp
  | ok v =>
    obtain ⟨rfl, hfill⟩ := hok v hbuild
    refine ⟨iff_of_true ⟨_, rfl⟩ ⟨v, rfl⟩, fun kernel hkernel => ?_⟩
    obtain rfl := Except.ok.inj hkernel
    refine ⟨rfl, fun p head hp => ?_⟩
    obtain ⟨s, stmt, hs, hstmt, htype, hops⟩ :=
      Draft.resolvedAt_of_build howned hbuild hfill.stands hp
    refine ⟨s, stmt, hs, hstmt, htype, hops.imp fun name v hrefers => ?_⟩
    rcases hrefers with hfind | ⟨q, hq, hbinds, hv⟩
    · exact absurd (Names.mem_of_find hfind) (by simp [Names.values])
    · exact ⟨q, hq, hbinds,
        fun r hr hrbinds => (hlawful.1 ⟨_, hbuild⟩).binder_unique hr hq hrbinds hbinds, hv⟩

namespace SiblingKernel

/-- A kernel that binds a name in both blocks of a statement. -/
def text : List Char :=
  "kernel @k \x7b %c = arg 0 : i32 if %c \x7b %t = const [1, 2] : i32x2 print %t \x7d else
    \x7b %t = add %c, %c : i32 print %t \x7d \x7d".toList

/-- What the grammar reads. -/
def draft : Draft :=
  .cons ⟨some ['c'], "arg".toList, .arg 0, some "i32".toList⟩ .nil .nil <|
  .cons ⟨none, "if".toList, .branch ['c'] none none true, none⟩
    (.cons ⟨some ['t'], "const".toList, .lanes [.int 1, .int 2], some "i32x2".toList⟩ .nil .nil <|
      .cons ⟨none, "print".toList, .print ['t'], none⟩ .nil .nil .nil)
    (.cons ⟨some ['t'], "add".toList, .binary ['c'] ['c'], some "i32".toList⟩ .nil .nil <|
      .cons ⟨none, "print".toList, .print ['t'], none⟩ .nil .nil .nil)
    .nil

end SiblingKernel

open SiblingKernel in
/-- The two blocks do not see each other, so the kernel is lawful, and each name means the statement
in its own block. -/
theorem parseKernel_eq_ok_iff_lawful_sibling : readKernel text = .ok (['k'], draft) ∧ draft.Lawful ∧
    ∃ c', parseKernel text .empty = .ok (.ok ⟨"k", ⟨0⟩⟩, c') ∧ draft.Resolves c' ⟨0⟩ := by
  have hread : readKernel text = .ok (['k'], draft) := by decide +kernel
  have hparsed : (parseKernel text .empty).map Prod.fst = .ok (.ok ⟨"k", ⟨0⟩⟩) := by decide +kernel
  obtain ⟨result, c', hparse, hlawful, hresolves⟩ := parseKernel_eq_ok_iff_lawful hread .empty
  rw [hparse] at hparsed
  obtain rfl : result = .ok ⟨"k", ⟨0⟩⟩ := Except.ok.inj hparsed
  exact ⟨hread, hlawful.1 ⟨_, rfl⟩, c', hparse, (hresolves _ rfl).2⟩

end KernelIR
