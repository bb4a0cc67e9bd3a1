import Mathlib.Data.List.Forall2
import KernelIR.Proofs.Context.Uses
import KernelIR.Proofs.Slot.Rewrite
import KernelIR.Proofs.Text.Visibility
import KernelIR.Text.Parse

/-!
# What parsing makes

Parsing only adds to a context, operation by operation (`Context.Adds`), whether the names of the
text can be resolved or not (`Draft.leads_resolve`). A statement that it makes takes values that are
there already, and these are of the same text.

What is added is in order (`Context.Tidy`) : values have their lanes, no value is used before it is
there, and a block is younger than the block that lists its owner, so that no block lies below
itself. So all this holds in every context that parsing leads to (`Parsed.tidy`).
-/

namespace KernelIR

namespace Context

/-- What parsing keeps in a context. Nothing has been erased in it. -/
structure Tidy (c : Context) : Prop where
  history : c.History []
  nested : ∀ {s stmt b d}, c.stmt? s = some stmt → stmt.block? = some d → b ∈ stmt.kind.blocks →
    d.index < b.index
  sized : ∀ {s stmt}, c.stmt? s = some stmt → stmt.Sized
  defined : ∀ u ∈ c.uses, (c.stmt? u.value).isSome = true ∧ (c.stmt? u.user).isSome = true

variable {c c' : Context} {n m : Nat}

theorem isSome_stmt?_iff {s : StmtId} : (c.stmt? s).isSome = true ↔ s.index < c.stmts.size := by
  simp [stmt?]

namespace Tidy

theorem reachable (h : c.Tidy) : c.Reachable :=
  h.history.reachable

theorem empty : Context.empty.Tidy where
  history := .empty
  nested h := by simp [stmt?, Context.empty] at h
  sized h := by simp [stmt?, Context.empty] at h
  defined u hu := by simp [Context.empty] at hu

/-- Blocks are created before the ones nested in them. -/
theorem lt_of_nests (h : c.Tidy) {inner outer : BlockId} (hn : c.Nests inner outer) :
    outer.index < inner.index ∧ inner.index < c.blocks.size := by
  obtain ⟨s, stmt, hs, hstmt, hb⟩ := hn
  have hhome := h.reachable.intact.home hs
  rw [home?_of_stmt? hstmt] at hhome
  refine ⟨h.nested hstmt hhome hb, ?_⟩
  have howner := h.reachable.intact.owner hstmt hb
  obtain ⟨block, hblock, -⟩ := Option.bind_eq_some_iff.1 howner
  rw [← isSome_block?_iff, hblock]
  rfl

/-- A block lies below older blocks only. -/
theorem finiteBelow (h : c.Tidy) (b : BlockId) : c.FiniteBelow b := by
  refine finiteBelow_of_rank (fun d => c.blocks.size - d.index) (fun d e hn => ?_) b
  have := h.lt_of_nests hn
  omega

theorem createBlock (h : c.Tidy) {b : BlockId} (hc : Context.createBlock c = .ok (b, c')) :
    c'.Tidy := by
  have hhistory : c'.History [] := h.history.createBlock hc
  obtain ⟨rfl, rfl⟩ := createBlock_eq_ok hc
  exact ⟨hhistory, h.nested, h.sized, h.defined⟩

theorem createStmt (h : c.Tidy) {kind : Kind} {type? : Option ValueType} {s : StmtId}
    (hc : Context.createStmt kind type? c = .ok (s, c'))
    (hops : ∀ v ∈ kind.operands, v.index < c.stmts.size)
    (hsized : Stmt.Sized ⟨kind, type?, none⟩) : c'.Tidy := by
  have hcr := createStmt_eq_ok hc
  refine ⟨h.history.createStmt hc, fun ht hb hd => ?_, fun ht => ?_, fun u hu => ?_⟩
  · rw [hcr.stmt?] at ht
    split at ht
    · cases ht
      cases hb
    · exact h.nested ht hb hd
  · rw [hcr.stmt?] at ht
    split at ht
    · cases ht
      exact hsized
    · exact h.sized ht
  · have hold : ∀ v : StmtId, v.index < c.stmts.size → (c'.stmt? v).isSome = true := fun v hv =>
      isSome_stmt?_iff.2 (by rw [hcr.stmts_size]; exact Nat.lt_succ_of_lt hv)
    rw [hcr.uses] at hu
    rcases List.mem_append.1 hu with hu | hu
    · have := h.defined u hu
      exact ⟨hold _ (isSome_stmt?_iff.1 this.1), hold _ (isSome_stmt?_iff.1 this.2)⟩
    · obtain ⟨huser, hop⟩ := Kind.mem_uses.1 hu
      exact ⟨hold _ (hops _ (List.mem_of_getElem? hop)), by simp [huser, hcr.stmt?]⟩

theorem push (h : c.Tidy) {b : BlockId} {s : StmtId} {stmt : Stmt} (hs : c.stmt? s = some stmt)
    (hblocks : ∀ d ∈ stmt.kind.blocks, b.index < d.index)
    (hc : Context.push b s c = .ok ((), c')) : c'.Tidy := by
  have hhistory : c'.History [] := h.history.push hc
  obtain ⟨stmt', block, hs', -, -, rfl⟩ := push_eq_ok hc
  obtain rfl : stmt = stmt' := Option.some.inj (hs.symm.trans hs')
  have hsome : ∀ t, ((c.list b block.stmts.length s).stmt? t).isSome = (c.stmt? t).isSome := by
    intro t
    rw [stmt?_list]
    split <;> simp
  refine ⟨hhistory, fun ht hd hm => ?_, fun ht => ?_, fun u hu => ?_⟩
  · rw [stmt?_list] at ht
    split at ht
    · next heq =>
      subst heq
      rw [hs] at ht
      cases ht
      cases hd
      exact hblocks _ hm
    · exact h.nested ht hd hm
  · rw [stmt?_list] at ht
    split at ht
    · obtain ⟨v, hv, rfl⟩ := Option.map_eq_some_iff.1 ht
      have hsized : v.Sized := h.sized hv
      exact hsized
    · exact h.sized ht
  · rw [hsome, hsome]
    exact h.defined u hu

end Tidy

/-! ## What is added -/

/-- One operation of a parser that began when `n` statements and `m` blocks were there : it makes a
block or a statement, or lists a statement. -/
inductive Adds (n m : Nat) : Context → Context → Prop where
  | createBlock {c c' : Context} {b : BlockId} (hc : Context.createBlock c = .ok (b, c')) :
    Adds n m c c'
  | createStmt {c c' : Context} {kind : Kind} {type? : Option ValueType} {s : StmtId}
    (hops : ∀ v ∈ kind.operands, n ≤ v.index ∧ v.index < c.stmts.size)
    (hblocks : ∀ d ∈ kind.blocks, m ≤ d.index) (hsized : Stmt.Sized ⟨kind, type?, none⟩)
    (hc : Context.createStmt kind type? c = .ok (s, c')) : Adds n m c c'
  | push {c c' : Context} {b : BlockId} {s : StmtId} {stmt : Stmt} (hs : c.stmt? s = some stmt)
    (hfrom : n ≤ s.index ∧ m ≤ b.index) (hblocks : ∀ d ∈ stmt.kind.blocks, b.index < d.index)
    (hc : Context.push b s c = .ok ((), c')) : Adds n m c c'

/-- Any number of operations of a parser. -/
def Grows (n m : Nat) : Context → Context → Prop :=
  Relation.ReflTransGen (Adds n m)

theorem Adds.size_le (h : Adds n m c c') :
    c.stmts.size ≤ c'.stmts.size ∧ c.blocks.size ≤ c'.blocks.size := by
  cases h with
  | createBlock hc =>
    obtain ⟨rfl, rfl⟩ := createBlock_eq_ok hc
    simp
  | createStmt hops hblocks hsized hc =>
    have hcr := createStmt_eq_ok hc
    rw [hcr.stmts_size, hcr.blocks_size]
    exact ⟨Nat.le_succ _, Nat.le_refl _⟩
  | push hs hfrom hblocks hc =>
    obtain ⟨stmt, block, -, -, -, rfl⟩ := push_eq_ok hc
    simp [list, modifyBlock, modifyStmt]

/-- Nothing is lost. -/
theorem Grows.size_le (h : Grows n m c c') :
    c.stmts.size ≤ c'.stmts.size ∧ c.blocks.size ≤ c'.blocks.size := by
  induction h with
  | refl => exact ⟨Nat.le_refl _, Nat.le_refl _⟩
  | tail _ hstep ih => exact ⟨Nat.le_trans ih.1 hstep.size_le.1, Nat.le_trans ih.2 hstep.size_le.2⟩

theorem Adds.tidy (h : Adds n m c c') (hc : c.Tidy) : c'.Tidy := by
  cases h with
  | createBlock h => exact hc.createBlock h
  | createStmt hops _ hsized h => exact hc.createStmt h (fun v hv => (hops v hv).2) hsized
  | push hs _ hblocks h => exact hc.push hs hblocks h

theorem Grows.tidy (h : Grows n m c c') (hc : c.Tidy) : c'.Tidy := by
  induction h with
  | refl => exact hc
  | tail _ hstep ih => exact hstep.tidy ih

end Context

/-! ## One statement -/

theorem exists_of_bind_eq_ok {ε α β : Type} {x : Except ε α} {f : α → Except ε β} {b : β}
    (h : (x >>= f) = .ok b) : ∃ a, x = .ok a ∧ f a = .ok b := by
  cases x with
  | error e => cases h
  | ok a => exact ⟨a, rfl, h⟩

/-- The values of a list of visible names. -/
def Names.values (names : Names) : List StmtId :=
  names.map Prod.snd

theorem Names.mem_of_find {names : Names} {name : ValueName} {s : StmtId}
    (h : names.find name = .ok s) : s ∈ names.values := by
  unfold find at h
  split at h
  · next t ht =>
    obtain rfl : t = s := by simpa using h
    obtain ⟨l₁, l₂, rfl, -⟩ := List.lookup_eq_some_iff.1 ht
    simp [values]
  · cases h

theorem Names.mem_of_find? {names : Names} {name? : Option ValueName} {s? : Option StmtId}
    (h : names.find? name? = .ok s?) : ∀ s ∈ s?, s ∈ names.values := by
  cases name? with
  | none =>
    obtain rfl : none = s? := by simpa [find?] using h
    simp
  | some name =>
    obtain ⟨s, hs, he⟩ := exists_of_bind_eq_ok h
    obtain rfl : some s = s? := by simpa [pure, Except.pure] using he
    simpa using mem_of_find hs

/-- A list is mapped where each of its members is, one by one. -/
theorem mapM_eq_ok_iff {ε α β : Type} {f : α → Except ε β} {l : List α} {l' : List β} :
    l.mapM f = .ok l' ↔ List.Forall₂ (fun a b => f a = .ok b) l l' := by
  induction l generalizing l' with
  | nil =>
    simp only [List.mapM_nil, List.forall₂_nil_left_iff]
    exact ⟨fun h => (Except.ok.inj h).symm, fun h => h ▸ rfl⟩
  | cons a l ih =>
    rw [List.mapM_cons]
    constructor
    · intro h
      obtain ⟨b, hb, h⟩ := exists_of_bind_eq_ok h
      obtain ⟨bs, hbs, h⟩ := exists_of_bind_eq_ok h
      obtain rfl := Except.ok.inj h
      exact .cons hb (ih.1 hbs)
    · rintro (_ | ⟨hb, hbs⟩)
      rw [hb, ih.2 hbs]
      rfl

theorem exists_left_of_forall₂ {α β : Type} {R : α → β → Prop} {l : List α} {l' : List β}
    (h : List.Forall₂ R l l') {b : β} (hb : b ∈ l') : ∃ a ∈ l, R a b := by
  induction h with
  | nil => cases hb
  | cons hr _ ih =>
    rcases List.mem_cons.1 hb with rfl | hb
    · exact ⟨_, List.mem_cons_self, hr⟩
    · obtain ⟨a, ha, hab⟩ := ih hb
      exact ⟨a, List.mem_cons_of_mem _ ha, hab⟩

/-- A kind whose operands are visible and that owns just the given blocks. -/
structure Kind.Resolved (names : Names) (type? : Option ValueType) (d? e? : Option BlockId)
    (k : Kind) : Prop where
  visible : ∀ v ∈ k.operands, v ∈ names.values
  first : k.firstBlock? = d?
  second : k.secondBlock? = e?
  sized : Stmt.Sized ⟨k, type?, none⟩

/-- Whatever blocks the statement gets, it is in order. -/
def Shape.Resolved (names : Names) (type? : Option ValueType) : Shape → Prop
  | .plain kind => kind.Resolved names type? none none
  | .body kind => ∀ d, (kind d).Resolved names type? (some d) none
  | .branch kind _ => ∀ d e?, (kind d e?).Resolved names type? (some d) e?

theorem Kind.Resolved.blocks {names : Names} {type? : Option ValueType} {d? e? : Option BlockId}
    {k : Kind} (h : k.Resolved names type? d? e?) : k.blocks = d?.toList ++ e?.toList := by
  rw [Kind.blocks, h.first, h.second]

/-- The name of a type is that of its element, and its number of lanes may follow. -/
theorem ValueType.eq_or_exists_of_ofName? {cs : List Char} {type : ValueType}
    (h : ofName? cs = some type) : cs = type.element.name.toList ∧ type.width = 1 ∨
      ∃ digits, cs = type.element.name.toList ++ 'x' :: digits ∧
        width? digits = some type.width := by
  obtain ⟨element, -, he⟩ := List.exists_of_findSome?_eq_some h
  unfold withElement? at he
  split at he
  · next hname =>
    cases he
    rw [List.isPrefixOf?_eq_some_iff_append_eq] at hname
    exact .inl ⟨by simpa using hname.symm, rfl⟩
  · next digits hname =>
    obtain ⟨n, hn, rfl⟩ := Option.map_eq_some_iff.1 he
    rw [List.isPrefixOf?_eq_some_iff_append_eq] at hname
    exact .inr ⟨digits, hname.symm, hn⟩
  · cases he

theorem ValueType.width_of_ofName? {cs : List Char} {type : ValueType}
    (h : ofName? cs = some type) :
    1 ≤ type.width ∧ type.width ≤ maxWidth := by
  obtain ⟨-, hone⟩ | ⟨digits, -, hdigits⟩ := eq_or_exists_of_ofName? h
  · rw [hone]
    decide
  · simp only [width?, Option.ite_none_right_eq_some, Option.some.injEq] at hdigits
    exact hdigits.2 ▸ hdigits.1.2.2

/-- A statement has the type that it is annotated with. -/
theorem Head.type?_eq_ok_iff {head : Head} {type? : Option ValueType} : head.type? = .ok type? ↔
    type? = head.annotated? ∧
      (head.form.hasValue = true → head.result?.isSome = true ∧ head.annotated?.isSome = true) ∧
      (head.form.hasValue = false → head.result? = none ∧ head.annotation? = none) := by
  unfold Head.type? annotated?
  cases head.annotation? with
  | none =>
    cases head.form.hasValue <;> cases head.result? <;>
      simp [bind, Except.bind, pure, Except.pure, throw, throwThe, MonadExceptOf.throw, eq_comm]
  | some name =>
    cases hname : ValueType.ofName? name <;> cases head.form.hasValue <;> cases head.result? <;>
      simp [hname, bind, Except.bind, pure, Except.pure, throw, throwThe, MonadExceptOf.throw,
        eq_comm]

/-- A statement with a value has a type, and its number of lanes is one that a name can give. -/
theorem Head.exists_type {head : Head} {type? : Option ValueType} (h : head.type? = .ok type?)
    (hvalue : head.form.hasValue = true) :
    ∃ type, type? = some type ∧ 1 ≤ type.width ∧ type.width ≤ ValueType.maxWidth := by
  obtain ⟨rfl, hproduces, -⟩ := type?_eq_ok_iff.1 h
  obtain ⟨type, htype⟩ := Option.isSome_iff_exists.1 (hproduces hvalue).2
  obtain ⟨name, -, hname⟩ := Option.bind_eq_some_iff.1 htype
  exact ⟨type, htype, ValueType.width_of_ofName? hname⟩

theorem Head.eq_some_of_required {head : Head} {type? : Option ValueType} {type : ValueType}
    (h : head.required type? = .ok type) : type? = some type := by
  cases type? with
  | none => cases h
  | some t => exact congrArg some (Except.ok.inj h)

/-- What statements of a form become, with what resolving finds for the names and literals in it. -/
inductive Head.Shapes (names : Names) (head : Head) (type? : Option ValueType) : Form → Shape →
    Prop where
  | alloca : Shapes names head type? .alloca (.plain .alloca)
  | splat {lane lane' : Constant} {type : ValueType} (htype : type? = some type)
    (hlane : lane.convert type = .ok lane') :
    Shapes names head type? (.splat lane) (.plain (.const (List.replicate type.width lane')))
  | lanes {lanes lanes' : List Constant} {type : ValueType} (htype : type? = some type)
    (hlength : lanes'.length = type.width)
    (hlanes : List.Forall₂ (fun lane lane' => lane.convert type = .ok lane') lanes lanes') :
    Shapes names head type? (.lanes lanes) (.plain (.const lanes'))
  | arg (index : Nat) : Shapes names head type? (.arg index) (.plain (.arg index))
  | binary {op : BinaryOp} {lhs rhs : ValueName} {l r : StmtId}
    (hop : BinaryOp.ofName? head.keyword = some op) (hl : names.find lhs = .ok l)
    (hr : names.find rhs = .ok r) :
    Shapes names head type? (.binary lhs rhs) (.plain (.binary op l r))
  | loadSlot {slot : ValueName} {s : StmtId} {type : ValueType} (htype : type? = some type)
    (hs : names.find slot = .ok s) :
    Shapes names head type? (.loadSlot slot) (.plain (.load ((List.range type.width).map (⟨s, ·⟩))))
  | loadLanes {lanes : List (ValueName × Nat)} {lanes' : List SlotLane} {type : ValueType}
    (htype : type? = some type) (hlength : lanes'.length = type.width)
    (hlanes : List.Forall₂ (fun lane lane' => names.find lane.1 = .ok lane'.slot ∧
      lane.2 = lane'.offset) lanes lanes') :
    Shapes names head type? (.loadLanes lanes) (.plain (.load lanes'))
  | store {slot value : ValueName} {s v : StmtId} (hs : names.find slot = .ok s)
    (hv : names.find value = .ok v) :
    Shapes names head type? (.store slot value) (.plain (.store s v))
  | atomic {op : AtomicOp} {slot value : ValueName} {s v : StmtId}
    (hop : ("atomic_".toList.isPrefixOf? head.keyword).bind AtomicOp.ofName? = some op)
    (hs : names.find slot = .ok s) (hv : names.find value = .ok v) :
    Shapes names head type? (.atomic slot value) (.plain (.atomic op s v))
  | print {value : ValueName} {v : StmtId} (hv : names.find value = .ok v) :
    Shapes names head type? (.print value) (.plain (.print v))
  | branch {cond : ValueName} {trueMask falseMask : Option ValueName} (otherwise : Bool)
    {v : StmtId}
    {m? n? : Option StmtId} (hv : names.find cond = .ok v) (hm : names.find? trueMask = .ok m?)
    (hn : names.find? falseMask = .ok n?) :
    Shapes names head type? (.branch cond trueMask falseMask otherwise)
      (.branch (fun b d => .branch v m? n? (some b) d) otherwise)
  | loop {mask : Option ValueName} {m? : Option StmtId} (hm : names.find? mask = .ok m?) :
    Shapes names head type? (.loop mask) (.body (.loop m?))
  | leave {cond : ValueName} {v : StmtId} (hv : names.find cond = .ok v) :
    Shapes names head type? (.leave cond) (.plain (.leave v))
  | rangeFor {counter lower upper : ValueName} {u v w : StmtId} (hu : names.find counter = .ok u)
    (hv : names.find lower = .ok v) (hw : names.find upper = .ok w) :
    Shapes names head type? (.rangeFor counter lower upper) (.body (.rangeFor u v w))
  | structFor {counters : List ValueName} (snode : List Char) {vs : List StmtId}
    (hvs : List.Forall₂ (fun name v => names.find name = .ok v) counters vs) :
    Shapes names head type? (.structFor counters snode)
      (.body (.structFor vs (String.ofList snode)))

/-- A statement is resolved name by name. -/
theorem Head.shapes_of_shapeAt {names : Names} {head : Head} {type? : Option ValueType}
    {shape : Shape} (h : head.shapeAt names type? = .ok shape) :
    head.Shapes names type? head.form shape := by
  unfold Head.shapeAt at h
  cases hform : head.form with
  | alloca =>
    rw [hform] at h
    cases h
    exact .alloca
  | splat lane =>
    rw [hform] at h
    obtain ⟨type, htype, h⟩ := exists_of_bind_eq_ok h
    obtain ⟨lane', hlane, h⟩ := exists_of_bind_eq_ok h
    cases h
    exact .splat (eq_some_of_required htype) hlane
  | lanes lanes =>
    rw [hform] at h
    obtain ⟨type, htype, h⟩ := exists_of_bind_eq_ok h
    by_cases hlength : lanes.length = type.width
    · rw [if_neg (not_not.2 hlength)] at h
      obtain ⟨lanes', hlanes, h⟩ := exists_of_bind_eq_ok h
      cases h
      have hall := mapM_eq_ok_iff.1 hlanes
      exact .lanes (eq_some_of_required htype) (hall.length_eq ▸ hlength) hall
    · rw [if_pos hlength] at h
      cases h
  | arg index =>
    rw [hform] at h
    cases h
    exact .arg index
  | binary lhs rhs =>
    rw [hform] at h
    cases hop : BinaryOp.ofName? head.keyword with
    | none =>
      simp only [hop] at h
      cases h
    | some op =>
      simp only [hop] at h
      obtain ⟨l, hl, h⟩ := exists_of_bind_eq_ok h
      obtain ⟨r, hr, h⟩ := exists_of_bind_eq_ok h
      cases h
      exact .binary hop hl hr
  | loadSlot slot =>
    rw [hform] at h
    obtain ⟨type, htype, h⟩ := exists_of_bind_eq_ok h
    obtain ⟨s, hs, h⟩ := exists_of_bind_eq_ok h
    cases h
    exact .loadSlot (eq_some_of_required htype) hs
  | loadLanes lanes =>
    rw [hform] at h
    obtain ⟨type, htype, h⟩ := exists_of_bind_eq_ok h
    by_cases hlength : lanes.length = type.width
    · rw [if_neg (not_not.2 hlength)] at h
      obtain ⟨lanes', hlanes, h⟩ := exists_of_bind_eq_ok h
      cases h
      have hall := mapM_eq_ok_iff.1 hlanes
      refine .loadLanes (eq_some_of_required htype) (hall.length_eq ▸ hlength) (hall.imp ?_)
      intro lane lane' hlane
      obtain ⟨s, hs, hlane⟩ := exists_of_bind_eq_ok hlane
      cases hlane
      exact ⟨hs, rfl⟩
    · rw [if_pos hlength] at h
      cases h
  | store slot value =>
    rw [hform] at h
    obtain ⟨s, hs, h⟩ := exists_of_bind_eq_ok h
    obtain ⟨v, hv, h⟩ := exists_of_bind_eq_ok h
    cases h
    exact .store hs hv
  | atomic slot value =>
    rw [hform] at h
    cases hop : ("atomic_".toList.isPrefixOf? head.keyword).bind AtomicOp.ofName? with
    | none =>
      simp only [hop] at h
      cases h
    | some op =>
      simp only [hop] at h
      obtain ⟨s, hs, h⟩ := exists_of_bind_eq_ok h
      obtain ⟨v, hv, h⟩ := exists_of_bind_eq_ok h
      cases h
      exact .atomic hop hs hv
  | print value =>
    rw [hform] at h
    obtain ⟨v, hv, h⟩ := exists_of_bind_eq_ok h
    cases h
    exact .print hv
  | branch cond trueMask falseMask otherwise =>
    rw [hform] at h
    obtain ⟨v, hv, h⟩ := exists_of_bind_eq_ok h
    obtain ⟨m, hm, h⟩ := exists_of_bind_eq_ok h
    obtain ⟨n, hn, h⟩ := exists_of_bind_eq_ok h
    cases h
    exact .branch otherwise hv hm hn
  | loop mask =>
    rw [hform] at h
    obtain ⟨m, hm, h⟩ := exists_of_bind_eq_ok h
    cases h
    exact .loop hm
  | leave cond =>
    rw [hform] at h
    obtain ⟨v, hv, h⟩ := exists_of_bind_eq_ok h
    cases h
    exact .leave hv
  | rangeFor counter lower upper =>
    rw [hform] at h
    obtain ⟨u, hu, h⟩ := exists_of_bind_eq_ok h
    obtain ⟨v, hv, h⟩ := exists_of_bind_eq_ok h
    obtain ⟨w, hw, h⟩ := exists_of_bind_eq_ok h
    cases h
    exact .rangeFor hu hv hw
  | structFor counters snode =>
    rw [hform] at h
    obtain ⟨vs, hvs, h⟩ := exists_of_bind_eq_ok h
    cases h
    exact .structFor snode (mapM_eq_ok_iff.1 hvs)

theorem Head.shapeAt_of_shapes {names : Names} {head : Head} {type? : Option ValueType}
    {shape : Shape} (h : head.Shapes names type? head.form shape) :
    head.shapeAt names type? = .ok shape := by
  unfold Head.shapeAt
  generalize head.form = form at h
  cases h with
  | loadLanes htype hlength hlanes =>
    have hmap := mapM_eq_ok_iff.2 (hlanes.imp fun lane lane' h =>
      show (do let slot ← names.find lane.1; return ⟨slot, lane.2⟩ : Except ResolveError SlotLane) =
        .ok lane' by rw [h.1, h.2]; rfl)
    simp only [bind, Except.bind, pure, Except.pure] at hmap
    simp [htype, required, hlanes.length_eq, hlength, hmap, bind, Except.bind, pure, Except.pure]
  | lanes htype hlength hlanes =>
    have hmap := mapM_eq_ok_iff.2 hlanes
    simp [htype, required, hlanes.length_eq, hlength, hmap, bind, Except.bind, pure, Except.pure]
  | structFor snode hvs =>
    have hmap := mapM_eq_ok_iff.2 hvs
    simp [hmap, bind, Except.bind, pure, Except.pure]
  | _ => simp_all [required, bind, Except.bind, pure, Except.pure]

/-- What is resolved is in order if the type is. -/
theorem Head.Shapes.resolved {names : Names} {head : Head} {type? : Option ValueType} {form : Form}
    {shape : Shape} (h : head.Shapes names type? form shape)
    (hvalue : form.hasValue = true → ∃ type, type? = some type ∧ 1 ≤ type.width) :
    shape.Resolved names type? := by
  cases h with
  | alloca =>
    obtain ⟨type, rfl, hw⟩ := hvalue rfl
    exact ⟨by simp [Kind.operands], rfl, rfl, fun _ => hw, trivial⟩
  | splat htype hlane =>
    obtain ⟨type, rfl, hw⟩ := hvalue rfl
    cases htype
    exact ⟨by simp [Kind.operands], rfl, rfl, fun _ => hw, by simp [Stmt.width]⟩
  | lanes htype hlength hlanes =>
    obtain ⟨type, rfl, hw⟩ := hvalue rfl
    cases htype
    exact ⟨by simp [Kind.operands], rfl, rfl, fun _ => hw, by simp [Stmt.width, hlength]⟩
  | arg index =>
    obtain ⟨type, rfl, hw⟩ := hvalue rfl
    exact ⟨by simp [Kind.operands], rfl, rfl, fun _ => hw, trivial⟩
  | binary hop hl hr =>
    obtain ⟨type, rfl, hw⟩ := hvalue rfl
    have hl := Names.mem_of_find hl
    have hr := Names.mem_of_find hr
    exact ⟨by simp [Kind.operands, hl, hr], rfl, rfl, fun _ => hw, trivial⟩
  | loadSlot htype hs =>
    obtain ⟨type, rfl, hw⟩ := hvalue rfl
    cases htype
    have hs := Names.mem_of_find hs
    exact ⟨by simp [Kind.operands, hs], rfl, rfl, fun _ => hw, by simp [Stmt.width]⟩
  | loadLanes htype hlength hlanes =>
    obtain ⟨type, rfl, hw⟩ := hvalue rfl
    cases htype
    refine ⟨fun v hv => ?_, rfl, rfl, fun _ => hw, by simp [Stmt.width, hlength]⟩
    obtain ⟨lane', hl', rfl⟩ := List.mem_map.1 hv
    obtain ⟨lane, -, hlane⟩ := exists_left_of_forall₂ hlanes hl'
    exact Names.mem_of_find hlane.1
  | store hs hv =>
    have hs := Names.mem_of_find hs
    have hv := Names.mem_of_find hv
    exact ⟨by simp [Kind.operands, hs, hv], rfl, rfl, by simp [Kind.hasValue], trivial⟩
  | atomic hop hs hv =>
    obtain ⟨type, rfl, hw⟩ := hvalue rfl
    have hs := Names.mem_of_find hs
    have hv := Names.mem_of_find hv
    exact ⟨by simp [Kind.operands, hs, hv], rfl, rfl, fun _ => hw, trivial⟩
  | print hv =>
    have hv := Names.mem_of_find hv
    exact ⟨by simp [Kind.operands, hv], rfl, rfl, by simp [Kind.hasValue], trivial⟩
  | branch otherwise hv hm hn =>
    have hv := Names.mem_of_find hv
    have hm := Names.mem_of_find? hm
    have hn := Names.mem_of_find? hn
    intro d e?
    refine ⟨?_, rfl, rfl, by simp [Kind.hasValue], trivial⟩
    simp only [Kind.operands, List.mem_cons, List.mem_append, Option.mem_toList]
    rintro w (rfl | hw | hw)
    · exact hv
    · exact hm w hw
    · exact hn w hw
  | loop hm =>
    have hm := Names.mem_of_find? hm
    exact fun d => ⟨by simpa [Kind.operands] using hm, rfl, rfl, by simp [Kind.hasValue], trivial⟩
  | leave hv =>
    have hv := Names.mem_of_find hv
    exact ⟨by simp [Kind.operands, hv], rfl, rfl, by simp [Kind.hasValue], trivial⟩
  | rangeFor hu hv hw =>
    have hu := Names.mem_of_find hu
    have hv := Names.mem_of_find hv
    have hw := Names.mem_of_find hw
    exact fun d => ⟨by simp [Kind.operands, hu, hv, hw], rfl, rfl, by simp [Kind.hasValue], trivial⟩
  | structFor snode hvs =>
    refine fun d => ⟨fun v hv => ?_, rfl, rfl, by simp [Kind.hasValue], trivial⟩
    obtain ⟨name, -, hname⟩ := exists_left_of_forall₂ hvs hv
    exact Names.mem_of_find hname

theorem Head.shapes_of_shape {names : Names} {head : Head} {type? : Option ValueType}
    {shape : Shape} (h : head.shape names = .ok (type?, shape)) :
    head.type? = .ok type? ∧ head.Shapes names type? head.form shape := by
  obtain ⟨type', htype, h⟩ := exists_of_bind_eq_ok h
  obtain ⟨shape', hshape, h⟩ := exists_of_bind_eq_ok h
  cases h
  exact ⟨htype, shapes_of_shapeAt hshape⟩

theorem Head.shape_resolved {names : Names} {head : Head} {type? : Option ValueType}
    {shape : Shape} (h : head.shape names = .ok (type?, shape)) :
    shape.Resolved names type? := by
  obtain ⟨htype, hshapes⟩ := Head.shapes_of_shape h
  refine hshapes.resolved fun hvalue => ?_
  obtain ⟨type, rfl, hwidth, -⟩ := Head.exists_type htype hvalue
  exact ⟨type, rfl, hwidth⟩

/-! ## Blocks -/

namespace Resolve

variable {α β : Type} {c : Context} {n m : Nat}

theorem run_bind_of_refused {x : Resolve α} {f : α → Resolve β} {misuse : Misuse}
    (h : x.run c = .error misuse) : (x >>= f).run c = .error misuse := by
  change (x.run >>= ExceptT.bindCont f) c = _
  simp only [Bind.bind, StateT.bind, Except.bind, h]

theorem run_bind_of_error {x : Resolve α} {f : α → Resolve β} {e : ResolveError} {c' : Context}
    (h : x.run c = .ok (.error e, c')) : (x >>= f).run c = .ok (.error e, c') := by
  change (x.run >>= ExceptT.bindCont f) c = _
  simp only [Bind.bind, StateT.bind, Except.bind, h]
  rfl

theorem run_bind_of_ok {x : Resolve α} {f : α → Resolve β} {a : α} {c' : Context}
    (h : x.run c = .ok (.ok a, c')) : (x >>= f).run c = (f a).run c' := by
  change (x.run >>= ExceptT.bindCont f) c = _
  simp only [Bind.bind, StateT.bind, Except.bind, h]
  rfl

theorem run_lift (x : Edit α) :
    (liftM x : Resolve α).run c = (x c).map fun p => (.ok p.1, p.2) := by
  change (x >>= fun a => (Pure.pure (Except.ok a) : Edit _)) c = _
  simp only [Bind.bind, StateT.bind]
  cases x c <;> rfl

/-- The computation only adds to the context, and what it returns is as `post` says. -/
def Leads (n m : Nat) (x : Resolve α) (c : Context) (post : α → Context → Prop) : Prop :=
  ∀ r c', x.run c = .ok (r, c') → c.Grows n m c' ∧ ∀ a, r = .ok a → post a c'

theorem Leads.pure {a : α} {post : α → Context → Prop} (h : post a c) :
    Leads n m (pure a) c post := by
  intro r c' hrun
  obtain ⟨rfl, rfl⟩ : Except.ok a = r ∧ c = c' := Prod.mk.inj (Except.ok.inj hrun)
  exact ⟨.refl, fun b hb => Except.ok.inj hb ▸ h⟩

/-- Two steps of the resolution lead where the second leads from wherever the first does. -/
theorem Leads.bind {x : Resolve α} {f : α → Resolve β} {P : α → Context → Prop}
    {post : β → Context → Prop} (hx : Leads n m x c P)
    (hf : ∀ a c', P a c' → c.Grows n m c' → Leads n m (f a) c' post) :
    Leads n m (x >>= f) c post := by
  intro r c' hrun
  cases hx' : x.run c with
  | error misuse => cases (run_bind_of_refused hx').symm.trans hrun
  | ok p =>
    obtain ⟨r₁, c₁⟩ := p
    obtain ⟨hg₁, hmid⟩ := hx _ _ hx'
    cases r₁ with
    | error e =>
      obtain ⟨rfl, rfl⟩ : Except.error e = r ∧ c₁ = c' :=
        Prod.mk.inj (Except.ok.inj ((run_bind_of_error hx').symm.trans hrun))
      exact ⟨hg₁, by simp⟩
    | ok a =>
      obtain ⟨hg', hpost⟩ := hf a c₁ (hmid a rfl) hg₁ _ _ ((run_bind_of_ok hx').symm.trans hrun)
      exact ⟨hg₁.trans hg', hpost⟩

theorem Leads.mono {x : Resolve α} {mid post : α → Context → Prop} (hx : Leads n m x c mid)
    (h : ∀ a c', mid a c' → post a c') : Leads n m x c post := by
  intro r c' hrun
  obtain ⟨hg, hmid⟩ := hx _ _ hrun
  exact ⟨hg, fun a ha => h a c' (hmid a ha)⟩

/-- What does not touch the context. -/
theorem Leads.ofExcept (e : Except ResolveError α) :
    Leads n m (ExceptT.mk (Pure.pure e)) c fun a c' => e = .ok a ∧ c' = c := by
  intro r c' hrun
  obtain ⟨rfl, rfl⟩ : e = r ∧ c = c' := Prod.mk.inj (Except.ok.inj hrun)
  exact ⟨.refl, fun a ha => ⟨ha, rfl⟩⟩

/-- An operation on the context. -/
theorem Leads.lift {x : Edit α} {post : α → Context → Prop}
    (h : ∀ {a c'}, x c = .ok (a, c') → c.Adds n m c' ∧ post a c') :
    Leads n m (liftM x : Resolve α) c post := by
  intro r c' hrun
  rw [run_lift] at hrun
  cases hx : x c with
  | error misuse =>
    rw [hx] at hrun
    cases hrun
  | ok p =>
    rw [hx] at hrun
    obtain ⟨rfl, rfl⟩ : Except.ok p.1 = r ∧ p.2 = c' := Prod.mk.inj (Except.ok.inj hrun)
    obtain ⟨hadds, hpost⟩ := h hx
    exact ⟨.single hadds, fun a ha => Except.ok.inj ha ▸ hpost⟩

/-- A block that is filled is new. -/
theorem Leads.block {fill : BlockId → Resolve Unit}
    (h : ∀ b c', c.Grows n m c' → b.index = c.blocks.size → b.index < c'.blocks.size →
      Leads n m (fill b) c' fun _ _ => True) :
    Leads n m (Resolve.block fill) c
      fun b c' => c.blocks.size ≤ b.index ∧ b.index < c'.blocks.size := by
  unfold Resolve.block
  refine .bind (P := fun b c' => b.index = c.blocks.size ∧ b.index < c'.blocks.size)
    (.lift fun {b c'} hrun => ?_) fun b c' hb hg => ?_
  · refine ⟨.createBlock hrun, ?_⟩
    obtain ⟨rfl, rfl⟩ := Context.createBlock_eq_ok hrun
    simp
  · exact .bind (h b c' hg hb.1 hb.2) fun _ c'' _ hg' => .pure
      ⟨Nat.le_of_eq hb.1.symm, Nat.lt_of_lt_of_le hb.2 hg'.size_le.2⟩

end Resolve

theorem Kind.Resolved.leads_createStmt {names : Names} {type? : Option ValueType}
    {d? e? : Option BlockId} {kind : Kind} (h : kind.Resolved names type? d? e?) {c : Context}
    {n m : Nat} (hnames : ∀ v ∈ names.values, n ≤ v.index ∧ v.index < c.stmts.size)
    (hblocks : ∀ d ∈ kind.blocks, m ≤ d.index) :
    Resolve.Leads n m (liftM (Context.createStmt kind type?)) c
      fun s c' => s.index = c.stmts.size ∧ c'.stmt? s = some ⟨kind, type?, none⟩ :=
  .lift fun {_ _} hrun => by
    have hcr := Context.createStmt_eq_ok hrun
    exact ⟨.createStmt (fun v hv => hnames v (h.visible v hv)) hblocks h.sized hrun,
      congrArg StmtId.index hcr.id_eq, by simp [hcr.stmt?]⟩

theorem Resolve.leads_push {c : Context} {b : BlockId} {s : StmtId} {stmt : Stmt} {n m : Nat}
    (hs : c.stmt? s = some stmt) (hfrom : n ≤ s.index ∧ m ≤ b.index)
    (hblocks : ∀ d ∈ stmt.kind.blocks, b.index < d.index) :
    Resolve.Leads n m (liftM (Context.push b s)) c fun _ _ => True :=
  .lift fun {_ _} hrun => ⟨.push hs hfrom hblocks hrun, trivial⟩

theorem Names.values_of_bind {names names' : Names} {s : StmtId} {name? : Option ValueName}
    (h : names.bind s name? = .ok names') : ∀ v ∈ names'.values, v = s ∨ v ∈ names.values := by
  unfold bind at h
  split at h
  · cases h
    exact fun v hv => .inr hv
  · split at h
    · cases h
    · cases h
      simp [values]

/-- Resolving a draft only adds to the context, whether it succeeds or not. -/
theorem Draft.leads_resolve (draft : Draft) {names : Names} {b : BlockId} {c : Context} {n m : Nat}
    (hnames : ∀ v ∈ names.values, n ≤ v.index ∧ v.index < c.stmts.size)
    (hb : m ≤ b.index ∧ b.index < c.blocks.size) (hn : n ≤ c.stmts.size) :
    Resolve.Leads n m (draft.resolve names b) c fun _ _ => True := by
  induction draft generalizing names b c with
  | nil => exact .pure trivial
  | cons head first second rest ih₁ ih₂ ih₃ =>
    have hkeep : ∀ {c' : Context}, c.Grows n m c' →
        (∀ v ∈ names.values, n ≤ v.index ∧ v.index < c'.stmts.size) ∧ n ≤ c'.stmts.size ∧
          b.index < c'.blocks.size := fun hg =>
      ⟨fun v hv => ⟨(hnames v hv).1, Nat.lt_of_lt_of_le (hnames v hv).2 hg.size_le.1⟩,
        Nat.le_trans hn hg.size_le.1, Nat.lt_of_lt_of_le hb.2 hg.size_le.2⟩
    have hnested : ∀ {draft : Draft} {c₁ : Context},
        (∀ {names : Names} {b : BlockId} {c : Context},
          (∀ v ∈ names.values, n ≤ v.index ∧ v.index < c.stmts.size) →
            m ≤ b.index ∧ b.index < c.blocks.size → n ≤ c.stmts.size →
            Resolve.Leads n m (draft.resolve names b) c fun _ _ => True) →
        c.Grows n m c₁ → Resolve.Leads n m (Resolve.block (draft.resolve names)) c₁
          fun d _ => b.index < d.index := by
      intro draft c₁ ih hg
      obtain ⟨-, -, hlt⟩ := hkeep hg
      refine (Resolve.Leads.block fun d c₂ hg₂ hd hd' => ?_).mono
        fun d _ hd => Nat.lt_of_lt_of_le hlt hd.1
      obtain ⟨hnames₂, hn₂, -⟩ := hkeep (hg.trans hg₂)
      exact ih hnames₂ ⟨by omega, hd'⟩ hn₂
    rw [Draft.resolve]
    refine .bind (.ofExcept _) ?_
    rintro ⟨type?, shape⟩ c' ⟨hshape, rfl⟩ -
    have hresolved := Head.shape_resolved hshape
    -- what follows the blocks is the same for every shape
    have htail : ∀ {kind : Kind} {d? e? : Option BlockId} {c₁ : Context},
        kind.Resolved names type? d? e? → c'.Grows n m c₁ →
        (∀ d ∈ d?.toList ++ e?.toList, b.index < d.index) →
        Resolve.Leads n m (do
          let s ← liftM (Context.createStmt kind type?)
          liftM (Context.push b s)
          let names ← ExceptT.mk (pure (names.bind s head.result?))
          rest.resolve names b) c₁ fun _ _ => True := by
      intro kind d? e? c₁ hkind hg hblocks
      obtain ⟨hnames₁, hn₁, -⟩ := hkeep hg
      rw [← hkind.blocks] at hblocks
      refine .bind (hkind.leads_createStmt hnames₁ fun d hd => Nat.le_of_lt
        (Nat.lt_of_le_of_lt hb.1 (hblocks d hd))) fun s c₂ hs hg₂ => ?_
      have hlt : s.index < c₂.stmts.size := Context.isSome_stmt?_iff.1 (by rw [hs.2]; rfl)
      refine .bind (Resolve.leads_push hs.2 ⟨by omega, hb.1⟩ hblocks) fun _ c₃ _ hg₃ => ?_
      refine .bind (.ofExcept _) ?_
      rintro names' _ ⟨hbind, rfl⟩ -
      obtain ⟨hnames₃, hn₃, hb₃⟩ := hkeep (hg.trans (hg₂.trans hg₃))
      refine ih₃ (fun v hv => ?_) ⟨hb.1, hb₃⟩ hn₃
      rcases Names.values_of_bind hbind v hv with rfl | hv
      · exact ⟨by omega, Nat.lt_of_lt_of_le hlt hg₃.size_le.1⟩
      · exact hnames₃ v hv
    cases shape with
    | plain kind => exact htail hresolved .refl (by simp)
    | body kind =>
      refine .bind (hnested ih₁ .refl) fun d c₁ hd hg => ?_
      exact htail (hresolved d) hg (by simpa using hd)
    | branch kind otherwise =>
      refine .bind (hnested ih₁ .refl) fun d c₁ hd hg => ?_
      cases otherwise with
      | false => exact htail (hresolved d none) hg (by simpa using hd)
      | true =>
        refine .bind (hnested ih₂ hg) fun e c₂ he hg₂ => ?_
        exact htail (hresolved d (some e)) (hg.trans hg₂) (by simp [hd, he])

/-! ## Kernels -/

/-- A context that parsing leads to. -/
inductive Parsed : Context → Prop where
  | empty : Parsed .empty
  | parse {c c' : Context} {text : List Char} {result : Except ParseError Kernel} (h : Parsed c)
    (hparse : parseKernel text c = .ok (result, c')) : Parsed c'

/-- Parsing only adds to the context, whether there is a kernel in the text or not. -/
theorem Context.grows_parseKernel {c c' : Context} {text : List Char}
    {result : Except ParseError Kernel} (hparse : parseKernel text c = .ok (result, c')) :
    c.Grows c.stmts.size c.blocks.size c' ∧
      ∀ kernel, result = .ok kernel → (c'.block? kernel.body).isSome = true := by
  unfold KernelIR.parseKernel at hparse
  cases hread : readKernel text with
  | error e =>
    rw [hread] at hparse
    obtain ⟨rfl, rfl⟩ := Prod.mk.inj (Except.ok.inj hparse)
    exact ⟨.refl, by simp⟩
  | ok p =>
    obtain ⟨name, draft⟩ := p
    rw [hread] at hparse
    have hblock := @Resolve.Leads.block c c.stmts.size c.blocks.size (draft.resolve [])
      fun b c' hg hb hlt => draft.leads_resolve (by simp [Names.values]) ⟨Nat.le_of_eq hb.symm, hlt⟩
        hg.size_le.1
    cases hrun : (Resolve.block (draft.resolve [])).run c with
    | error misuse =>
      simp only [bind, StateT.bind, Except.bind, hrun] at hparse
      cases hparse
    | ok q =>
      obtain ⟨r, c₁⟩ := q
      obtain ⟨h₁, hbody⟩ := hblock _ _ hrun
      simp only [bind, StateT.bind, Except.bind, hrun] at hparse
      cases r with
      | error e =>
        obtain ⟨rfl, rfl⟩ := Prod.mk.inj (Except.ok.inj hparse)
        exact ⟨h₁, by simp⟩
      | ok body =>
        obtain ⟨rfl, rfl⟩ := Prod.mk.inj (Except.ok.inj hparse)
        refine ⟨h₁, fun kernel hk => ?_⟩
        obtain rfl := Except.ok.inj hk
        exact Context.isSome_block?_iff.2 (hbody body rfl).2

/-- Parsing keeps the context tidy, and the kernel it returns has a body there. -/
theorem Context.Tidy.parseKernel {c c' : Context} (h : c.Tidy) {text : List Char}
    {result : Except ParseError Kernel} (hparse : parseKernel text c = .ok (result, c')) :
    c'.Tidy ∧ ∀ kernel, result = .ok kernel → (c'.block? kernel.body).isSome = true :=
  have ⟨hgrows, hbody⟩ := grows_parseKernel hparse
  ⟨hgrows.tidy h, hbody⟩

/-- Every context that parsing leads to is tidy. -/
theorem Parsed.tidy {c : Context} (h : Parsed c) : c.Tidy := by
  induction h with
  | empty => exact .empty
  | parse _ hparse ih => exact (ih.parseKernel hparse).1

/-- A kernel parsed in a tidy context and passed by the verifier is a verified one. -/
theorem Context.Tidy.verified {c c' : Context} (h : c.Tidy) {text : List Char} {kernel : Kernel}
    (hparse : KernelIR.parseKernel text c = .ok (.ok kernel, c'))
    (hverify : c'.verify kernel = .ok ()) : c'.Verified kernel :=
  have ⟨h', hbody⟩ := h.parseKernel hparse
  ⟨h'.reachable, h'.finiteBelow kernel.body, hbody kernel rfl, hverify⟩

/-- A verified kernel of a tidy context can be optimized. -/
theorem Context.Tidy.sound_of_verify {c : Context} (h : c.Tidy) {kernel : Kernel}
    (hbody : (c.block? kernel.body).isSome = true) (hverify : c.verify kernel = .ok ()) :
    c.Sound kernel.body where
  intact := h.reachable.intact
  finite := h.finiteBelow kernel.body
  present := hbody
  valid := (verify_eq_ok_iff h.reachable.intact kernel).1 hverify
  sized _ hp := h.sized (stmt?_of_mem_treeAt hp)
  defined := h.defined

/-- A kernel that is parsed and verified can be optimized. -/
theorem Context.Tidy.sound {c c' : Context} (h : c.Tidy) {text : List Char} {kernel : Kernel}
    (hparse : KernelIR.parseKernel text c = .ok (.ok kernel, c'))
    (hverify : c'.verify kernel = .ok ()) : c'.Sound kernel.body := by
  obtain ⟨h', hbody⟩ := h.parseKernel hparse
  exact h'.sound_of_verify (hbody kernel rfl) hverify

end KernelIR
