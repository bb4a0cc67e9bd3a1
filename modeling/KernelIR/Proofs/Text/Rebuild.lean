import KernelIR.Proofs.Text.Written
import KernelIR.Proofs.Tree.Likeness

/-!
# Printed trees are built again

What is read from the text of a tree (`Tree.draft`) builds a tree that is like it, with the
statements of the two trees paired in order (`Tree.exists_build`). Constants come back with equal
lanes and the same text (`Rereads.reprints`). Values are found because every value that is visible
has the number under which it was printed for a name, and no later value gets the same number.
-/

namespace KernelIR

/-! ## Constants -/

namespace Constant

/-- A lane that is read again has the same text. -/
theorem text_reread (lane : Constant) : lane.reread.text = lane.text := by
  cases lane with
  | int i => rfl
  | float x =>
    change x.reread.text = x.text
    unfold Binary64.reread
    split
    · next hx =>
      rw [Binary64.text, Binary64.text, if_pos hx]
      rfl
    · rfl

/-- Lanes that are read again agree just if they did. -/
theorem agrees_reread (a b : Constant) : a.reread.agrees b.reread = a.agrees b := by
  have hnan : Binary64.nan.isNaN = true := rfl
  cases a with
  | int i => cases b <;> rfl
  | float x =>
    cases b with
    | int j => rfl
    | float y =>
      change x.reread.equal y.reread = x.equal y
      unfold Binary64.reread
      split <;> split <;> simp_all [Binary64.equal]

def isNaN : Constant → Bool
  | int _ => false
  | float x => x.isNaN

/-- Only a NaN is read as another one. -/
theorem reread_of_not_isNaN {a : Constant} (h : a.isNaN = false) : a.reread = a := by
  cases a with
  | int i => rfl
  | float x =>
    have hx : ¬x.isNaN = true := Bool.not_eq_true _ ▸ h
    exact congrArg float (if_neg hx)

/-- A lane that agrees with itself is no NaN. -/
theorem reread_of_agrees {a : Constant} (h : a.agrees a = true) : a.reread = a := by
  refine reread_of_not_isNaN ?_
  cases a with
  | int i => rfl
  | float x =>
    have h : x.equal x = true := h
    simp_all [isNaN, Binary64.equal]

theorem same_refl (lane : Constant) : lane.Same lane := by
  cases lane with
  | int i => exact .inl (beq_self_eq_true i)
  | float x =>
    cases hx : x.isNaN with
    | true => exact .inr ⟨x, x, rfl, rfl, hx, hx⟩
    | false =>
      refine .inl ?_
      change x.equal x = true
      simp [Binary64.equal, hx]

theorem same_reread (a : Constant) : a.Same a.reread := by
  cases ha : a.isNaN with
  | false =>
    rw [reread_of_not_isNaN ha]
    exact a.same_refl
  | true =>
    cases a with
    | int i => cases ha
    | float x =>
      have hx : x.isNaN = true := ha
      exact .inr ⟨x, x.reread, rfl, rfl, hx, by rw [Binary64.reread, if_pos hx]; rfl⟩

/-- A lane of the type is one of the type when it is read again. -/
theorem convert_reread {type : ValueType} {lane : Constant} (h : lane.Suits type.element) :
    lane.reread.convert type = .ok lane.reread := by
  cases lane with
  | int i =>
    have hf : type.element.isFloat = false := h.1
    simp [reread, convert, hf]
  | float x =>
    have hf : type.element.isFloat = true := h
    simp [reread, convert, hf]

end Constant

/-- The lanes are equal and have the same text. -/
def Reprints (lanes lanes' : List Constant) : Prop :=
  List.Forall₂ Constant.Same lanes lanes' ∧ lanesText lanes = lanesText lanes'

theorem reprints_refl (lanes : List Constant) : Reprints lanes lanes :=
  ⟨List.forall₂_same.2 fun lane _ => lane.same_refl, rfl⟩

/-- One lane that all agree with stands for all. -/
theorem reprints_replicate {lane : Constant} {lanes : List Constant}
    (h : (lane :: lanes).all (·.agrees lane) = true) :
    Reprints (lane :: lanes) (List.replicate (lane :: lanes).length lane) := by
  have hall := List.all_eq_true.1 h
  refine ⟨List.forall₂_iff_get.2 ⟨by simp, fun i hi _ => .inl ?_⟩, ?_⟩
  · simpa using hall _ (List.get_mem _ ⟨i, hi⟩)
  · have hself : lane.agrees lane = true := hall lane List.mem_cons_self
    unfold lanesText
    rw [List.length_cons, List.replicate_succ]
    dsimp only
    rw [if_pos h, if_pos (by simp [hself])]

theorem reprints_map (lanes : List Constant) : Reprints lanes (lanes.map Constant.reread) := by
  refine ⟨?_, ?_⟩
  · rw [List.forall₂_map_right_iff, List.forall₂_same]
    exact fun lane _ => lane.same_reread
  · cases lanes with
    | nil => rfl
    | cons lane lanes =>
      have hagree : ((lane :: lanes).map Constant.reread).all (·.agrees lane.reread) =
          (lane :: lanes).all (·.agrees lane) := by
        rw [List.all_map]
        exact congrArg (List.all _) (funext fun a => a.agrees_reread lane)
      have htexts : ((lane :: lanes).map Constant.reread).map Constant.text =
          (lane :: lanes).map Constant.text := by
        rw [List.map_map]
        exact congrArg (List.map · _) (funext Constant.text_reread)
      change _ = if ((lane :: lanes).map Constant.reread).all (·.agrees lane.reread) then
          lane.reread.text
        else bracketed (((lane :: lanes).map Constant.reread).map Constant.text)
      rw [hagree, htexts, lane.text_reread]
      rfl

/-- What lanes are read back as : the first of them in the place of all, if all agree with it. -/
def rereadLanes : List Constant → List Constant
  | [] => []
  | lane :: lanes =>
    if (lane :: lanes).all (·.agrees lane) then List.replicate (lane :: lanes).length lane
    else (lane :: lanes).map Constant.reread

/-- The lanes `lanes'` are what the text of `lanes` is read as. -/
def Rereads (lanes lanes' : List Constant) : Prop :=
  lanes' = rereadLanes lanes

/-- Lanes that are read again are printed the same. -/
theorem Rereads.reprints {lanes lanes' : List Constant} (h : Rereads lanes lanes') :
    Reprints lanes lanes' := by
  subst h
  cases lanes with
  | nil => exact reprints_refl []
  | cons lane lanes =>
    rw [rereadLanes]
    split
    · next hall => exact reprints_replicate hall
    · exact reprints_map _

/-! ## Types -/

/-- The text of a type is its name. -/
theorem ValueType.ofName?_text {type : ValueType} (h : 1 ≤ type.width)
    (hle : type.width ≤ ValueType.maxWidth) : ofName? type.text = some type := by
  have hall : ∀ e ∈ ScalarType.all, ∀ w ∈ List.range 65, 1 ≤ w →
      ofName? (text ⟨e, w⟩) = some ⟨e, w⟩ := by decide +kernel
  exact hall type.element type.element.mem_all type.width
    (List.mem_range.2 (Nat.lt_succ_of_le hle)) h

/-! ## Names -/

/-- The name of a value is its number in the list of names. -/
theorem nameOf_of_mem {names : List StmtId} {v : StmtId} (h : v ∈ names) :
    nameOf names v = natText (names.idxOf v) := by
  unfold nameOf
  cases hidx : names.idxOf? v with
  | none => exact absurd h (List.idxOf?_eq_none_iff.1 hidx)
  | some n =>
    rw [List.idxOf_eq_getD_idxOf?, hidx]
    rfl

/-- More names behind it leave the name of a value as it is. -/
theorem nameOf_append {names : List StmtId} {v : StmtId} (h : v ∈ names) (l : List StmtId) :
    nameOf (names ++ l) v = nameOf names v := by
  rw [nameOf_of_mem h, nameOf_of_mem (List.mem_append_left l h), List.idxOf_append_of_mem h]

/-- Different numbers have different texts. -/
theorem natText_injective : Function.Injective natText :=
  Function.LeftInverse.injective ofDigits_natText

/-! ## One statement -/

section Statement

variable {names : List StmtId} {N : Names} {Q : StmtId → StmtId → Prop}

/-- The value is found under the name with which it is printed. -/
def Names.Finds (N : Names) (names : List StmtId) (Q : StmtId → StmtId → Prop)
    (v : StmtId) : Prop :=
  ∃ w, N.find (nameOf names v) = .ok w ∧ Q v w

/-- What is made of the head of a statement of kind `k`. -/
def Shape.Matches (Q : StmtId → StmtId → Prop) (k : Kind) : Shape → Prop
  | .plain kind => k.firstBlock? = none ∧ k.secondBlock? = none ∧ k.Like Rereads Q kind
  | .body kind => k.secondBlock? = none ∧ ∀ d, k.Like Rereads Q (kind d)
  | .branch kind otherwise => k.secondBlock?.isSome = otherwise ∧
      ∀ d e?, e?.isSome = otherwise → k.Like Rereads Q (kind d e?)

/-- A list is resolved if each of its items is. -/
theorem exists_mapM {ε α β γ : Type} {f : β → Except ε γ} {g : α → β} {R : α → γ → Prop}
    {l : List α} (h : ∀ a ∈ l, ∃ b, f (g a) = .ok b ∧ R a b) :
    ∃ l', (l.map g).mapM f = .ok l' ∧ List.Forall₂ R l l' := by
  induction l with
  | nil => exact ⟨[], rfl, .nil⟩
  | cons a l ih =>
    obtain ⟨b, hb, hR⟩ := h a List.mem_cons_self
    obtain ⟨bs, hbs, hRs⟩ := ih fun c hc => h c (List.mem_cons_of_mem a hc)
    refine ⟨b :: bs, ?_, .cons hR hRs⟩
    rw [List.map_cons, List.mapM_cons, hb, hbs]
    rfl

theorem exists_find? (mask? : Option StmtId) (h : ∀ v ∈ mask?, N.Finds names Q v) :
    ∃ m?, N.find? (mask?.map (nameOf names)) = .ok m? ∧ Option.Rel Q mask? m? := by
  cases mask? with
  | none => exact ⟨none, rfl, .none⟩
  | some v =>
    obtain ⟨w, hw, hQ⟩ := h v rfl
    refine ⟨some w, ?_, .some hQ⟩
    rw [Option.map_some, Names.find?, hw]
    rfl

/-- The lanes of a constant are found again. -/
theorem exists_lanes {lanes : List Constant} {type : ValueType} (hlen : lanes.length = type.width)
    (hpos : 1 ≤ type.width) (hsuits : ∀ lane ∈ lanes, lane.Suits type.element) (head : Head)
    (hform : head.form = constForm lanes) :
    ∃ lanes', head.shapeAt N (some type) = .ok (.plain (.const lanes')) ∧ Rereads lanes lanes' := by
  cases lanes with
  | nil =>
    rw [← hlen] at hpos
    cases hpos
  | cons lane lanes =>
    rw [constForm] at hform
    unfold Head.shapeAt
    split at hform
    · next hall =>
      have hself : lane.reread = lane :=
        Constant.reread_of_agrees (List.all_eq_true.1 hall lane List.mem_cons_self)
      refine ⟨_, ?_, (if_pos hall).symm⟩
      rw [hform, hlen]
      have hconvert := Constant.convert_reread (hsuits lane List.mem_cons_self)
      rw [hself] at hconvert
      simp only [Head.required, bind, Except.bind, hconvert, hself]
      rfl
    · next hall =>
      refine ⟨_, ?_, (if_neg hall).symm⟩
      have hconvert : ((lane :: lanes).map Constant.reread).mapM (Constant.convert type) =
          .ok ((lane :: lanes).map Constant.reread) := by
        rw [mapM_eq_ok_iff, List.forall₂_same]
        intro a ha
        obtain ⟨b, hb, rfl⟩ := List.mem_map.1 ha
        exact Constant.convert_reread (hsuits b hb)
      rw [hform]
      simp only [Head.required, bind, Except.bind, List.length_map, hlen, ne_eq, not_true_eq_false,
        if_false, hconvert]
      rfl

/-- So are the lanes of a load. -/
theorem exists_loadLanes {lanes : List SlotLane} {type : ValueType}
    (hlen : lanes.length = type.width) (hpos : 1 ≤ type.width)
    (hfind : ∀ lane ∈ lanes, N.Finds names Q lane.slot) (head : Head)
    (hform : head.form = loadForm names type.width lanes) :
    ∃ lanes', head.shapeAt N (some type) = .ok (.plain (.load lanes')) ∧
      List.Forall₂ (fun a b => Q a.slot b.slot ∧ a.offset = b.offset) lanes lanes' := by
  cases lanes with
  | nil =>
    rw [← hlen] at hpos
    cases hpos
  | cons lane lanes =>
    rw [loadForm] at hform
    unfold Head.shapeAt
    split at hform
    · next hregular =>
      obtain ⟨w, hw, hQ⟩ := hfind lane List.mem_cons_self
      refine ⟨(List.range type.width).map (⟨w, ·⟩), ?_, ?_⟩
      · rw [hform]
        simp only [Head.required, bind, Except.bind, hw]
        rfl
      · have hlanes : lane :: lanes = (List.range (lane :: lanes).length).map (⟨lane.slot, ·⟩) :=
          eq_of_beq hregular.2
        rw [hlanes, hlen, List.forall₂_map_left_iff, List.forall₂_map_right_iff, List.forall₂_same]
        exact fun i _ => ⟨hQ, rfl⟩
    · obtain ⟨lanes', hlanes', hrel⟩ := exists_mapM (f := fun (p : ValueName × Nat) => do
          let slot ← N.find p.1
          return (⟨slot, p.2⟩ : SlotLane)) (g := fun (lane : SlotLane) =>
            (nameOf names lane.slot, lane.offset))
        (R := fun (a b : SlotLane) => Q a.slot b.slot ∧ a.offset = b.offset) fun a ha => by
          obtain ⟨w, hw, hQ⟩ := hfind a ha
          exact ⟨⟨w, a.offset⟩, by simp only [hw]; rfl, hQ, rfl⟩
      refine ⟨lanes', ?_, hrel⟩
      rw [hform]
      simp only [Head.required, bind, Except.bind, List.length_map, hlen, ne_eq, not_true_eq_false,
        if_false]
      exact congrArg (fun x : Except ResolveError (List SlotLane) => x >>= fun lanes =>
        Except.ok (Shape.plain (.load lanes))) hlanes'

theorem hasValue_constForm (lanes : List Constant) : (constForm lanes).hasValue = true := by
  cases lanes with
  | nil => rfl
  | cons lane lanes =>
    rw [constForm]
    split <;> rfl

theorem hasValue_loadForm (width : Nat) (lanes : List SlotLane) :
    (loadForm names width lanes).hasValue = true := by
  cases lanes with
  | nil => rfl
  | cons lane lanes =>
    rw [loadForm]
    split <;> rfl

/-- The form of a statement has a value just if the statement has. -/
theorem Stmt.hasValue_form (stmt : Stmt) : (stmt.form names).hasValue = stmt.kind.hasValue := by
  obtain ⟨kind, type?, b?⟩ := stmt
  cases kind with
  | const lanes => exact hasValue_constForm lanes
  | load lanes => exact hasValue_loadForm _ lanes
  | _ => rfl

/-- The head of a statement has its type. -/
theorem Stmt.Written.type?_head {stmt : Stmt} (hw : stmt.Written) (names : List StmtId)
    (id : StmtId) : (stmt.head names id).type? = .ok stmt.type? := by
  unfold Head.type? Stmt.head
  dsimp only
  rw [stmt.hasValue_form]
  cases hv : stmt.kind.hasValue with
  | false =>
    rw [hw.untyped hv]
    rfl
  | true =>
    obtain ⟨type, htype, hpos, hle⟩ := hw.typed hv
    rw [htype]
    simp only [if_true, Option.map_some, ValueType.ofName?_text hpos hle]
    rfl

/-- What is read for a statement is found to be like it. -/
theorem Stmt.Written.exists_shape {stmt : Stmt} (hw : stmt.Written) (id : StmtId)
    (hfind : ∀ v ∈ stmt.kind.operands, N.Finds names Q v) :
    ∃ shape, (stmt.head names id).shape N = .ok (stmt.type?, shape) ∧
      shape.Matches Q stmt.kind := by
  have htype := hw.type?_head names id
  suffices h : ∃ shape, (stmt.head names id).shapeAt N stmt.type? = .ok shape ∧
      shape.Matches Q stmt.kind by
    obtain ⟨shape, hshape, hmatches⟩ := h
    refine ⟨shape, ?_, hmatches⟩
    rw [Head.shape, htype]
    simp only [bind, Except.bind, hshape]
    rfl
  obtain ⟨kind, type?, b?⟩ := stmt
  have hkind : kind.Written type? := hw.kind
  unfold Head.shapeAt
  cases kind with
  | alloca => exact ⟨_, rfl, rfl, rfl, .alloca⟩
  | const lanes =>
    obtain ⟨type, rfl, hlen, hsuits⟩ := hkind
    obtain ⟨_, heq, hpos, -⟩ := hw.typed rfl
    obtain rfl := Option.some.inj heq
    obtain ⟨lanes', hshape, hrel⟩ := exists_lanes (N := N) hlen hpos hsuits
      (Stmt.head names id ⟨.const lanes, some type, b?⟩) rfl
    exact ⟨_, hshape, rfl, rfl, .const hrel⟩
  | arg index => exact ⟨_, rfl, rfl, rfl, .arg index⟩
  | binary op lhs rhs =>
    obtain ⟨l, hl, hQl⟩ := hfind lhs (by simp [Kind.operands])
    obtain ⟨r, hr, hQr⟩ := hfind rhs (by simp [Kind.operands])
    refine ⟨.plain (.binary op l r), ?_, rfl, rfl, .binary op hQl hQr⟩
    have hop : (Kind.binary op lhs rhs).keyword = op.name.toList := rfl
    simp only [Stmt.head, Stmt.form, hop, op.ofName?_name, bind, Except.bind, hl, hr]
    rfl
  | load lanes =>
    obtain ⟨type, rfl, hlen, -⟩ := hkind
    obtain ⟨_, heq, hpos, -⟩ := hw.typed rfl
    obtain rfl := Option.some.inj heq
    obtain ⟨lanes', hshape, hrel⟩ := exists_loadLanes (N := N) hlen hpos
      (fun lane hl => hfind lane.slot (List.mem_map_of_mem hl))
      (Stmt.head names id ⟨.load lanes, some type, b?⟩) rfl
    exact ⟨_, hshape, rfl, rfl, .load hrel⟩
  | store slot value =>
    obtain ⟨s, hs, hQs⟩ := hfind slot (by simp [Kind.operands])
    obtain ⟨v, hv, hQv⟩ := hfind value (by simp [Kind.operands])
    refine ⟨.plain (.store s v), ?_, rfl, rfl, .store hQs hQv⟩
    simp only [Stmt.head, Stmt.form, bind, Except.bind, hs, hv]
    rfl
  | atomic op slot value =>
    obtain ⟨s, hs, hQs⟩ := hfind slot (by simp [Kind.operands])
    obtain ⟨v, hv, hQv⟩ := hfind value (by simp [Kind.operands])
    refine ⟨.plain (.atomic op s v), ?_, rfl, rfl, .atomic op hQs hQv⟩
    have hkeyword : (Kind.atomic op slot value).keyword = "atomic_".toList ++ op.name.toList := rfl
    have hop : ("atomic_".toList.isPrefixOf? (Kind.atomic op slot value).keyword).bind
        AtomicOp.ofName? = some op := by
      rw [hkeyword]
      cases op <;> decide
    simp only [Stmt.head, Stmt.form, hop, bind, Except.bind, hs, hv]
    rfl
  | print value =>
    obtain ⟨v, hv, hQ⟩ := hfind value (by simp [Kind.operands])
    refine ⟨.plain (.print v), ?_, rfl, rfl, .print hQ⟩
    simp only [Stmt.head, Stmt.form, bind, Except.bind, hv]
    rfl
  | branch cond trueMask falseMask trueBlock falseBlock =>
    obtain ⟨v, hv, hQ⟩ := hfind cond (by simp [Kind.operands])
    obtain ⟨m?, hm, hQm⟩ := exists_find? trueMask fun v hv =>
      hfind v (by simp [Kind.operands, Option.mem_def.1 hv])
    obtain ⟨n?, hn, hQn⟩ := exists_find? falseMask fun v hv =>
      hfind v (by simp [Kind.operands, Option.mem_def.1 hv])
    refine ⟨.branch (fun b d => .branch v m? n? (some b) d) falseBlock.isSome, ?_, rfl,
      fun d e? he => .branch hQ hQm hQn hkind he.symm⟩
    simp only [Stmt.head, Stmt.form, bind, Except.bind, hv, hm, hn]
    rfl
  | loop mask body =>
    obtain ⟨m?, hm, hQm⟩ := exists_find? mask fun v hv =>
      hfind v (by simp [Kind.operands, Option.mem_def.1 hv])
    refine ⟨.body (.loop m?), ?_, rfl, fun d => .loop hQm⟩
    simp only [Stmt.head, Stmt.form, bind, Except.bind, hm]
    rfl
  | leave cond =>
    obtain ⟨v, hv, hQ⟩ := hfind cond (by simp [Kind.operands])
    refine ⟨.plain (.leave v), ?_, rfl, rfl, .leave hQ⟩
    simp only [Stmt.head, Stmt.form, bind, Except.bind, hv]
    rfl
  | rangeFor counter lower upper body =>
    obtain ⟨u, hu, hQu⟩ := hfind counter (by simp [Kind.operands])
    obtain ⟨v, hv, hQv⟩ := hfind lower (by simp [Kind.operands])
    obtain ⟨w, hw, hQw⟩ := hfind upper (by simp [Kind.operands])
    refine ⟨.body (.rangeFor u v w), ?_, rfl, fun d => .rangeFor hQu hQv hQw⟩
    simp only [Stmt.head, Stmt.form, bind, Except.bind, hu, hv, hw]
    rfl
  | structFor counters snode body =>
    obtain ⟨counters', hcounters, hrel⟩ := exists_mapM (f := N.find) (g := nameOf names) (R := Q)
      (l := counters) hfind
    refine ⟨.body (.structFor counters' snode), ?_, rfl, fun d => .structFor snode hrel⟩
    simp only [Stmt.head, Stmt.form, bind, Except.bind, hcounters, String.ofList_toList]
    rfl

end Statement

/-! ## Trees -/

section Names

variable {names scope : List StmtId} {N : Names} {Q Q' : StmtId → StmtId → Prop}

/-- The values of `scope` are found under the names with which they are printed, if `names` have
been printed, and no other name is in use. -/
structure Names.Tells (N : Names) (names scope : List StmtId) (Q : StmtId → StmtId → Prop) :
    Prop where
  visible : scope ⊆ names
  finds : ∀ v ∈ scope, N.Finds names Q v
  keys : ∀ p ∈ N, ∃ k < names.length, p.1 = natText k

/-- More names that are not visible tell the same. -/
theorem Names.Tells.append (h : N.Tells names scope Q) (l : List StmtId) :
    N.Tells (names ++ l) scope Q where
  visible := fun _ hv => List.mem_append_left l (h.visible hv)
  finds := fun v hv => by
    obtain ⟨w, hw, hQ⟩ := h.finds v hv
    exact ⟨w, by rw [nameOf_append (h.visible hv) l]; exact hw, hQ⟩
  keys := fun p hp => by
    obtain ⟨k, hk, hp⟩ := h.keys p hp
    exact ⟨k, by rw [List.length_append]; omega, hp⟩

/-- The result of a statement can be bound, and is found behind the statement. -/
theorem Names.Tells.exists_bind (h : N.Tells names scope Q) {id : StmtId} (hid : id ∉ names)
    (stmt : Stmt) (w : StmtId) {names' : List StmtId}
    (hnames' : names' = if stmt.kind.hasValue then names ++ [id] else names) :
    ∃ N' : Names, N.bind w (stmt.head names' id).result? = .ok N' ∧
      N'.Tells names' (stmt.scopeAfter id scope) fun u v => Q u v ∨ u = id ∧ v = w := by
  unfold Stmt.head Stmt.scopeAfter
  dsimp only
  cases hv : stmt.kind.hasValue with
  | false =>
    rw [hv] at hnames'
    obtain rfl : names' = names := hnames'
    refine ⟨N, rfl, h.visible, fun v hv => ?_, h.keys⟩
    obtain ⟨w, hw, hQ⟩ := h.finds v hv
    exact ⟨w, hw, .inl hQ⟩
  | true =>
    rw [hv] at hnames'
    obtain rfl : names' = names ++ [id] := hnames'
    have hname : nameOf (names ++ [id]) id = natText names.length := by
      rw [nameOf_of_mem (by simp), List.idxOf_append_of_notMem hid]
      simp
    have hnone : N.lookup (natText names.length) = none := by
      rw [List.lookup_eq_none_iff]
      intro p hp
      obtain ⟨k, hk, hp⟩ := h.keys p hp
      rw [hp]
      simpa using fun heq => Nat.ne_of_gt hk (natText_injective heq)
    refine ⟨(natText names.length, w) :: N, ?_, ?_, ?_, ?_⟩
    · simp [Names.bind, hname, hnone]
    · intro v hv
      simp only [if_true, List.mem_cons] at hv
      rcases hv with rfl | hv
      · simp
      · exact List.mem_append_left _ (h.visible hv)
    · intro v hv
      simp only [if_true, List.mem_cons] at hv
      rcases hv with rfl | hv
      · refine ⟨w, ?_, .inr ⟨rfl, rfl⟩⟩
        rw [hname, Names.find, List.lookup_cons, beq_self_eq_true]
      · obtain ⟨u, hu, hQ⟩ := h.finds v hv
        have hmem := h.visible hv
        refine ⟨u, ?_, .inl hQ⟩
        have hne : (natText (names.idxOf v) == natText names.length) = false := by
          simpa using fun heq =>
            Nat.ne_of_lt (List.idxOf_lt_length_iff.2 hmem) (natText_injective heq)
        rw [nameOf_append hmem, nameOf_of_mem hmem, Names.find, List.lookup_cons, hne]
        rw [nameOf_of_mem hmem] at hu
        exact hu
    · rintro p (_ | ⟨_, hp⟩)
      · exact ⟨names.length, by simp, rfl⟩
      · obtain ⟨k, hk, hp⟩ := h.keys p hp
        exact ⟨k, by rw [List.length_append]; omega, hp⟩

/-- What is read from the text of a tree builds a tree that is like it. -/
theorem Tree.exists_build {t : Tree} (ht : t.Shaped) (hnodup : t.ids.Nodup)
    (h : N.Tells names scope Q) (hw : ∀ p ∈ t.sites scope, p.Written)
    (hfresh : ∀ v ∈ names, v ∉ t.ids) (b : BlockId) (n m : Nat) :
    ∃ v, (t.draft names).build N b n m = .ok v ∧
      t.Like Rereads (fun u w => Q u w ∨ (u, w) ∈ t.pairs v.1) v.1 := by
  induction t generalizing names scope N Q b n m with
  | nil => exact ⟨_, rfl, .nil⟩
  | cons id stmt first second rest ih₁ ih₂ ih₃ =>
    obtain ⟨hf, hs, ht₁, ht₂, ht₃⟩ := ht
    simp only [sites, List.mem_cons, List.mem_append] at hw
    simp only [ids_cons, List.nodup_cons, List.nodup_append, List.mem_append, not_or] at hnodup
    simp only [ids_cons, List.mem_cons, List.mem_append, not_or] at hfresh
    obtain ⟨⟨⟨hid₁, hid₂⟩, hid₃⟩, ⟨hn₁, hn₂, hdisj⟩, hn₃, hdisj₃⟩ := hnodup
    have hsite : Site.Written ⟨id, stmt, scope⟩ := hw _ (.inl rfl)
    have hid : id ∉ names := fun hmem => (hfresh id hmem).1 rfl
    obtain ⟨names', hnames'⟩ : ∃ names',
      names' = if stmt.kind.hasValue then names ++ [id] else names :=
      ⟨_, rfl⟩
    have hmem : ∀ v ∈ names', v ∈ names ∨ v = id := by
      intro v hv
      rw [hnames'] at hv
      split at hv
      · simpa using hv
      · exact .inl hv
    have hnamed : N.Tells names' scope Q := by
      rw [hnames']
      split
      · exact h.append [id]
      · exact h
    obtain ⟨shape, hshape, hmatches⟩ := hsite.stmt.exists_shape id
      fun v hv => hnamed.finds v (hsite.visible v hv)
    -- what the nested trees build
    have hfirst : ∀ d n m, ∃ v, (first.draft names').build N d n m = .ok v ∧
        first.Like Rereads (fun u w => Q u w ∨ (u, w) ∈ first.pairs v.1) v.1 := by
      refine fun d n m => ih₁ ht₁ hn₁ hnamed (fun p hp => hw p (.inr (.inl (.inl hp))))
        (fun v hv => ?_) d n m
      rcases hmem v hv with hv | rfl
      · exact (hfresh v hv).2.1.1
      · exact hid₁
    have hsecond : ∀ d n m, ∃ v, (second.draft (names' ++ first.values)).build N d n m = .ok v ∧
        second.Like Rereads (fun u w => Q u w ∨ (u, w) ∈ second.pairs v.1) v.1 := by
      refine fun d n m => ih₂ ht₂ hn₂ (hnamed.append _) (fun p hp => hw p (.inr (.inl (.inr hp))))
        (fun v hv => ?_) d n m
      rcases List.mem_append.1 hv with hv | hv
      · rcases hmem v hv with hv | rfl
        · exact (hfresh v hv).2.1.2
        · exact hid₂
      · exact fun hv₂ => hdisj v (first.values_subset_ids hv) v hv₂ rfl
    have hempty : Tree.Like Rereads (fun u w => Q u w ∨ (u, w) ∈ Tree.nil.pairs .nil) .nil .nil :=
      .nil
    obtain ⟨kind, t₁, t₂, n₁, m₁, hblocks, hkind, hlike₁, hlike₂⟩ : ∃ kind t₁ t₂ n₁ m₁,
        Draft.BuildsBlocks (first.draft names') (second.draft (names' ++ first.values)) N n m shape
          kind t₁ t₂ n₁ m₁ ∧ stmt.kind.Like Rereads Q kind ∧
        first.Like Rereads (fun u w => Q u w ∨ (u, w) ∈ first.pairs t₁) t₁ ∧
        second.Like Rereads (fun u w => Q u w ∨ (u, w) ∈ second.pairs t₂) t₂ := by
      obtain ⟨v₁, hv₁, hlike₁⟩ := hfirst ⟨m⟩ n (m + 1)
      cases shape with
      | plain kind =>
        obtain ⟨hnone₁, hnone₂, hkind⟩ := hmatches
        obtain rfl := hf hnone₁
        obtain rfl := hs hnone₂
        exact ⟨_, _, _, _, _, .plain kind, hkind, hempty, hempty⟩
      | body kind =>
        obtain ⟨hnone, hkind⟩ := hmatches
        obtain rfl := hs hnone
        exact ⟨_, _, _, _, _, .body kind hv₁, hkind _, hlike₁, hempty⟩
      | branch kind otherwise =>
        obtain ⟨hother, hkind⟩ := hmatches
        cases otherwise with
        | false =>
          obtain rfl := hs (Option.isSome_eq_false_iff.1 hother |> Option.isNone_iff_eq_none.1)
          exact ⟨_, _, _, _, _, .ifThen kind hv₁, hkind _ _ rfl, hlike₁, hempty⟩
        | true =>
          obtain ⟨v₂, hv₂, hlike₂⟩ := hsecond ⟨v₁.2.2⟩ v₁.2.1 (v₁.2.2 + 1)
          exact ⟨_, _, _, _, _, .ifThenElse kind hv₁ hv₂, hkind _ _ rfl, hlike₁, hlike₂⟩
    obtain ⟨N', hbind, htells⟩ := h.exists_bind hid stmt ⟨n₁⟩ hnames'
    obtain ⟨v, hv, hlike₃⟩ := ih₃ ht₃ hn₃ ((htells.append first.values).append second.values)
      (fun p hp => hw p (.inr (.inr hp))) (fun v hv => by
        rcases List.mem_append.1 hv with hv | hv
        · rcases List.mem_append.1 hv with hv | hv
          · rcases hmem v hv with hv | rfl
            · exact (hfresh v hv).2.2
            · exact hid₃
          · exact fun hv₃ => hdisj₃ v (.inl (first.values_subset_ids hv)) v hv₃ rfl
        · exact fun hv₃ => hdisj₃ v (.inr (second.values_subset_ids hv)) v hv₃ rfl) b (n₁ + 1) m₁
    rw [draft, ← hnames']
    refine ⟨_, Draft.build_cons_eq_ok_iff.2
      ⟨_, _, _, _, _, _, _, _, _, hshape, hblocks, hbind, hv, rfl⟩, ?_⟩
    rw [pairs_cons hlike₁ hlike₂]
    refine .cons (.inr List.mem_cons_self) (hkind.mono (fun _ _ h => h) fun _ _ h => .inl h) rfl
      (hlike₁.mono (fun _ _ h => h) fun u w hu => ?_)
      (hlike₂.mono (fun _ _ h => h) fun u w hu => ?_)
      (hlike₃.mono (fun _ _ h => h) fun u w hu => ?_)
    · rcases hu with hu | hu
      · exact .inl hu
      · exact .inr (by simp [hu])
    · rcases hu with hu | hu
      · exact .inl hu
      · exact .inr (by simp [hu])
    · rcases hu with (hu | ⟨rfl, rfl⟩) | hu
      · exact .inl hu
      · exact .inr List.mem_cons_self
      · exact .inr (by simp [hu])

end Names

end KernelIR
