import KernelIR.Proofs.Text.Literal
import KernelIR.Proofs.Tree.Scope
import KernelIR.Text.Grammar

/-!
# Parts of printed statements

`Stmt.head` is what the grammar makes of the text of a statement, in which values have the
numbers of `nameOf` for names, and `Tree.draft` what it makes of the text of a tree. Texts can
say what such statements say (`Stmt.Written`), and the grammar reads their parts : operands,
masks, constants and loads.
-/

namespace KernelIR

/-! ## Statements that texts can express -/

/-- A lane that a constant of this element type may have. -/
def Constant.Suits (element : ScalarType) : Constant → Prop
  | int i => element.isFloat = false ∧ Scan.Fits i
  | float _ => element.isFloat = true

theorem Constant.Suits.fits {element : ScalarType} {lane : Constant} (h : lane.Suits element) :
    lane.Fits := by
  cases lane with
  | int i => exact h.2
  | float x => trivial

/-- What a text has to say of a statement of this kind can be said. -/
def Kind.Written (type? : Option ValueType) : Kind → Prop
  | const lanes => ∃ type, type? = some type ∧ lanes.length = type.width ∧
      ∀ lane ∈ lanes, lane.Suits type.element
  | load lanes => ∃ type, type? = some type ∧ lanes.length = type.width ∧
      ∀ lane ∈ lanes, lane.offset < Scan.indexBound
  | arg index => index < Scan.indexBound
  | branch _ _ _ trueBlock _ => trueBlock.isSome = true
  | structFor counters snode _ => counters ≠ [] ∧ Scan.IsName snode.toList
  | _ => True

/-- A text can express the statement. -/
structure Stmt.Written (stmt : Stmt) : Prop where
  kind : stmt.kind.Written stmt.type?
  typed : stmt.kind.hasValue = true →
    ∃ type, stmt.type? = some type ∧ 1 ≤ type.width ∧ type.width ≤ ValueType.maxWidth
  untyped : stmt.kind.hasValue = false → stmt.type? = none

/-! ## What is read -/

/-- The name of a value, without its percent sign. -/
def nameOf (names : List StmtId) (v : StmtId) : ValueName :=
  match names.idxOf? v with
  | some n => natText n
  | none => ['?']

/-- The word that the text of a statement begins with. -/
def Kind.keyword (k : Kind) : List Char :=
  match k with
  | atomic op _ _ => "atomic_".toList ++ op.name.toList
  | _ => k.name.toList

/-- What is read for the lanes of a constant. -/
def constForm : List Constant → Form
  | [] => .lanes []
  | lane :: lanes =>
    if (lane :: lanes).all (·.agrees lane) then .splat lane.reread
    else .lanes ((lane :: lanes).map Constant.reread)

/-- What is read for the lanes of a load of the given number of lanes. -/
def loadForm (names : List StmtId) (width : Nat) : List SlotLane → Form
  | [] => .loadLanes []
  | lane :: lanes =>
    if (lane :: lanes).length = width ∧ (Kind.load (lane :: lanes)).isRegularLoadOf lane.slot then
      .loadSlot (nameOf names lane.slot)
    else .loadLanes ((lane :: lanes).map fun lane => (nameOf names lane.slot, lane.offset))

/-- What is read behind the keyword. -/
def Stmt.form (names : List StmtId) (stmt : Stmt) : Form :=
  let name := nameOf names
  match stmt.kind with
  | .alloca => .alloca
  | .const lanes => constForm lanes
  | .arg index => .arg index
  | .binary _ lhs rhs => .binary (name lhs) (name rhs)
  | .load lanes => loadForm names (stmt.type?.elim 1 ValueType.width) lanes
  | .store slot value => .store (name slot) (name value)
  | .atomic _ slot value => .atomic (name slot) (name value)
  | .print value => .print (name value)
  | .branch cond trueMask falseMask _ falseBlock =>
    .branch (name cond) (trueMask.map name) (falseMask.map name) falseBlock.isSome
  | .loop mask _ => .loop (mask.map name)
  | .leave cond => .leave (name cond)
  | .rangeFor counter lower upper _ => .rangeFor (name counter) (name lower) (name upper)
  | .structFor counters snode _ => .structFor (counters.map name) snode.toList

/-- What is read for a statement. -/
def Stmt.head (names : List StmtId) (id : StmtId) (stmt : Stmt) : Head where
  result? := if stmt.kind.hasValue then some (nameOf names id) else none
  keyword := stmt.kind.keyword
  form := stmt.form names
  annotation? := if stmt.kind.hasValue then stmt.type?.map ValueType.text else none

/-- What is read for a tree, if the given values have been named before it. -/
def Tree.draft : Tree → List StmtId → Draft
  | nil, _ => .nil
  | cons id stmt first second rest, names =>
    let names := if stmt.kind.hasValue then names ++ [id] else names
    let namesSecond := names ++ first.values
    .cons (stmt.head names id) (first.draft names) (second.draft namesSecond)
      (rest.draft (namesSecond ++ second.values))

namespace Scan

variable {names : List StmtId} {rest : List Char}

/-! ## Names of values -/

theorem isName_nameOf {v : StmtId} (h : v ∈ names) : IsName (nameOf names v) := by
  unfold nameOf
  cases hidx : names.idxOf? v with
  | none => exact absurd h (List.idxOf?_eq_none_iff.1 hidx)
  | some n => exact isName_natText n

theorem valueRef_name {v : StmtId} {r : List Char} (h : v ∈ names) (hrest : Ends isNameChar r) :
    valueRef (valueName names v ++ r) = .ok (nameOf names v, r) :=
  valueRef_append (isName_nameOf h) hrest

theorem ends_valueName {test : Char → Bool} (htest : test '%' = false) (v : StmtId)
    (rest : List Char) : Ends test (valueName names v ++ rest) :=
  ends_cons htest _

theorem solid_valueName (v : StmtId) (rest : List Char) : Solid (valueName names v ++ rest) :=
  solid_cons (by decide) (by decide) _

/-! ## Parts of statements -/

/-- Two values with a comma between them. -/
theorem pair_append {a b : StmtId} (ha : a ∈ names) (hb : b ∈ names)
    (hrest : Ends isNameChar rest) :
    pair (commaSeparated [valueName names a, valueName names b] ++ rest) =
      .ok ((nameOf names a, nameOf names b), rest) := by
  have htext : commaSeparated [valueName names a, valueName names b] ++ rest =
      valueName names a ++ ',' :: ' ' :: (valueName names b ++ rest) := by
    simp [commaSeparated, List.intercalate]
  rw [htext, pair, bind_of_ok (valueRef_name ha (ends_cons rfl _)),
    bind_layout (solid_cons rfl (by decide) _), bind_sign rfl,
    bind_layout_blank (solid_valueName b rest), bind_of_ok (valueRef_name hb hrest)]
  rfl

theorem mask_word {w : String} {c : Char} {cs : List Char} (hw : w.toList = c :: cs)
    (hsolid : isBlank c = false ∧ c ≠ '/') {m : StmtId} (hm : m ∈ names) {r : List Char} :
    mask w (w.toList ++ '(' :: (valueName names m ++ ')' :: r)) = .ok (nameOf names m, r) := by
  have hlayout : Solid (w.toList ++ '(' :: (valueName names m ++ ')' :: r)) := by
    rw [hw]
    exact solid_cons hsolid.1 hsolid.2 _
  rw [mask, bind_layout hlayout, bind_word, bind_layout (solid_cons rfl (by decide) _),
    bind_sign rfl, bind_layout (solid_valueName m _),
      bind_of_ok (valueRef_name hm (ends_cons rfl _)),
    bind_layout (solid_cons rfl (by decide) _), bind_sign rfl]
  rfl

/-- A mask that is there. -/
theorem mask_append {w : String} {c : Char} {cs : List Char} (hw : w.toList = c :: cs)
    (hsolid : isBlank c = false ∧ c ≠ '/') {m : StmtId} (hm : m ∈ names) :
    mask w (maskText names w (some m) ++ rest) = .ok (nameOf names m, rest) := by
  have htext : maskText names w (some m) ++ rest =
      ' ' :: (w.toList ++ '(' :: (valueName names m ++ ')' :: rest)) := by
    simp [maskText]
  rw [htext]
  exact mask_word hw hsolid hm

/-- A mask that is not there. -/
theorem mask_error {w : String} {c : Char} {cs r : List Char} (hw : w.toList = c :: cs)
    (hrest : Ends (· == c) (dropLayout false r)) : ∃ stop, mask w r = .error stop :=
  ⟨⟨dropLayout false r, .unexpected⟩, by
    rw [mask, bind_of_ok (a := ()) (r := dropLayout false r) rfl]
    exact bind_of_error (word_error hw hrest)⟩

theorem optional_mask {w : String} {c : Char} {cs r : List Char} (hw : w.toList = c :: cs)
    (hsolid : isBlank c = false ∧ c ≠ '/') (mask? : Option StmtId) (hm : ∀ m ∈ mask?, m ∈ names)
    (hrest : Ends (· == c) (dropLayout false r)) :
    optional (mask w) (maskText names w mask? ++ r) = .ok (mask?.map (nameOf names), r) := by
  cases mask? with
  | none =>
    obtain ⟨stop, hstop⟩ := mask_error hw hrest
    exact optional_of_error hstop
  | some m => exact optional_of_ok (mask_append hw hsolid (hm m rfl))

theorem spaced_append {α : Type} {item : Scan α} {t : List Char} {a : α}
    (h : item (t ++ rest) = .ok (a, rest)) (ht : Solid (t ++ rest)) :
    spaced item (t ++ rest) = .ok (a, dropLayout false rest) := by
  rw [spaced, bind_layout ht, bind_of_ok h]
  rfl

theorem bracketed_append (texts : List (List Char)) (rest : List Char) :
    bracketed texts ++ rest = '[' :: (commaSeparated texts ++ ']' :: rest) := by
  simp [bracketed]

/-- The lanes of a constant. -/
theorem constForm_append {lanes : List Constant} (hne : lanes ≠ [])
    (hfits : ∀ lane ∈ lanes, lane.Fits) (hrest : Ends isLiteralChar rest) :
    Scan.constForm (lanesText lanes ++ rest) = .ok (KernelIR.constForm lanes, rest) := by
  cases lanes with
  | nil => exact absurd rfl hne
  | cons lane lanes =>
    unfold lanesText KernelIR.constForm
    dsimp only
    split
    · rw [Scan.constForm, either_of_error (bind_of_error (word_error rfl (lane.ends_text rest))),
        bind_of_ok (constant_append (hfits lane List.mem_cons_self) hrest)]
      rfl
    · have hlane : ∀ b ∈ lane :: lanes, ∀ {c : Char} (tail : List Char), isLiteralChar c = false →
          isBlank c = false → c ≠ '/' →
          spaced constant (b.text ++ c :: tail) = .ok (b.reread, c :: tail) := by
        intro b hb c tail hc hblank hslash
        rw [spaced_append (constant_append (hfits b hb) (ends_cons hc tail)) (b.solid_text _),
          dropLayout_of_solid (solid_cons hblank hslash tail)]
      have hlist : list (spaced constant) (commaSeparated ((lane :: lanes).map Constant.text) ++
          ']' :: rest) = .ok ((lane :: lanes).map Constant.reread, ']' :: rest) :=
        list_commaSeparated (fun _ => rfl) (List.cons_ne_nil lane lanes)
          (fun b hb tail => hlane b hb tail rfl rfl (by decide))
          (fun b hb => hlane b hb rest rfl rfl (by decide)) (ends_cons rfl _)
      have hsolid : Solid (commaSeparated ((lane :: lanes).map Constant.text) ++ ']' :: rest) := by
        rw [commaSeparated_append]
        exact lane.solid_text _
      rw [bracketed_append, Scan.constForm, either_of_ok]
      rw [bind_sign rfl, bind_layout hsolid, bind_of_ok hlist,
        bind_layout (solid_cons rfl (by decide) _),
        bind_sign rfl]
      rfl

/-- The lanes of a load. -/
theorem loadForm_append {lanes : List SlotLane} (width : Nat) (hne : lanes ≠ [])
    (hnames : ∀ lane ∈ lanes, lane.slot ∈ names)
    (hoffsets : ∀ lane ∈ lanes, lane.offset < indexBound) (hrest : Ends isNameChar rest) :
    Scan.loadForm (sourceText names lanes width ++ rest) =
      .ok (KernelIR.loadForm names width lanes, rest) := by
  cases lanes with
  | nil => exact absurd rfl hne
  | cons lane lanes =>
    unfold sourceText KernelIR.loadForm
    dsimp only
    split
    · rw [Scan.loadForm, either_of_error (bind_of_error (word_error rfl (ends_valueName rfl _ _))),
        bind_of_ok (valueRef_name (hnames lane List.mem_cons_self) hrest)]
      rfl
    · have hlane : ∀ b ∈ lane :: lanes, ∀ {c : Char} (tail : List Char), isBlank c = false →
          c ≠ '/' → slotLane (b.text names ++ c :: tail) =
            .ok ((nameOf names b.slot, b.offset), c :: tail) := by
        intro b hb c tail hblank hslash
        have htext : b.text names ++ c :: tail =
            valueName names b.slot ++ '[' :: (natText b.offset ++ ']' :: c :: tail) := by
          simp [SlotLane.text]
        rw [htext, slotLane, bind_layout (solid_valueName _ _),
          bind_of_ok (valueRef_name (hnames b hb) (ends_cons rfl _)), bind_sign rfl,
          bind_layout ((isName_natText b.offset).solid _),
          bind_of_ok (index_append (hoffsets b hb) (ends_cons rfl _)),
          bind_layout (solid_cons rfl (by decide) _), bind_sign rfl,
          bind_layout (solid_cons hblank hslash tail)]
        rfl
      have hlist : list slotLane (commaSeparated ((lane :: lanes).map (SlotLane.text names)) ++
          ']' :: rest) = .ok ((lane :: lanes).map fun lane => (nameOf names lane.slot, lane.offset),
            ']' :: rest) :=
        list_commaSeparated (fun _ => rfl) (List.cons_ne_nil lane lanes)
          (fun b hb tail => hlane b hb tail rfl (by decide))
          (fun b hb => hlane b hb rest rfl (by decide)) (ends_cons rfl _)
      rw [bracketed_append, Scan.loadForm, either_of_ok]
      rw [bind_sign rfl, bind_of_ok hlist, bind_sign rfl]
      rfl

/-- The counters of a loop over a structure, in front of `in`. -/
theorem counters_append {counters : List StmtId} {r : List Char} (hne : counters ≠ [])
    (hnames : ∀ v ∈ counters, v ∈ names) (hrest : Solid r) (hcomma : Ends (· == ',') r) :
    list (spaced valueRef) (commaSeparated (counters.map (valueName names)) ++ ' ' :: r) =
      .ok (counters.map (nameOf names), r) := by
  have hcounter : ∀ v ∈ counters, ∀ {c : Char} (tail : List Char), isNameChar c = false →
      spaced valueRef (valueName names v ++ c :: tail) =
        .ok (nameOf names v, dropLayout false (c :: tail)) := fun v hv c tail hc =>
    spaced_append (valueRef_name (hnames v hv) (ends_cons hc tail)) (solid_valueName v _)
  refine list_commaSeparated (fun _ => rfl) hne (fun v hv tail => ?_) (fun v hv => ?_) hcomma
  · rw [hcounter v hv tail rfl, dropLayout_of_solid (solid_cons rfl (by decide) tail)]
  · rw [hcounter v hv r rfl]
    exact congrArg (fun text => Except.ok (nameOf names v, text)) (dropLayout_of_solid hrest)

end Scan

end KernelIR
