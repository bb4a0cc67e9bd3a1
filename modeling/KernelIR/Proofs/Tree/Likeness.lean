import Mathlib.Data.List.Forall2
import KernelIR.Proofs.Tree.Edit
import KernelIR.Text.Print

/-!
# Trees that are alike

Two trees are alike (`Tree.Like`) if they have the same nesting and the same statements in the
same order, the operands of one related to those of the other. They are isomorphic
(`Tree.Isomorphic`) if the relation is the one that pairs the statements of the two trees in
order, and constants are equal lane by lane.

Trees that are alike have the same text (`Tree.Like.render_eq`) if their constants have.
-/

namespace KernelIR

/-- Lanes that are numerically equal, or both NaN. -/
def Constant.Same (a b : Constant) : Prop :=
  a.agrees b = true ∨ ∃ x y, a = float x ∧ b = float y ∧ x.isNaN = true ∧ y.isNaN = true

/-- The kinds are the same but for their operands, which `Q` relates, the lanes of constants,
which `L` relates, and the numbers of blocks. -/
inductive Kind.Like (L : List Constant → List Constant → Prop) (Q : StmtId → StmtId → Prop) :
    Kind → Kind → Prop where
  | alloca : Like L Q .alloca .alloca
  | const {lanes lanes' : List Constant} (lane : L lanes lanes') :
    Like L Q (.const lanes) (.const lanes')
  | arg (index : Nat) : Like L Q (.arg index) (.arg index)
  | binary (op : BinaryOp) {lhs rhs lhs' rhs' : StmtId} (left : Q lhs lhs') (right : Q rhs rhs') :
    Like L Q (.binary op lhs rhs) (.binary op lhs' rhs')
  | load {lanes lanes' : List SlotLane}
    (lane : List.Forall₂ (fun a b => Q a.slot b.slot ∧ a.offset = b.offset) lanes lanes') :
    Like L Q (.load lanes) (.load lanes')
  | store {slot value slot' value' : StmtId} (target : Q slot slot') (source : Q value value') :
    Like L Q (.store slot value) (.store slot' value')
  | atomic (op : AtomicOp) {slot value slot' value' : StmtId} (target : Q slot slot')
    (source : Q value value') : Like L Q (.atomic op slot value) (.atomic op slot' value')
  | print {value value' : StmtId} (source : Q value value') :
    Like L Q (.print value) (.print value')
  | branch {cond cond' : StmtId} {trueMask falseMask trueMask' falseMask' : Option StmtId}
    {trueBlock falseBlock trueBlock' falseBlock' : Option BlockId} (test : Q cond cond')
    (onTrue : Option.Rel Q trueMask trueMask') (onFalse : Option.Rel Q falseMask falseMask')
    (first : trueBlock.isSome = trueBlock'.isSome)
    (second : falseBlock.isSome = falseBlock'.isSome) :
    Like L Q (.branch cond trueMask falseMask trueBlock falseBlock)
      (.branch cond' trueMask' falseMask' trueBlock' falseBlock')
  | loop {mask mask' : Option StmtId} {body body' : BlockId} (lanes : Option.Rel Q mask mask') :
    Like L Q (.loop mask body) (.loop mask' body')
  | leave {cond cond' : StmtId} (test : Q cond cond') : Like L Q (.leave cond) (.leave cond')
  | rangeFor {counter lower upper counter' lower' upper' : StmtId} {body body' : BlockId}
    (slot : Q counter counter') (from' : Q lower lower') (upto : Q upper upper') :
    Like L Q (.rangeFor counter lower upper body) (.rangeFor counter' lower' upper' body')
  | structFor (snode : String) {counters counters' : List StmtId} {body body' : BlockId}
    (slot : List.Forall₂ Q counters counters') :
    Like L Q (.structFor counters snode body) (.structFor counters' snode body')

/-- The trees have the same nesting and the same statements in the same order. -/
inductive Tree.Like (L : List Constant → List Constant → Prop) (Q : StmtId → StmtId → Prop) :
    Tree → Tree → Prop where
  | nil : Like L Q .nil .nil
  | cons {id id' : StmtId} {stmt stmt' : Stmt} {first second rest first' second' rest' : Tree}
    (result : Q id id') (kind : stmt.kind.Like L Q stmt'.kind) (type : stmt.type? = stmt'.type?)
    (nested₁ : Like L Q first first') (nested₂ : Like L Q second second')
    (behind : Like L Q rest rest') :
    Like L Q (.cons id stmt first second rest) (.cons id' stmt' first' second' rest')

/-- The statements of two trees, paired in order. -/
def Tree.pairs (t t' : Tree) : List (StmtId × StmtId) :=
  t.ids.zip t'.ids

/-- The statements of the trees correspond to each other in order, with the operands that
correspond to each other and equal constants. -/
structure Tree.Isomorphic (t t' : Tree) : Prop where
  nodup : t.ids.Nodup
  nodup' : t'.ids.Nodup
  like : t.Like (List.Forall₂ Constant.Same) (fun v v' => (v, v') ∈ t.pairs t') t'

variable {L L' : List Constant → List Constant → Prop} {Q Q' : StmtId → StmtId → Prop}

namespace Kind

variable {k k' : Kind}

/-- Other names for the operands of both kinds. -/
theorem Like.rename {f g : StmtId → StmtId} (h : k.Like L Q k') (hL : ∀ xs ys, L xs ys → L' xs ys)
    (hQ : ∀ v v', Q v v' → Q' (f v) (g v')) : (k.rename f).Like L' Q' (k'.rename g) := by
  have hopt : ∀ {m m' : Option StmtId}, Option.Rel Q m m' → Option.Rel Q' (m.map f) (m'.map g) := by
    rintro _ _ (h | _)
    · exact .some (hQ _ _ h)
    · exact .none
  cases h with
  | alloca => exact .alloca
  | const lane => exact .const (hL _ _ lane)
  | arg index => exact .arg index
  | binary op left right => exact .binary op (hQ _ _ left) (hQ _ _ right)
  | load lane =>
    rw [rename_load, rename_load]
    refine .load ?_
    rw [List.forall₂_map_left_iff, List.forall₂_map_right_iff]
    exact lane.imp fun _ _ h => ⟨hQ _ _ h.1, h.2⟩
  | store target source => exact .store (hQ _ _ target) (hQ _ _ source)
  | atomic op target source => exact .atomic op (hQ _ _ target) (hQ _ _ source)
  | print source => exact .print (hQ _ _ source)
  | branch test onTrue onFalse first second =>
    exact .branch (hQ _ _ test) (hopt onTrue) (hopt onFalse) first second
  | loop lanes => exact .loop (hopt lanes)
  | leave test => exact .leave (hQ _ _ test)
  | rangeFor slot from' upto => exact .rangeFor (hQ _ _ slot) (hQ _ _ from') (hQ _ _ upto)
  | structFor snode slot =>
    rw [rename_structFor, rename_structFor]
    refine .structFor snode ?_
    rw [List.forall₂_map_left_iff, List.forall₂_map_right_iff]
    exact slot.imp hQ

/-- Statements that are alike stay so for weaker relations. -/
theorem Like.mono (h : k.Like L Q k') (hL : ∀ xs ys, L xs ys → L' xs ys)
    (hQ : ∀ v v', Q v v' → Q' v v') : k.Like L' Q' k' := by
  have hrename : (k.rename id).Like L' Q' (k'.rename id) := h.rename hL hQ
  rwa [rename_id, rename_id] at hrename

/-- Of statements that are alike, both have a value or none. -/
theorem Like.hasValue_eq (h : k.Like L Q k') : k.hasValue = k'.hasValue := by
  cases h <;> rfl

/-- Only a constant is like a constant. -/
theorem Like.exists_const {lanes : List Constant} (h : (Kind.const lanes).Like L Q k') :
    ∃ lanes', k' = Kind.const lanes' ∧ L lanes lanes' := by
  cases h with
  | const lane => exact ⟨_, rfl, lane⟩

theorem Like.isContainer_eq (h : k.Like L Q k') : k.isContainer = k'.isContainer := by
  cases h <;> rfl

theorem Like.isSome_secondBlock? (h : k.Like L Q k') :
    k.secondBlock?.isSome = k'.secondBlock?.isSome := by
  cases h with
  | branch _ _ _ _ second => exact second
  | _ => rfl

end Kind

namespace Tree

variable {t t' : Tree}

/-- Trees that are alike stay so for weaker relations. -/
theorem Like.mono (h : t.Like L Q t') (hL : ∀ xs ys, L xs ys → L' xs ys)
    (hQ : ∀ v v', Q v v' → Q' v v') : t.Like L' Q' t' := by
  induction h with
  | nil => exact .nil
  | cons result kind type _ _ _ ih₁ ih₂ ih₃ =>
    exact .cons (hQ _ _ result) (kind.mono hL hQ) type ih₁ ih₂ ih₃

/-- Trees that are alike have as many statements. -/
theorem Like.length_ids (h : t.Like L Q t') : t.ids.length = t'.ids.length := by
  induction h with
  | nil => rfl
  | cons _ _ _ _ _ _ ih₁ ih₂ ih₃ => simp [ih₁, ih₂, ih₃]

/-- The statements are alike one by one. -/
theorem Like.preorder (h : t.Like L Q t') :
    List.Forall₂ (fun p p' => p.2.kind.Like L Q p'.2.kind ∧ p.2.type? = p'.2.type?)
      t.preorder t'.preorder := by
  induction h with
  | nil => exact .nil
  | cons _ kind type _ _ _ ih₁ ih₂ ih₃ =>
    exact .cons ⟨kind, type⟩ (List.rel_append (List.rel_append ih₁ ih₂) ih₃)

/-- In pre-order, their statements are alike one by one. -/
theorem Like.exists_of_getElem? (h : t.Like L Q t') {n : Nat} {p : StmtId × Stmt}
    (hp : t.preorder[n]? = some p) : ∃ p', t'.preorder[n]? = some p' ∧
      p.2.kind.Like L Q p'.2.kind ∧ p.2.type? = p'.2.type? := by
  obtain ⟨hlength, hget⟩ := List.forall₂_iff_get.1 h.preorder
  obtain ⟨hn, rfl⟩ := List.getElem?_eq_some_iff.1 hp
  exact ⟨_, List.getElem?_eq_getElem (hlength ▸ hn), hget n hn (hlength ▸ hn)⟩

theorem pairs_cons {R₁ R₂ : StmtId → StmtId → Prop}
    {first second first' second' : Tree} (h₁ : first.Like L R₁ first')
    (h₂ : second.Like L R₂ second') (id id' : StmtId) (stmt stmt' : Stmt) (rest rest' : Tree) :
    (cons id stmt first second rest).pairs (cons id' stmt' first' second' rest') =
      (id, id') :: (first.pairs first' ++ second.pairs second' ++ rest.pairs rest') := by
  unfold pairs
  rw [ids_cons, ids_cons, List.zip_cons_cons,
    List.zip_append (by simp [h₁.length_ids, h₂.length_ids]),
    List.zip_append h₁.length_ids]

@[simp] theorem values_nil : nil.values = [] := rfl

/-- The values of a tree, with its first statement apart. -/
theorem values_cons (id : StmtId) (stmt : Stmt) (first second rest : Tree) :
    (cons id stmt first second rest).values =
      (if stmt.kind.hasValue then [id] else []) ++
        (first.values ++ second.values ++ rest.values) := by
  cases h : stmt.kind.hasValue <;> simp [values, preorder, h]

theorem values_subset_ids (t : Tree) : t.values ⊆ t.ids := by
  intro v hv
  obtain ⟨p, hp, rfl⟩ := List.mem_map.1 hv
  exact mem_ids_of_mem_preorder (List.mem_filter.1 hp).1

/-- Their values correspond in order. -/
theorem Like.values (h : t.Like L Q t') : List.Forall₂ Q t.values t'.values := by
  induction h with
  | nil => exact .nil
  | @cons id id' stmt stmt' _ _ _ _ _ _ result kind _ _ _ _ ih₁ ih₂ ih₃ =>
    rw [values_cons, values_cons, ← kind.hasValue_eq]
    refine List.rel_append ?_ (List.rel_append (List.rel_append ih₁ ih₂) ih₃)
    split
    · exact .cons result .nil
    · exact .nil

end Tree

/-! ## Texts of trees that are alike -/

section Text

variable {names names' : List StmtId}

theorem map_eq_map_of_forall₂ {α β γ : Type} {f : α → γ} {g : β → γ} {l : List α} {l' : List β}
    (h : List.Forall₂ (fun a b => f a = g b) l l') : l.map f = l'.map g := by
  rw [← List.forall₂_eq_eq_eq, List.forall₂_map_left_iff, List.forall₂_map_right_iff]
  exact h

/-- Related values have the same number in related lists. -/
theorem idxOf?_eq (hQ : Relator.BiUnique Q) (h : List.Forall₂ Q names names') {v v' : StmtId}
    (hv : Q v v') : names.idxOf? v = names'.idxOf? v' := by
  induction h with
  | nil => rfl
  | @cons a a' _ _ ha _ ih =>
    have heq : a = v ↔ a' = v' :=
      ⟨fun h => hQ.2 ha (h ▸ hv), fun h => hQ.1 ha (h ▸ hv)⟩
    rw [List.idxOf?_cons, List.idxOf?_cons, ih]
    simp only [beq_iff_eq, heq]

/-- Values that correspond have the same name. -/
theorem valueName_eq_of_related (hQ : Relator.BiUnique Q) (h : List.Forall₂ Q names names')
    {v v' : StmtId} (hv : Q v v') : valueName names v = valueName names' v' := by
  rw [valueName, valueName, idxOf?_eq hQ h hv]

theorem maskText_eq (hQ : Relator.BiUnique Q) (h : List.Forall₂ Q names names') (w : String)
    {mask mask' : Option StmtId} (hmask : Option.Rel Q mask mask') :
    maskText names w mask = maskText names' w mask' := by
  cases hmask with
  | none => rfl
  | some hv => rw [maskText, maskText, valueName_eq_of_related hQ h hv]

/-- A load of a whole slot is like loads of the whole related slot only. -/
theorem isRegularLoadOf_of_like (hQ : Relator.RightUnique Q) {lanes lanes' : List SlotLane}
    (h : List.Forall₂ (fun a b => Q a.slot b.slot ∧ a.offset = b.offset) lanes lanes')
    {s s' : StmtId} (hs : Q s s') (hregular : (Kind.load lanes).isRegularLoadOf s = true) :
    (Kind.load lanes').isRegularLoadOf s' = true := by
  have hlanes : lanes = (List.range lanes.length).map (⟨s, ·⟩) := eq_of_beq hregular
  have hlength := h.length_eq
  rw [hlanes, List.forall₂_map_left_iff] at h
  have heq : List.Forall₂ (fun i (b : SlotLane) => (⟨s', i⟩ : SlotLane) = id b)
      (List.range lanes.length) lanes' :=
    h.imp fun i b hb => by
      obtain ⟨slot, offset⟩ := b
      rw [hQ hs hb.1, show i = offset from hb.2]
      rfl
  have hmap := map_eq_map_of_forall₂ heq
  rw [List.map_id, hlength] at hmap
  exact beq_iff_eq.2 hmap.symm

/-- What a load reads is printed the same. -/
theorem sourceText_eq (hQ : Relator.BiUnique Q) (h : List.Forall₂ Q names names')
    {lanes lanes' : List SlotLane}
    (hlanes : List.Forall₂ (fun a b => Q a.slot b.slot ∧ a.offset = b.offset) lanes lanes')
    (width : Nat) : sourceText names lanes width = sourceText names' lanes' width := by
  cases hlanes with
  | nil => rfl
  | @cons lane lane' rest rest' hlane hrest =>
    have hall : List.Forall₂ (fun (a b : SlotLane) => Q a.slot b.slot ∧ a.offset = b.offset)
        (lane :: rest) (lane' :: rest') := .cons hlane hrest
    have hregular : (Kind.load (lane :: rest)).isRegularLoadOf lane.slot =
        (Kind.load (lane' :: rest')).isRegularLoadOf lane'.slot := by
      rw [Bool.eq_iff_iff]
      refine ⟨isRegularLoadOf_of_like hQ.2 hall hlane.1, ?_⟩
      refine isRegularLoadOf_of_like (Q := fun v v' => Q v' v)
        (fun _ _ _ h h' => hQ.1 h h') ?_ hlane.1
      exact List.Forall₂.flip (hall.imp fun _ _ h => ⟨h.1, h.2.symm⟩)
    have htext : List.Forall₂ (fun a b => SlotLane.text names a = SlotLane.text names' b)
        (lane :: rest) (lane' :: rest') :=
      hall.imp fun a b hab => by
        rw [SlotLane.text, SlotLane.text, valueName_eq_of_related hQ h hab.1, hab.2]
    unfold sourceText
    dsimp only
    rw [hall.length_eq, hregular, valueName_eq_of_related hQ h hlane.1, map_eq_map_of_forall₂ htext]

/-- Statements that are alike are printed the same. -/
theorem Stmt.text_eq_of_like (hL : ∀ xs ys, L xs ys → lanesText xs = lanesText ys)
    (hQ : Relator.BiUnique Q) (h : List.Forall₂ Q names names') {stmt stmt' : Stmt}
    (hkind : stmt.kind.Like L Q stmt'.kind) (htype : stmt.type? = stmt'.type?) :
    stmt.text names = stmt'.text names' := by
  obtain ⟨kind, type?, b?⟩ := stmt
  obtain ⟨kind', type?', b?'⟩ := stmt'
  obtain rfl : type? = type?' := htype
  have hname : ∀ {v v'}, Q v v' → valueName names v = valueName names' v' := fun {_ _} hv =>
    valueName_eq_of_related hQ h hv
  have hpair : ∀ {a b a' b'}, Q a a' → Q b b' →
    commaSeparated [valueName names a, valueName names b] =
      commaSeparated [valueName names' a', valueName names' b'] := fun {_ _ _ _} ha hb => by
    rw [hname ha, hname hb]
  unfold Stmt.text
  cases hkind with
  | alloca => rfl
  | const lane => exact congrArg ("const ".toList ++ ·) (hL _ _ lane)
  | arg index => rfl
  | binary op left right => exact congrArg (fun t => op.name.toList ++ ' ' :: t) (hpair left right)
  | load lane => exact congrArg ("local_load ".toList ++ ·) (sourceText_eq hQ h lane _)
  | store target source => exact congrArg ("local_store ".toList ++ ·) (hpair target source)
  | atomic op target source =>
    exact congrArg (fun t => "atomic_".toList ++ op.name.toList ++ ' ' :: t) (hpair target source)
  | print source => exact congrArg ("print ".toList ++ ·) (hname source)
  | branch test onTrue onFalse first second =>
    dsimp only
    rw [hname test, maskText_eq hQ h _ onTrue, maskText_eq hQ h _ onFalse]
  | loop lanes => exact congrArg ("while".toList ++ ·) (maskText_eq hQ h _ lanes)
  | leave test => exact congrArg ("while_control ".toList ++ ·) (hname test)
  | rangeFor slot from' upto =>
    dsimp only
    rw [hname slot, hname from', hname upto]
  | structFor snode slot =>
    dsimp only
    rw [map_eq_map_of_forall₂ (slot.imp fun _ _ hv => hname hv)]

theorem blocksText_eq_of_like {k k' : Kind} (hkind : k.Like L Q k') (indent : Nat)
    (first second : List Char → List Char) (tail : List Char) :
    blocksText k indent first second tail = blocksText k' indent first second tail := by
  unfold blocksText
  rw [hkind.isContainer_eq, hkind.isSome_secondBlock?]

/-- So are their types. -/
theorem annotationText_eq_of_like {stmt stmt' : Stmt} (hkind : stmt.kind.Like L Q stmt'.kind)
    (htype : stmt.type? = stmt'.type?) : annotationText stmt = annotationText stmt' := by
  unfold annotationText
  rw [hkind.hasValue_eq, htype]

/-- So are their results. -/
theorem resultText_eq_of_like (hQ : Relator.BiUnique Q) (h : List.Forall₂ Q names names')
    {id id' : StmtId} (hid : Q id id') {stmt stmt' : Stmt} (hkind : stmt.kind.Like L Q stmt'.kind) :
    resultText names id stmt = resultText names' id' stmt' := by
  unfold resultText
  rw [hkind.hasValue_eq, valueName_eq_of_related hQ h hid]

/-- Trees that are alike have the same text. -/
theorem Tree.Like.render_eq {t t' : Tree} (h : t.Like L Q t')
    (hL : ∀ xs ys, L xs ys → lanesText xs = lanesText ys) (hQ : Relator.BiUnique Q)
    (hnames : List.Forall₂ Q names names') (indent : Nat) (tail : List Char) :
    t.render indent names tail = t'.render indent names' tail := by
  induction h generalizing indent names names' tail with
  | nil => rfl
  | @cons id id' stmt stmt' first second rest first' second' rest' result kind type nested₁ nested₂
      behind ih₁ ih₂ ih₃ =>
    have hvalue := kind.hasValue_eq
    obtain ⟨ns, ns', hns, hns', hrel⟩ : ∃ ns ns',
        ns = (if stmt.kind.hasValue then names ++ [id] else names) ∧
        ns' = (if stmt'.kind.hasValue then names' ++ [id'] else names') ∧
          List.Forall₂ Q ns ns' := by
      refine ⟨_, _, rfl, rfl, ?_⟩
      rw [← hvalue]
      split
      · exact List.rel_append hnames (.cons result .nil)
      · exact hnames
    have hrel₂ := List.rel_append hrel nested₁.values
    have hrel₃ := List.rel_append hrel₂ nested₂.values
    unfold Tree.render
    dsimp only
    rw [← hns, ← hns', resultText_eq_of_like hQ hrel result kind,
      Stmt.text_eq_of_like hL hQ hrel kind type, blocksText_eq_of_like kind,
      annotationText_eq_of_like kind type, ih₃ hrel₃, funext (ih₁ hrel (indent + 2)),
      funext (ih₂ hrel₂ (indent + 2))]

end Text

end KernelIR
