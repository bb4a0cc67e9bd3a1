import Mathlib.Data.List.Infix
import KernelIR.Operation
import KernelIR.Text.Draft
import KernelIR.ValueType

/-!
# What is visible where

A `Place` says where a statement of a draft stands : which statements it is nested in, and its
position in the innermost block. What stands earlier in the same block is `Place.Before` it, and so
is what stands in an enclosing block earlier than the statement that contains it. This is all that
is visible, and a draft is lawful (`Draft.Lawful`) if each of its statements only refers to what is
visible where it stands, binds a name that is not, and is in order for itself
(`Head.Lawful`). Nothing of this follows the text from one statement to the next.

The last part takes a draft apart : what is visible in it, and whether it is lawful, is said of its
first statement, the blocks of this statement and the statements behind it
(`Draft.lawfulIn_cons_iff`).
-/

namespace KernelIR

/-- The blocks of a statement. -/
inductive Side where
  | first
  | second
deriving DecidableEq

/-- The one of two that is on this side. -/
def Side.of {α : Type} : Side → α → α → α
  | first, a, _ => a
  | second, _, b => b

/-- Where a statement stands : the statements that it is nested in, from the outermost on, each with
its position in its block and the block of it that is meant, and its own position in the innermost
block. -/
structure Place where
  path : List (Nat × Side)
  index : Nat
deriving DecidableEq

/-- The place `q` is in the same block as `p` and earlier, or it is in a block around `p`, earlier
than the statement in that block which contains `p`. -/
def Place.Before (q p : Place) : Prop :=
  (q.path = p.path ∧ q.index < p.index) ∨
    ∃ i side inner, p.path = q.path ++ (i, side) :: inner ∧ q.index < i

namespace Draft

/-- A statement of the outermost block with its blocks. -/
def stmt? : Draft → Nat → Option (Head × Draft × Draft)
  | nil, _ => none
  | cons head first second _, 0 => some (head, first, second)
  | cons _ _ _ rest, i + 1 => rest.stmt? i

/-- The block that a path leads to. -/
def block? (draft : Draft) : List (Nat × Side) → Option Draft
  | [] => some draft
  | (i, side) :: inner =>
    match draft.stmt? i with
    | none => none
    | some (_, first, second) => (side.of first second).block? inner

/-- The statement that stands at a place. -/
def head? (draft : Draft) (p : Place) : Option Head :=
  ((draft.block? p.path).bind (·.stmt? p.index)).map Prod.fst

/-- The statement at this place binds the name. -/
def Binds (draft : Draft) (p : Place) (name : ValueName) : Prop :=
  ∃ head, draft.head? p = some head ∧ head.result? = some name

end Draft

/-! ## The rules for one statement -/

namespace Form

/-- The names of the operands of a statement whose type has the given width. A slot is loaded
element by element. -/
def operands (width : Nat) : Form → List ValueName
  | alloca | splat _ | lanes _ | arg _ => []
  | binary lhs rhs => [lhs, rhs]
  | loadSlot slot => List.replicate width slot
  | loadLanes l => l.map Prod.fst
  | store slot value | atomic slot value => [slot, value]
  | print value | leave value => [value]
  | branch cond trueMask falseMask _ => cond :: (trueMask.toList ++ falseMask.toList)
  | loop mask => mask.toList
  | rangeFor counter lower upper => [counter, lower, upper]
  | structFor counters _ => counters

/-- The names that the text refers to. -/
def references (form : Form) : List ValueName :=
  form.operands 1

/-- How many entries a list in brackets has. -/
def entries? : Form → Option Nat
  | lanes l => some l.length
  | loadLanes l => some l.length
  | _ => none

/-- The literals of a constant. -/
def literals : Form → List Constant
  | splat lane => [lane]
  | lanes l => l
  | _ => []

/-- The keyword is the name of a binary operation or, behind `atomic_`, of an atomic one. -/
def KnownOperation (keyword : List Char) : Form → Prop
  | binary _ _ => ∃ op : BinaryOp, keyword = op.name.toList
  | atomic _ _ => ∃ op : AtomicOp, keyword = "atomic_".toList ++ op.name.toList
  | _ => True

end Form

/-- The type that the annotation names. -/
def Head.annotated? (head : Head) : Option ValueType :=
  head.annotation?.bind ValueType.ofName?

/-- A statement that is in order where the given names are visible. -/
structure Head.Lawful (visible : ValueName → Prop) (head : Head) : Prop where
  produces : head.form.hasValue = true → head.result?.isSome = true ∧ head.annotated?.isSome = true
  effect : head.form.hasValue = false → head.result? = none ∧ head.annotation? = none
  operation : head.form.KnownOperation head.keyword
  defined : ∀ name ∈ head.form.references, visible name
  fresh : ∀ name, head.result? = some name → ¬visible name
  entries : ∀ n type, head.form.entries? = some n → head.annotated? = some type → n = type.width
  literals : ∀ x type, .float x ∈ head.form.literals → head.annotated? = some type →
    type.element.isFloat = true

namespace Draft

/-- Every statement refers to what is before it and binds a new name, and is in order for itself. -/
def Lawful (draft : Draft) : Prop :=
  ∀ p head, draft.head? p = some head →
    head.Lawful fun name => ∃ q, q.Before p ∧ draft.Binds q name

end Draft

/-! ## Places -/

namespace Place

variable {p q r : Place} {side : Side}

/-- The first statement. -/
def start : Place :=
  ⟨[], 0⟩

/-- The place in a block of the first statement. -/
def inside (side : Side) (p : Place) : Place :=
  ⟨(0, side) :: p.path, p.index⟩

/-- The place behind the first statement. -/
def later : Place → Place
  | ⟨[], i⟩ => ⟨[], i + 1⟩
  | ⟨(i, side) :: inner, k⟩ => ⟨(i + 1, side) :: inner, k⟩

/-- A place is the first statement, or in it, or behind it. -/
@[elab_as_elim]
theorem walk {motive : Place → Prop} (start : motive start)
    (inside : ∀ side p, motive p → motive (inside side p))
    (later : ∀ p, motive p → motive (later p)) (p : Place) : motive p := by
  obtain ⟨path, k⟩ := p
  induction path with
  | nil =>
    induction k with
    | zero => exact start
    | succ k ih => exact later ⟨[], k⟩ ih
  | cons step inner ih =>
    obtain ⟨i, side⟩ := step
    induction i with
    | zero => exact inside side ⟨inner, k⟩ ih
    | succ i ih => exact later ⟨(i, side) :: inner, k⟩ ih

/-- No place is in front of the first one. -/
theorem not_before_start : ¬q.Before start := by
  rintro (⟨-, hlt⟩ | ⟨i, side, inner, hpath, -⟩)
  · exact absurd hlt (Nat.not_lt_zero _)
  · exact absurd hpath.symm (by simp [start])

/-- In front of a place in a block are only places in this block. -/
theorem before_inside_iff :
    q.Before (inside side p) ↔ ∃ q', q = inside side q' ∧ q'.Before p := by
  constructor
  · rintro (⟨hpath, hlt⟩ | ⟨i, side', inner, hpath, hlt⟩)
    · obtain ⟨path, k⟩ := q
      obtain rfl : path = (0, side) :: p.path := hpath
      exact ⟨⟨p.path, k⟩, rfl, .inl ⟨rfl, hlt⟩⟩
    · obtain ⟨path, k⟩ := q
      cases path with
      | nil =>
        obtain ⟨hstep, -⟩ := List.cons.inj hpath
        obtain ⟨rfl, -⟩ := Prod.mk.inj hstep
        exact absurd hlt (Nat.not_lt_zero _)
      | cons step path =>
        obtain ⟨rfl, htail⟩ := List.cons.inj hpath
        exact ⟨⟨path, k⟩, rfl, .inr ⟨i, side', inner, htail, hlt⟩⟩
  · rintro ⟨q', rfl, ⟨hpath, hlt⟩ | ⟨i, side', inner, hpath, hlt⟩⟩
    · exact .inl ⟨congrArg (List.cons (0, side)) hpath, hlt⟩
    · exact .inr ⟨i, side', inner, congrArg (List.cons (0, side)) hpath, hlt⟩

theorem later_before_later : (later q).Before (later p) ↔ q.Before p := by
  obtain ⟨_ | ⟨⟨i, side⟩, path⟩, k⟩ := q <;> obtain ⟨_ | ⟨⟨j, side'⟩, path'⟩, l⟩ := p <;>
    simp [later, Before]

/-- The first statement is in front of all later ones. -/
theorem start_before_later : start.Before (later p) := by
  obtain ⟨_ | ⟨⟨i, side⟩, path⟩, k⟩ := p
  · exact .inl ⟨rfl, Nat.succ_pos k⟩
  · exact .inr ⟨i + 1, side, path, rfl, Nat.succ_pos i⟩

theorem not_inside_before_later : ¬(inside side q).Before (later p) := by
  obtain ⟨_ | ⟨⟨i, side'⟩, path⟩, k⟩ := p <;> simp [inside, later, Before]

/-- In front of a later place are the first one and later ones. -/
theorem before_later_iff :
    q.Before (later p) ↔ q = start ∨ ∃ q', q = later q' ∧ q'.Before p := by
  constructor
  · induction q using walk with
    | start => exact fun _ => .inl rfl
    | inside side q _ => exact fun h => absurd h not_inside_before_later
    | later q _ => exact fun h => .inr ⟨q, rfl, later_before_later.1 h⟩
  · rintro (rfl | ⟨q', rfl, h⟩)
    · exact start_before_later
    · exact later_before_later.2 h

/-- Of two places before a third, one is before the other. -/
theorem Before.total (hq : q.Before p) (hr : r.Before p) : q = r ∨ q.Before r ∨ r.Before q := by
  induction p using walk generalizing q r with
  | start => exact absurd hq not_before_start
  | inside side p ih =>
    obtain ⟨q, rfl, hq'⟩ := before_inside_iff.1 hq
    obtain ⟨r, rfl, hr'⟩ := before_inside_iff.1 hr
    exact (ih hq' hr').imp (congrArg _) (.imp (fun h => before_inside_iff.2 ⟨q, rfl, h⟩)
      fun h => before_inside_iff.2 ⟨r, rfl, h⟩)
  | later p ih =>
    rcases before_later_iff.1 hq with rfl | ⟨q, rfl, hq'⟩ <;>
      rcases before_later_iff.1 hr with rfl | ⟨r, rfl, hr'⟩
    · exact .inl rfl
    · exact .inr (.inl start_before_later)
    · exact .inr (.inr start_before_later)
    · exact (ih hq' hr').imp (congrArg _) (.imp later_before_later.2 later_before_later.2)

end Place

/-! ## Taking a draft apart -/

namespace Draft

variable {head : Head} {first second rest : Draft} {outer : ValueName → Prop} {side : Side}
    {p : Place}
  {name : ValueName}

@[simp] theorem head?_nil : nil.head? p = none := by
  obtain ⟨_ | ⟨⟨i, side⟩, path⟩, k⟩ := p <;> simp [head?, block?, stmt?]

@[simp] theorem head?_start : (cons head first second rest).head? .start = some head :=
  rfl

@[simp] theorem head?_inside :
    (cons head first second rest).head? (.inside side p) = (side.of first second).head? p :=
  rfl

@[simp] theorem head?_later : (cons head first second rest).head? p.later = rest.head? p := by
  obtain ⟨_ | ⟨⟨i, side⟩, path⟩, k⟩ := p <;> rfl

/-- The name is visible at the place, if the given names are visible to the whole draft. -/
def Visible (draft : Draft) (outer : ValueName → Prop) (p : Place) (name : ValueName) : Prop :=
  outer name ∨ ∃ q, q.Before p ∧ draft.Binds q name

/-- To the first statement, only outer names are visible. -/
theorem visible_start_iff :
    (cons head first second rest).Visible outer .start name ↔ outer name := by
  simp [Visible, Place.not_before_start]

/-- In a block of the first statement, its own result is not visible. -/
theorem visible_inside_iff : (cons head first second rest).Visible outer (.inside side p) name ↔
    (side.of first second).Visible outer p name := by
  simp only [Visible, Place.before_inside_iff, Binds]
  refine or_congr_right ⟨?_, ?_⟩
  · rintro ⟨_, ⟨q, rfl, hq⟩, hbinds⟩
    exact ⟨q, hq, hbinds⟩
  · rintro ⟨q, hq, hbinds⟩
    exact ⟨_, ⟨q, rfl, hq⟩, hbinds⟩

/-- To later statements, it is. -/
theorem visible_later_iff : (cons head first second rest).Visible outer p.later name ↔
    rest.Visible (fun name => head.result? = some name ∨ outer name) p name := by
  simp only [Visible, Place.before_later_iff, Binds]
  constructor
  · rintro (houter | ⟨_, rfl | ⟨q, rfl, hq⟩, head', hhead, hresult⟩)
    · exact .inl (.inr houter)
    · obtain rfl := Option.some.inj hhead
      exact .inl (.inl hresult)
    · exact .inr ⟨q, hq, head', head?_later.symm.trans hhead, hresult⟩
  · rintro ((hresult | houter) | ⟨q, hq, head', hhead, hresult⟩)
    · exact .inr ⟨_, .inl rfl, head, rfl, hresult⟩
    · exact .inl houter
    · exact .inr ⟨_, .inr ⟨q, rfl, hq⟩, head', head?_later.trans hhead, hresult⟩

/-- The draft is lawful where the given names are visible. -/
def LawfulIn (outer : ValueName → Prop) (draft : Draft) : Prop :=
  ∀ p head, draft.head? p = some head → head.Lawful (draft.Visible outer p)

theorem lawfulIn_nil (outer : ValueName → Prop) : nil.LawfulIn outer := by
  simp [LawfulIn]

/-- The first statement is in order, its blocks see what it sees, and what follows it sees its
result as well. -/
theorem lawfulIn_cons_iff : (cons head first second rest).LawfulIn outer ↔
    head.Lawful outer ∧ first.LawfulIn outer ∧ second.LawfulIn outer ∧
      rest.LawfulIn fun name => head.result? = some name ∨ outer name := by
  have hstart : (cons head first second rest).Visible outer .start = outer :=
    funext fun _ => propext visible_start_iff
  have hinside : ∀ side p, (cons head first second rest).Visible outer (.inside side p) =
      (side.of first second).Visible outer p := fun _ _ => funext fun _ =>
        propext visible_inside_iff
  have hlater : ∀ p : Place, (cons head first second rest).Visible outer p.later =
      rest.Visible (fun name => head.result? = some name ∨ outer name) p :=
    fun _ => funext fun _ => propext visible_later_iff
  constructor
  · intro h
    refine ⟨hstart ▸ h .start head rfl, fun p head' hp => ?_, fun p head' hp => ?_,
      fun p head' hp => ?_⟩
    · exact hinside .first p ▸ h (.inside .first p) head' hp
    · exact hinside .second p ▸ h (.inside .second p) head' hp
    · exact hlater p ▸ h p.later head' (head?_later.trans hp)
  · rintro ⟨hhead, hfirst, hsecond, hrest⟩ p head' hp
    induction p using Place.walk with
    | start =>
      obtain rfl := Option.some.inj hp
      rwa [hstart]
    | inside side p _ =>
      rw [hinside]
      cases side with
      | first => exact hfirst p head' hp
      | second => exact hsecond p head' hp
    | later p _ =>
      rw [hlater]
      exact hrest p head' (head?_later.symm.trans hp)

/-- Lawful means lawful without outer names. -/
theorem lawful_iff_lawfulIn {draft : Draft} : draft.Lawful ↔ draft.LawfulIn fun _ => False := by
  have hvisible : ∀ p, draft.Visible (fun _ => False) p =
      fun name => ∃ q, q.Before p ∧ draft.Binds q name :=
    fun p => funext fun name => propext (iff_of_eq (false_or _))
  simp only [Lawful, LawfulIn, hvisible]

/-- A lawful draft has one statement for a visible name. -/
theorem Lawful.binder_unique {draft : Draft} (h : draft.Lawful) {q r : Place} (hq : q.Before p)
    (hr : r.Before p) (hqname : draft.Binds q name) (hrname : draft.Binds r name) : q = r := by
  have hne : ∀ {q r : Place}, q.Before r → draft.Binds q name → ¬draft.Binds r name := by
    rintro q r hbefore hbinds ⟨head, hhead, hresult⟩
    exact (h r head hhead).fresh name hresult ⟨q, hbefore, hbinds⟩
  rcases hq.total hr with heq | hbefore | hbefore
  · exact heq
  · exact absurd hrname (hne hbefore hqname)
  · exact absurd hqname (hne hbefore hrname)

end Draft

end KernelIR
