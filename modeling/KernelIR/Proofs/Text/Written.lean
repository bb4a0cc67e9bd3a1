import KernelIR.Proofs.Text.Build
import KernelIR.Proofs.Text.Statement

/-!
# Texts make statements that texts can express

What the grammar reads is in the ranges that it allows (`Scan.ensures_kernel`), and what a draft
in these ranges becomes can be written again : the tree of every kernel that is parsed consists of
statements that have a text, where they stand (`Context.Tidy.written`).
-/

namespace KernelIR

/-! ## What the grammar reads -/

/-- The numbers and names are in the ranges that the grammar allows. -/
def Form.Proper : Form → Prop
  | .splat lane => lane.Fits
  | .lanes l => ∀ lane ∈ l, lane.Fits
  | .arg index => index < Scan.indexBound
  | .loadLanes l => ∀ lane ∈ l, lane.2 < Scan.indexBound
  | .structFor counters snode => counters ≠ [] ∧ Scan.IsName snode
  | _ => True

/-- All forms of the draft are proper. -/
def Draft.Proper : Draft → Prop
  | .nil => True
  | .cons head first second rest => head.form.Proper ∧ first.Proper ∧ second.Proper ∧ rest.Proper

/-- All statements of the draft, with their blocks, are as `P` says. -/
def Draft.All (P : Head → Draft → Draft → Prop) : Draft → Prop
  | .nil => True
  | .cons head first second rest => P head first second ∧ first.All P ∧ second.All P ∧ rest.All P

theorem Draft.proper_iff_all {draft : Draft} :
    draft.Proper ↔ draft.All fun head _ _ => head.form.Proper := by
  induction draft with
  | nil => exact Iff.rfl
  | cons head first second rest ih₁ ih₂ ih₃ => simp only [Proper, All, ih₁, ih₂, ih₃]

namespace Scan

variable {α β : Type}

theorem ensures_fail {P : α → Prop} : Ensures fail P := by
  intro text a rest h
  cases h

theorem ensures_integer : Ensures integer Fits := by
  intro text i rest h
  obtain ⟨-, -, -, -, hfits⟩ := signed_of_integer h
  exact hfits

theorem ensures_index : Ensures index (· < indexBound) :=
  fun _ _ _ h => (digits_of_index h).1

theorem ensures_constant : Ensures constant Constant.Fits :=
  .either (.seq fun _ => .pure trivial) (.bind ensures_integer fun _ hi => .pure hi)

/-- Layout around an item promises nothing and takes nothing away. -/
theorem Ensures.spaced {item : Scan α} {P : α → Prop} (h : Ensures item P) :
    Ensures (spaced item) P :=
  .seq fun _ => .bind h fun _ ha => .seq fun _ => .pure ha

theorem ensures_constForm : Ensures constForm Form.Proper :=
  .either
    (.seq fun _ => .seq fun _ => .bind (.list (.spaced ensures_constant)) fun _ hl => .seq fun _ =>
      .seq fun _ => .pure hl.2)
    (.bind ensures_constant fun _ hl => .pure hl)

theorem ensures_slotLane : Ensures slotLane fun lane => lane.2 < indexBound :=
  .seq fun _ => .seq fun _ => .seq fun _ => .seq fun _ => .bind ensures_index fun _ hi =>
    .seq fun _ => .seq fun _ => .seq fun _ => .pure hi

theorem ensures_loadForm : Ensures loadForm Form.Proper :=
  .either (.seq fun _ => .bind (.list ensures_slotLane) fun _ hl => .seq fun _ => .pure hl.2)
    (.seq fun _ => .pure trivial)

/-- What is read behind a keyword, and the blocks. -/
theorem ensures_form {block : Scan Draft} (h : Ensures block Draft.Proper) (keyword : List Char) :
    Ensures (form block keyword) fun r => r.1.Proper ∧ r.2.1.Proper ∧ r.2.2.Proper := by
  unfold form
  split
  · exact .pure ⟨trivial, trivial, trivial⟩
  · exact .bind ensures_constForm fun _ hf => .pure ⟨hf, trivial, trivial⟩
  · exact .bind ensures_index fun _ hi => .pure ⟨hi, trivial, trivial⟩
  · exact .bind ensures_loadForm fun _ hf => .pure ⟨hf, trivial, trivial⟩
  · exact .seq fun _ => .pure ⟨trivial, trivial, trivial⟩
  · exact .seq fun _ => .pure ⟨trivial, trivial, trivial⟩
  · exact .seq fun _ => .pure ⟨trivial, trivial, trivial⟩
  · refine .seq fun _ => .seq fun _ => .seq fun _ => .seq fun _ => .bind h fun first hfirst =>
      .bind (.optional (.seq fun _ => .seq fun _ => .seq fun _ => h)) fun second? hsecond =>
        .pure ⟨trivial, hfirst, ?_⟩
    cases second? with
    | none => trivial
    | some d => exact hsecond d rfl
  · exact .seq fun _ => .seq fun _ => .bind h fun _ hd => .pure ⟨trivial, hd, trivial⟩
  · exact .seq fun _ => .seq fun _ => .seq fun _ => .seq fun _ => .seq fun _ => .seq fun _ =>
      .seq fun _ => .seq fun _ => .bind h fun _ hd => .pure ⟨trivial, hd, trivial⟩
  · exact .bind (.list (P := fun _ => True) (fun _ _ _ _ => trivial)) fun _ hc => .seq fun _ =>
      .seq fun _ => .bind .symbol fun _ hs => .seq fun _ => .bind h fun _ hd =>
        .pure ⟨⟨hc.1, hs⟩, hd, trivial⟩
  · refine .seq fun _ => .pure ⟨?_, trivial, trivial⟩
    split
    · trivial
    · trivial

section All

variable {P : Head → Draft → Draft → Prop}

/-- A part of the grammar that reads statements as `P` says, if the blocks in them are. -/
def Admits (P : Head → Draft → Draft → Prop) (read : List Char → Scan (Form × Draft × Draft)) :
    Prop :=
  ∀ keyword, Ensures (read keyword) fun r =>
    (∀ result? annotation?, P ⟨result?, keyword, r.1, annotation?⟩ r.2.1 r.2.2) ∧
      r.2.1.All P ∧ r.2.2.All P

theorem ensures_statement {block : Scan Draft} (h : Admits P (form block)) :
    Ensures (statement block) fun r => P r.1 r.2.1 r.2.2 ∧ r.2.1.All P ∧ r.2.2.All P :=
  .seq fun result? => .seq fun keyword => .seq fun _ => .bind (h keyword) fun _ hr =>
    .seq fun annotation? => .pure ⟨hr.1 result? annotation?, hr.2⟩

/-- What holds of every statement read holds of the draft read from them. -/
theorem ensures_statements {read : Scan (Head × Draft × Draft)}
    (h : Ensures read fun r => P r.1 r.2.1 r.2.2 ∧ r.2.1.All P ∧ r.2.2.All P) (bound : Nat) :
    Ensures (statements read bound) (Draft.All P) := by
  induction bound with
  | zero => exact ensures_fail
  | succ bound ih =>
    refine .seq fun _ => .seq fun text => ?_
    split
    · exact .pure trivial
    · exact .pure trivial
    · exact .bind h fun _ hr => .bind ih fun _ hrest => .pure ⟨hr.1, hr.2.1, hr.2.2, hrest⟩

variable (h : ∀ {block : Scan Draft}, Ensures block (Draft.All P) → Admits P (form block))
include h

theorem ensures_block (depth : Nat) : Ensures (block depth) (Draft.All P) := by
  induction depth with
  | zero => exact ensures_fail
  | succ depth ih =>
    exact .seq fun _ => .seq fun _ =>
      .bind (ensures_statements (ensures_statement (h ih)) _) fun _ hd => .seq fun _ => .pure hd

theorem ensures_kernel (depth : Nat) :
    Ensures (kernel depth) fun r => IsName r.1 ∧ r.2.All P :=
  .seq fun _ => .seq fun _ => .seq fun _ => .bind .symbol fun _ hn => .seq fun _ =>
    .bind (ensures_block h depth) fun _ hd => .pure ⟨hn, hd⟩

/-- What holds of every statement that the grammar reads holds of the whole draft. -/
theorem all_of_readKernel {text name : List Char} {draft : Draft}
    (hread : readKernel text = .ok (name, draft)) : IsName name ∧ draft.All P := by
  unfold readKernel at hread
  split at hread
  · cases hread
  · next hkernel =>
    split at hread
    · obtain rfl := Except.ok.inj hread
      exact ensures_kernel h _ _ _ _ hkernel
    · cases hread

end All

end Scan

theorem proper_of_readKernel {text name : List Char} {draft : Draft}
    (h : readKernel text = .ok (name, draft)) : Scan.IsName name ∧ draft.Proper := by
  rw [Draft.proper_iff_all]
  refine Scan.all_of_readKernel (fun {block} hblock keyword text r rest hr => ?_) h
  obtain ⟨hform, hfirst, hsecond⟩ := Scan.ensures_form
    (fun text d rest hd => Draft.proper_iff_all.2 (hblock text d rest hd)) keyword text r rest hr
  exact ⟨fun _ _ => hform, Draft.proper_iff_all.1 hfirst, Draft.proper_iff_all.1 hsecond⟩

/-! ## What a draft becomes -/

/-- A type that a statement of a form with or without a value may have. -/
structure Head.Typed (value : Bool) (type? : Option ValueType) : Prop where
  some : value = true → ∃ type, type? = some type ∧ 1 ≤ type.width ∧ type.width ≤ ValueType.maxWidth
  none : value = false → type? = none

/-- A statement has a type just if it has a result. -/
theorem Head.typed {head : Head} {type? : Option ValueType} (h : head.type? = .ok type?) :
    Head.Typed head.form.hasValue type? ∧ head.result?.isSome = type?.isSome := by
  refine ⟨⟨Head.exists_type h, fun heffect => ?_⟩, ?_⟩ <;>
    obtain ⟨rfl, hproduces, hnone⟩ := Head.type?_eq_ok_iff.1 h
  · rw [annotated?, (hnone heffect).2]
    rfl
  · cases hvalue : head.form.hasValue with
    | true => rw [(hproduces hvalue).1, (hproduces hvalue).2]
    | false =>
      rw [annotated?, (hnone hvalue).1, (hnone hvalue).2]
      rfl

/-- A lane that fits its literal and is converted to a type suits the element of the type. -/
theorem Constant.suits_of_convert {type : ValueType} {lane lane' : Constant} (hfits : lane.Fits)
    (h : lane.convert type = .ok lane') : lane'.Suits type.element := by
  cases lane with
  | int i =>
    obtain rfl := Except.ok.inj h
    cases hf : type.element.isFloat with
    | false => exact ⟨hf, hfits⟩
    | true => exact hf
  | float x =>
    rw [convert] at h
    split at h
    · next hf =>
      obtain rfl := Except.ok.inj h
      exact hf
    · cases h

/-- Whatever blocks the statement gets, a text can express it. -/
def Shape.Written (type? : Option ValueType) : Shape → Prop
  | .plain kind => ∀ b?, Stmt.Written ⟨kind, type?, b?⟩
  | .body kind => ∀ d b?, Stmt.Written ⟨kind d, type?, b?⟩
  | .branch kind _ => ∀ d e? b?, Stmt.Written ⟨kind d e?, type?, b?⟩

/-- What is resolved of a proper form can be expressed. -/
theorem Head.Shapes.written {names : Names} {head : Head} {type? : Option ValueType} {form : Form}
    {shape : Shape} (h : head.Shapes names type? form shape) (hproper : form.Proper)
    (htyped : Head.Typed form.hasValue type?) : shape.Written type? := by
  have hstmt : ∀ {kind : Kind} {b? : Option BlockId}, kind.hasValue = form.hasValue →
      kind.Written type? → Stmt.Written ⟨kind, type?, b?⟩ := fun hv hk =>
    ⟨hk, fun hvalue => htyped.some (hv ▸ hvalue), fun hvalue => htyped.none (hv ▸ hvalue)⟩
  cases h with
  | splat htype hlane =>
    refine fun _ => hstmt rfl ⟨_, htype, by simp, fun lane hl => ?_⟩
    obtain rfl := List.eq_of_mem_replicate hl
    exact Constant.suits_of_convert hproper hlane
  | lanes htype hlength hlanes =>
    refine fun _ => hstmt rfl ⟨_, htype, hlength, fun lane' hl' => ?_⟩
    obtain ⟨lane, hl, hconvert⟩ := exists_left_of_forall₂ hlanes hl'
    exact Constant.suits_of_convert (hproper lane hl) hconvert
  | loadSlot htype hs =>
    refine fun _ => hstmt rfl ⟨_, htype, by simp, fun lane hl => ?_⟩
    obtain ⟨type', htype', -, hwidth⟩ := htyped.some rfl
    obtain rfl := Option.some.inj (htype.symm.trans htype')
    obtain ⟨i, hi, rfl⟩ := List.mem_map.1 hl
    have hi := List.mem_range.1 hi
    exact Nat.lt_trans (Nat.lt_of_lt_of_le hi hwidth) (by decide)
  | loadLanes htype hlength hlanes =>
    refine fun _ => hstmt rfl ⟨_, htype, hlength, fun lane' hl' => ?_⟩
    obtain ⟨lane, hl, hlane⟩ := exists_left_of_forall₂ hlanes hl'
    exact hlane.2 ▸ hproper lane hl
  | arg index => exact fun _ => hstmt rfl hproper
  | alloca | binary | store | atomic | print | leave => exact fun _ => hstmt rfl trivial
  | branch => exact fun _ _ _ => hstmt rfl rfl
  | loop | rangeFor => exact fun _ _ => hstmt rfl trivial
  | structFor snode hvs =>
    refine fun _ _ => hstmt rfl ⟨?_, by simpa using hproper.2⟩
    rintro rfl
    exact hproper.1 (List.length_eq_zero_iff.1 hvs.length_eq)

/-- A statement of a proper form is given a shape written for its type, with a result where it has a
value. -/
theorem Head.shape_written {names : Names} {head : Head} {type? : Option ValueType} {shape : Shape}
    (hproper : head.form.Proper) (h : head.shape names = .ok (type?, shape)) :
    shape.Written type? ∧ head.result?.isSome = type?.isSome := by
  obtain ⟨htype, hshapes⟩ := Head.shapes_of_shape h
  obtain ⟨htyped, hresult⟩ := Head.typed htype
  exact ⟨hshapes.written hproper htyped, hresult⟩

/-- A proper draft becomes statements that texts can express where they stand. -/
theorem Draft.written_of_build {draft : Draft} (hproper : draft.Proper) {names : Names}
    {b : BlockId}
    {n m : Nat} {v : Tree × Nat × Nat} (h : draft.build names b n m = .ok v) {scope : List StmtId}
    (hnames : names.values ⊆ scope) : ∀ p ∈ v.1.sites scope, p.Written := by
  induction draft generalizing names b n m v scope with
  | nil =>
    obtain rfl := Except.ok.inj h
    simp [Tree.sites]
  | cons head first second rest ih₁ ih₂ ih₃ =>
    obtain ⟨hform, hp₁, hp₂, hp₃⟩ := hproper
    obtain ⟨type?, shape, kind, t₁, t₂, n₁, m₁, names', v₃, hshape, hblocks, hbind, hrest, rfl⟩ :=
      build_cons_eq_ok_iff.1 h
    have hresolved := Head.shape_resolved hshape
    obtain ⟨hwritten, hresult⟩ := Head.shape_written hform hshape
    have hnested : (∀ v ∈ kind.operands, v ∈ names.values) ∧ Stmt.Written ⟨kind, type?, some b⟩ ∧
        (∀ p ∈ t₁.sites scope, p.Written) ∧ ∀ p ∈ t₂.sites scope, p.Written := by
      cases hblocks with
      | plain => exact ⟨hresolved.visible, hwritten _, by simp [Tree.sites], by simp [Tree.sites]⟩
      | body _ hfirst =>
        exact ⟨(hresolved _).visible, hwritten _ _, ih₁ hp₁ hfirst hnames, by simp [Tree.sites]⟩
      | ifThen _ hfirst =>
        exact ⟨(hresolved _ _).visible, hwritten _ _ _, ih₁ hp₁ hfirst hnames, by simp [Tree.sites]⟩
      | ifThenElse _ hfirst hsecond =>
        exact ⟨(hresolved _ _).visible, hwritten _ _ _, ih₁ hp₁ hfirst hnames,
          ih₂ hp₂ hsecond hnames⟩
    obtain ⟨hvisible, hstmt, hw₁, hw₂⟩ := hnested
    simp only [Tree.sites, List.mem_cons, List.mem_append]
    rintro p (rfl | (hp | hp) | hp)
    · exact ⟨hstmt, fun u hu => hnames (hvisible u hu)⟩
    · exact hw₁ p hp
    · exact hw₂ p hp
    · refine ih₃ hp₃ hrest (fun u hu => Tree.mem_scopeAfter.2 ?_) p hp
      cases hres : head.result? with
      | none =>
        rw [hres] at hbind
        obtain rfl := Except.ok.inj hbind
        exact .inl (hnames hu)
      | some name =>
        rcases Names.values_of_bind hbind u hu with rfl | hu
        · refine .inr ⟨rfl, (Bool.eq_false_or_eq_true _).resolve_right fun hv => ?_⟩
          have hnone : type? = none := hstmt.untyped hv
          rw [hres, hnone] at hresult
          cases hresult
        · exact .inl (hnames hu)

/-- A kernel that is parsed consists of statements that texts can express where they stand. -/
theorem Context.Tidy.written {c c' : Context} (h : c.Tidy) {text : List Char} {kernel : Kernel}
    (hparse : KernelIR.parseKernel text c = .ok (.ok kernel, c')) :
    Scan.IsName kernel.name.toList ∧ ∀ p ∈ (c'.tree kernel.body).sites [], p.Written := by
  obtain ⟨name, draft, m, hread, hbuild, rfl⟩ := h.parseKernel_eq_ok_iff.1 ⟨c', hparse, rfl, rfl⟩
  obtain ⟨hname, hproper⟩ := proper_of_readKernel hread
  exact ⟨by simpa using hname, Draft.written_of_build hproper hbuild (by simp [Names.values])⟩

end KernelIR
