import KernelIR.Proofs.Layout
import KernelIR.Proofs.Text.Numerals

/-!
# Numerals are exact or rejected

All numerals of a text that is parsed to a kernel are in their ranges, and the kernel has the
numbers that they stand for, statement by statement (`parseKernel_numerals`). So a text is
rejected if one of its numerals is not in its range, however many digits it has.

The name of a type ends a statement with a value, and so cuts the numbers of a text into those
of its statements (`byStatement`). `Stmt.origins` are the numbers that may be written for a
statement. An integer lane, the number of an argument, and that of a lane of a load are written
as they are stored, and the number of lanes is. Equal lanes may be one literal or several, and a
load of a whole slot may be written without its lanes. Still, the numbers of a constant of
integers leave nothing open about its lanes (`Kind.const_eq_of_mem_origins`). Literals that are
no integers are not looked at, so a lane of a floating-point constant is only told if it is
written as an integer.
-/

namespace KernelIR

/-! ## What may be written for a statement -/

/-- The numbers of each statement. The number of lanes is the last one. -/
def byStatement : List Quantity → List (List Quantity)
  | [] => []
  | .width n :: l => [.width n] :: byStatement l
  | q :: l =>
    match byStatement l with
    | [] => [[q]]
    | group :: groups => (q :: group) :: groups

/-- What may be written for a lane with this type of element. -/
def Constant.origins (element : ScalarType) : Constant → Language Quantity
  | int i => {l | element.isFloat = false ∧ l = [.integer i]}
  | float x => {l | element.isFloat = true ∧ (l = [] ∨ ∃ i, x = .ofInt i ∧ l = [.integer i])}

/-- Equal lanes may be written once, and a load of a slot may be written without its lanes. -/
def Kind.origins (type : ValueType) : Kind → Language Quantity
  | arg index => {[.index index]}
  | const lanes => {l |
      lanes.length = type.width ∧ l ∈ (lanes.map (Constant.origins type.element)).prod ∨
      ∃ lane, lanes = List.replicate type.width lane ∧ l ∈ lane.origins type.element}
  | load lanes => {l | lanes.length = type.width ∧ (l = lanes.map (fun lane => .index lane.offset) ∨
      l = [] ∧ ∃ slot, (load lanes).isRegularLoadOf slot = true)}
  | _ => 1

/-- The number of lanes is written behind the numbers of the kind. -/
def Stmt.origins (stmt : Stmt) : Language Quantity :=
  match stmt.type? with
  | none => 1
  | some type => stmt.kind.origins type * {[.width type.width]}

/-- The statements of a tree that have a value. -/
def Tree.valued (t : Tree) : List Stmt :=
  (t.preorder.map Prod.snd).filter fun stmt => stmt.kind.hasValue

open Language

/-! ## Numbers of statements -/

/-- The numbers of a statement in front of others are cut off behind its number of lanes. -/
theorem byStatement_append {l : List Quantity} (h : ∀ n, .width n ∉ l) (n : Nat)
    (rest : List Quantity) :
    byStatement (l ++ .width n :: rest) = (l ++ [.width n]) :: byStatement rest := by
  induction l with
  | nil => rfl
  | cons q l ih =>
    have ih := ih fun n hn => h n (List.mem_cons_of_mem q hn)
    cases q with
    | width m => exact absurd List.mem_cons_self (h m)
    | integer | index => simp [byStatement, ih]

/-- The numbers are cut into ones that may be written for the statements, whatever is behind
them. -/
def Numbers (l : List Quantity) (stmts : List Stmt) : Prop :=
  ∃ groups, List.Forall₂ (fun group stmt => group ∈ stmt.origins) groups stmts ∧
    ∀ rest, byStatement (l ++ rest) = groups ++ byStatement rest

namespace Numbers

variable {l l' : List Quantity} {stmts stmts' : List Stmt}

theorem nil : Numbers [] [] :=
  ⟨[], .nil, fun _ => rfl⟩

theorem append (h : Numbers l stmts) (h' : Numbers l' stmts') :
    Numbers (l ++ l') (stmts ++ stmts') := by
  obtain ⟨groups, hgroups, hcut⟩ := h
  obtain ⟨groups', hgroups', hcut'⟩ := h'
  refine ⟨groups ++ groups', List.rel_append hgroups hgroups', fun rest => ?_⟩
  rw [List.append_assoc, hcut, hcut', List.append_assoc]

/-- The numbers of one statement, with its number of lanes behind them. -/
theorem single {n : Nat} {stmt : Stmt} (h : ∀ n, .width n ∉ l)
    (hmem : l ++ [.width n] ∈ stmt.origins) : Numbers (l ++ [.width n]) [stmt] := by
  refine ⟨[l ++ [.width n]], .cons hmem .nil, fun rest => ?_⟩
  rw [List.append_assoc]
  exact byStatement_append h n rest

/-- Cut alone, they are the ones of the statements. -/
theorem forall₂ (h : Numbers l stmts) :
    List.Forall₂ (fun group stmt => group ∈ stmt.origins) (byStatement l) stmts := by
  obtain ⟨groups, hgroups, hcut⟩ := h
  have hself := hcut []
  rw [List.append_nil, byStatement, List.append_nil] at hself
  rwa [hself]

end Numbers

theorem Tree.valued_cons (id : StmtId) (stmt : Stmt) (first second rest : Tree) :
    (cons id stmt first second rest).valued =
      [stmt].filter (fun stmt => stmt.kind.hasValue) ++
        (first.valued ++ (second.valued ++ rest.valued)) := by
  cases hvalue : stmt.kind.hasValue <;> simp [valued, preorder, hvalue]

/-! ## Constants -/

namespace Constant

variable {type : ValueType} {lane lane' : Constant} {lanes lanes' : List Constant}

/-- The number of a literal may be written for the lane that it gives. -/
theorem written_mem_origins (h : lane.convert type = .ok lane') :
    lane.written ∈ lane'.origins type.element := by
  cases hfloat : type.element.isFloat with
  | false =>
    cases lane with
    | int i =>
      simp only [convert, hfloat, Bool.false_eq_true, if_false] at h
      obtain rfl := Except.ok.inj h
      exact ⟨hfloat, rfl⟩
    | float x =>
      simp only [convert, hfloat, Bool.false_eq_true, if_false] at h
      cases h
  | true =>
    cases lane with
    | int i =>
      simp only [convert, hfloat, if_true] at h
      obtain rfl := Except.ok.inj h
      exact ⟨hfloat, .inr ⟨i, rfl, rfl⟩⟩
    | float x =>
      simp only [convert, hfloat, if_true] at h
      obtain rfl := Except.ok.inj h
      exact ⟨hfloat, .inl rfl⟩

theorem flatMap_written_mem
    (h : List.Forall₂ (fun lane lane' => lane.convert type = .ok lane') lanes lanes') :
    lanes.flatMap written ∈ (lanes'.map (origins type.element)).prod := by
  induction h with
  | nil => exact nil_mem_one
  | cons hlane _ ih =>
    rw [List.flatMap_cons, List.map_cons, List.prod_cons]
    exact append_mem_mul (written_mem_origins hlane) ih

variable {element : ScalarType} (hint : element.isFloat = false) {l : List Quantity}
include hint

/-- An integer lane is written as it is stored. -/
theorem exists_of_mem_origins (h : l ∈ lane.origins element) :
    ∃ i, lane = .int i ∧ l = [.integer i] := by
  cases lane with
  | int i => exact ⟨i, rfl, h.2⟩
  | float x => cases hint.symm.trans h.1

/-- So are several of them. -/
theorem exists_of_mem_prod (h : l ∈ (lanes.map (origins element)).prod) :
    ∃ is : List Int, lanes = is.map .int ∧ l = is.map .integer := by
  induction lanes generalizing l with
  | nil => exact ⟨[], rfl, h⟩
  | cons lane lanes ih =>
    rw [List.map_cons, List.prod_cons] at h
    obtain ⟨l₁, h₁, l₂, h₂, rfl⟩ := mem_mul.1 h
    obtain ⟨i, rfl, rfl⟩ := exists_of_mem_origins hint h₁
    obtain ⟨is, rfl, rfl⟩ := ih h₂
    exact ⟨i :: is, rfl, rfl⟩

end Constant

/-- The numbers of a constant of integers are those of its lanes, or one for all of them. -/
theorem Kind.exists_of_mem_origins {type : ValueType} (hint : type.element.isFloat = false)
    {lanes : List Constant} {l : List Quantity} (h : l ∈ (const lanes).origins type) :
    ∃ is : List Int, l = is.map .integer ∧ (is.length = type.width ∧ lanes = is.map .int ∨
      ∃ i, is = [i] ∧ lanes = List.replicate type.width (.int i)) := by
  rcases h with ⟨hlength, h⟩ | ⟨lane, rfl, h⟩
  · obtain ⟨is, rfl, rfl⟩ := Constant.exists_of_mem_prod hint h
    exact ⟨is, rfl, .inl ⟨by simpa using hlength, rfl⟩⟩
  · obtain ⟨i, rfl, rfl⟩ := Constant.exists_of_mem_origins hint h
    exact ⟨[i], rfl, .inr ⟨i, rfl, rfl⟩⟩

/-- The numbers of a constant of integers tell its lanes. -/
theorem Kind.const_eq_of_mem_origins {type : ValueType} (hint : type.element.isFloat = false)
    {lanes lanes' : List Constant} {l : List Quantity} (h : l ∈ (const lanes).origins type)
    (h' : l ∈ (const lanes').origins type) : lanes = lanes' := by
  obtain ⟨is, rfl, hlanes⟩ := exists_of_mem_origins hint h
  obtain ⟨js, heq, hlanes'⟩ := exists_of_mem_origins hint h'
  obtain rfl : is = js := List.map_injective_iff.2 (fun _ _ => Quantity.integer.inj) heq
  rcases hlanes with ⟨hlength, rfl⟩ | ⟨i, rfl, rfl⟩
  · rcases hlanes' with ⟨-, rfl⟩ | ⟨j, rfl, rfl⟩
    · rfl
    · rw [← hlength]
      rfl
  · rcases hlanes' with ⟨hlength, rfl⟩ | ⟨j, hsame, rfl⟩
    · rw [← hlength]
      rfl
    · rw [(List.cons.inj hsame).1]

/-! ## What a draft becomes -/

/-- The name of a type writes its number of lanes. -/
theorem writtenWidth_eq {name : List Char} {type : ValueType}
    (h : ValueType.ofName? name = some type) : writtenWidth name = [.width type.width] := by
  rw [writtenWidth, h]
  rfl

namespace Form

variable {form : Form}

/-- A form without a value has no numbers. -/
theorem written_eq_nil (h : form.hasValue = false) : form.written = [] := by
  cases form <;> first | rfl | cases h

/-- The number of lanes is not a number of the form. -/
theorem width_notMem_written (n : Nat) : .width n ∉ form.written := by
  have hlane : ∀ lane : Constant, .width n ∉ lane.written := fun lane => by
    cases lane <;> simp [Constant.written]
  cases form <;> simp [written, hlane]

end Form

namespace Head.Shapes

variable {names : Names} {head : Head} {type? : Option ValueType} {form : Form} {shape : Shape}

/-- A form has a value just if the kinds that it becomes have. -/
theorem ensures_hasValue (h : head.Shapes names type? form shape) :
    shape.Ensures fun kind => kind.hasValue = form.hasValue := by
  cases h with
  | branch => exact fun _ _ => rfl
  | loop | rangeFor | structFor => exact fun _ => rfl
  | _ => exact rfl

/-- The numbers of a form may be written for each kind that it becomes. -/
theorem ensures_origins {type : ValueType} (h : head.Shapes names (some type) form shape) :
    shape.Ensures fun kind => form.written ∈ kind.origins type := by
  cases h with
  | @splat lane lane' _ htype hlane =>
    obtain rfl := Option.some.inj htype
    exact .inr ⟨lane', rfl, Constant.written_mem_origins hlane⟩
  | lanes htype hlength hlanes =>
    obtain rfl := Option.some.inj htype
    exact .inl ⟨hlength, Constant.flatMap_written_mem hlanes⟩
  | arg index => exact rfl
  | @loadSlot slot s _ htype =>
    obtain rfl := Option.some.inj htype
    refine ⟨by simp, .inr ⟨rfl, s, ?_⟩⟩
    simp [Kind.isRegularLoadOf]
  | @loadLanes lanes lanes' _ htype hlength hlanes =>
    obtain rfl := Option.some.inj htype
    refine ⟨hlength, .inl ?_⟩
    have hoffsets : lanes.map Prod.snd = lanes'.map SlotLane.offset :=
      List.forall₂_eq_eq_eq ▸ List.forall₂_map_left_iff.2 (List.forall₂_map_right_iff.2
        (hlanes.imp fun _ _ hlane => hlane.2))
    have hmap := congrArg (List.map Quantity.index) hoffsets
    rwa [List.map_map, List.map_map] at hmap
  | branch => exact fun _ _ => nil_mem_one
  | loop | rangeFor | structFor => exact fun _ => nil_mem_one
  | alloca | binary | store | atomic | print | leave => exact nil_mem_one

end Head.Shapes

/-- The numbers of a statement may be written for what it becomes. -/
theorem Head.numbers_written {head : Head} {first second : Draft} {names : Names} {n m n₁ m₁ : Nat}
    {type? : Option ValueType} {shape : Shape} {kind : Kind} {t₁ t₂ : Tree}
    (hshape : head.shape names = .ok (type?, shape))
    (hblocks : Draft.BuildsBlocks first second names n m shape kind t₁ t₂ n₁ m₁)
    (b? : Option BlockId) :
    Numbers head.written ([⟨kind, type?, b?⟩].filter fun stmt : Stmt => stmt.kind.hasValue) := by
  obtain ⟨htype, hshapes⟩ := shapes_of_shape hshape
  have hkind : kind.hasValue = head.form.hasValue := hblocks.of_ensures hshapes.ensures_hasValue
  cases hvalue : head.form.hasValue with
  | false =>
    obtain ⟨rfl, -, heffect⟩ := type?_eq_ok_iff.1 htype
    rw [written, Form.written_eq_nil hvalue, (heffect hvalue).2, List.filter_cons, hkind, hvalue]
    exact .nil
  | true =>
    obtain ⟨type, rfl, -⟩ := exists_type htype hvalue
    obtain ⟨name, hann, hname⟩ := Option.bind_eq_some_iff.1 (type?_eq_ok_iff.1 htype).1.symm
    rw [written, hann, Option.toList_some, List.flatMap_singleton, writtenWidth_eq hname,
      List.filter_cons, hkind, hvalue]
    exact .single head.form.width_notMem_written
      (append_mem_mul (hblocks.of_ensures hshapes.ensures_origins) rfl)

/-- The numbers of a draft may be written for the statements of the tree that it builds. -/
theorem Draft.numbers_written {draft : Draft} (howned : draft.Owned) {names : Names} {b : BlockId}
    {n m : Nat} {v : Tree × Nat × Nat} (hbuild : draft.build names b n m = .ok v) :
    Numbers draft.written v.1.valued := by
  induction draft generalizing names b n m v with
  | nil =>
    obtain rfl := Except.ok.inj hbuild
    exact .nil
  | cons head first second rest ih₁ ih₂ ih₃ =>
    obtain ⟨⟨hfirst, hsecond⟩, ho₁, ho₂, ho₃⟩ := howned
    obtain ⟨type?, shape, kind, t₁, t₂, n₁, m₁, names', v₃, hshape, hblocks, -, hrest, rfl⟩ :=
      build_cons_eq_ok_iff.1 hbuild
    obtain ⟨hf, hs⟩ := (Head.shapes_of_shape hshape).2.hasBlocks
    have hnested : Numbers first.written t₁.valued ∧ Numbers second.written t₂.valued := by
      cases hblocks with
      | plain =>
        obtain rfl := hfirst hf
        obtain rfl := hsecond hs
        exact ⟨.nil, .nil⟩
      | body _ h₁ | ifThen _ h₁ =>
        obtain rfl := hsecond hs
        exact ⟨ih₁ ho₁ h₁, .nil⟩
      | ifThenElse _ h₁ h₂ => exact ⟨ih₁ ho₁ h₁, ih₂ ho₂ h₂⟩
    rw [Tree.valued_cons]
    exact .append (Head.numbers_written hshape hblocks (some b))
      (.append hnested.1 (.append hnested.2 (ih₃ ho₃ hrest)))

/-! ## Parsing -/

theorem IsCut.neat_self {ps : List Piece} (h : IsCut ps) : Neat ps :=
  h.neat (List.forall₂_same.2 fun p _ => .same p)

/-- Parsing is exact about numbers. Whatever the text and the context are, the text is rejected if
one of its numerals is not in its range. If it is parsed to a kernel, then all of its numerals are
in their ranges, and the numbers that they stand for are, statement by statement, what may be
written for the statements of the kernel with a value. -/
theorem parseKernel_numerals (text : List Char) (c : Context) : ∃ result c',
    parseKernel text c = .ok (result, c') ∧
      ((∃ ν ∈ numerals text, ¬ν.Fits) → ∃ e, result = .error e) ∧
      ∀ kernel, result = .ok kernel → (∀ ν ∈ numerals text, ν.Fits) ∧
        ∃ t : Tree, t.Stands c' kernel.body (c'.listed kernel.body) ∧
          List.Forall₂ (fun numbers stmt => numbers ∈ stmt.origins)
            (byStatement ((numerals text).map Numeral.quantity)) t.valued := by
  obtain ⟨result, c', hparse⟩ := exists_parseKernel text c
  have hexact : ∀ kernel, result = .ok kernel → (∀ ν ∈ numerals text, ν.Fits) ∧
      ∃ t : Tree, t.Stands c' kernel.body (c'.listed kernel.body) ∧
        List.Forall₂ (fun numbers stmt => numbers ∈ stmt.origins)
          (byStatement ((numerals text).map Numeral.quantity)) t.valued := by
    rintro kernel rfl
    obtain ⟨name, draft, hread, howned, hlaw⟩ := lawful_of_parseKernel hparse
    obtain ⟨ps, rfl, hcut, hps⟩ := exists_of_readKernel hread
    have hwrites := numerals_of_neat hlaw howned hps hcut.neat_self
    obtain ⟨result', c'', hparse', herror, hok⟩ := parseKernel_of_readKernel hread c
    obtain ⟨rfl, rfl⟩ := Prod.mk.inj (Except.ok.inj (hparse.symm.trans hparse'))
    cases hbuild : draft.build [] ⟨c.blocks.size⟩ c.stmts.size (c.blocks.size + 1) with
    | error e => cases herror e hbuild
    | ok v =>
      obtain ⟨hkernel, hfills⟩ := hok v hbuild
      obtain rfl := Except.ok.inj hkernel
      have hquantity : (numerals (flatten ps)).map Numeral.quantity = draft.written :=
        List.forall₂_eq_eq_eq ▸ List.forall₂_map_left_iff.2 (hwrites.imp fun _ _ h => h.2)
      refine ⟨fun ν hν => ?_, v.1, hfills.stands,
        hquantity ▸ (draft.numbers_written howned hbuild).forall₂⟩
      obtain ⟨q, hq⟩ := exists_forall₂_iff.1 ⟨_, hwrites⟩ ν hν
      exact hq.1
  refine ⟨result, c', hparse, ?_, hexact⟩
  rintro ⟨ν, hν, hfits⟩
  cases result with
  | error e => exact ⟨e, rfl⟩
  | ok kernel => exact absurd ((hexact kernel rfl).1 ν hν) hfits

namespace ExtremeKernel

/-- A kernel with numerals at the ends of their ranges. -/
def text : List Char :=
  "kernel @k \x7b\n%a = arg 4294967295 : i32 // 9\n
    %c = const [-9223372036854775808, 007] : i64x02 \x7d".toList

/-- The number of the argument is one too large. -/
def beyond : List Char :=
  "kernel @k \x7b %a = arg 4294967296 : i32 \x7d".toList

end ExtremeKernel

open ExtremeKernel in
/-- The numbers at the ends are taken as they are, and the one beyond them is not taken. -/
theorem parseKernel_numerals_extreme :
    (∃ kernel c', parseKernel text .empty = .ok (.ok kernel, c') ∧
      ∃ t : Tree, t.Stands c' kernel.body (c'.listed kernel.body) ∧
        List.Forall₂ (fun numbers stmt => numbers ∈ stmt.origins)
          [[.index 4294967295, .width 1],
            [.integer (-9223372036854775808), .integer 7, .width 2]] t.valued) ∧
      ∃ e c', parseKernel beyond .empty = .ok (.error e, c') := by
  constructor
  · have hnumerals : byStatement ((numerals text).map Numeral.quantity) =
        [[.index 4294967295, .width 1],
          [.integer (-9223372036854775808), .integer 7, .width 2]] := by
      decide +kernel
    have hparsed : (parseKernel text .empty).map Prod.fst = .ok (.ok ⟨"k", ⟨0⟩⟩) := by
      decide +kernel
    obtain ⟨result, c', hparse, -, hexact⟩ := parseKernel_numerals text .empty
    rw [hparse] at hparsed
    obtain rfl : result = .ok ⟨"k", ⟨0⟩⟩ := Except.ok.inj hparsed
    obtain ⟨-, t, hstands, hmem⟩ := hexact _ rfl
    exact ⟨_, c', hparse, t, hstands, hnumerals ▸ hmem⟩
  · have hnumerals : numerals beyond = [.index "4294967296".toList, .scalar] := by decide +kernel
    have hfits : ¬(Numeral.index "4294967296".toList).Fits := fun h => absurd h.2.2 (by decide)
    obtain ⟨result, c', hparse, hreject, -⟩ := parseKernel_numerals beyond .empty
    obtain ⟨e, rfl⟩ := hreject ⟨_, hnumerals ▸ List.mem_cons_self, hfits⟩
    exact ⟨e, c', hparse⟩

end KernelIR
