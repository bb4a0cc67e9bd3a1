import KernelIR.Proofs.Text.Reading
import KernelIR.Text.Parse

/-!
# Printed statements are read

The grammar reads the text of a statement that can be written, if its operands have names and
its blocks are read (`Scan.statement_append`). By induction on a tree it reads the text of the
tree (`Scan.statements_append`), and so that of a kernel (`readKernel_append`).
-/

namespace KernelIR

/-! ## The text behind a keyword -/

/-- The text of a statement behind its keyword. -/
def Stmt.detail (names : List StmtId) (stmt : Stmt) : List Char :=
  let name := valueName names
  match stmt.kind with
  | .alloca => []
  | .const lanes => ' ' :: lanesText lanes
  | .arg index => ' ' :: natText index
  | .binary _ lhs rhs => ' ' :: commaSeparated [name lhs, name rhs]
  | .load lanes => ' ' :: sourceText names lanes (stmt.type?.elim 1 ValueType.width)
  | .store slot value => ' ' :: commaSeparated [name slot, name value]
  | .atomic _ slot value => ' ' :: commaSeparated [name slot, name value]
  | .print value => ' ' :: name value
  | .branch cond trueMask falseMask _ _ =>
    ' ' ::
      (name cond ++ (maskText names "true_mask" trueMask ++ maskText names "false_mask" falseMask))
  | .loop mask _ => maskText names "mask" mask
  | .leave cond => ' ' :: name cond
  | .rangeFor counter lower upper _ =>
    ' ' :: (name counter ++ ' ' :: 'i' :: 'n' :: ' ' :: (name lower ++ '.' :: '.' :: name upper))
  | .structFor counters snode _ =>
    ' ' :: (commaSeparated (counters.map name) ++ ' ' :: 'i' :: 'n' :: ' ' :: '@' :: snode.toList)

theorem Stmt.text_eq (names : List StmtId) (stmt : Stmt) :
    stmt.text names = stmt.kind.keyword ++ stmt.detail names := by
  unfold text detail Kind.keyword
  cases stmt.kind with
  | load lanes => cases stmt.type? <;> simp [Kind.name]
  | _ => simp [Kind.name]

theorem Kind.blocks_eq_none {k : Kind} (h : k.isContainer = false) :
    k.firstBlock? = none ∧ k.secondBlock? = none := by
  cases k <;> simp_all [isContainer, firstBlock?, secondBlock?]

theorem Kind.hasValue_of_isContainer {k : Kind} (h : k.isContainer = true) :
    k.hasValue = false := by
  cases k <;> simp_all [isContainer, hasValue]

/-- The words in front of statements. They cannot be taken for `else`. -/
theorem Kind.isWord_keyword (k : Kind) :
    Scan.IsWord k.keyword ∧ k.keyword.head? ≠ some 'e' := by
  have hbinary : ∀ op : BinaryOp, Scan.IsWord op.name.toList ∧ op.name.toList.head? ≠ some 'e' := by
    intro op
    cases op <;> decide
  have hatomic : ∀ op : AtomicOp, Scan.IsWord ("atomic_".toList ++ op.name.toList) ∧
      ("atomic_".toList ++ op.name.toList).head? ≠ some 'e' := by
    intro op
    cases op <;> decide
  have hfixed : ∀ w ∈ ["alloca", "const", "arg", "local_load", "local_store", "print", "if",
    "while",
      "while_control", "range_for", "struct_for"],
      Scan.IsWord w.toList ∧ w.toList.head? ≠ some 'e' := by decide
  unfold keyword
  cases k with
  | binary op lhs rhs => exact hbinary op
  | atomic op slot value => exact hatomic op
  | _ => exact hfixed _ (by simp [name])

/-- The name of a type. -/
theorem ValueType.isWord_text (type : ValueType) : Scan.IsWord type.text := by
  have helement : ∀ e : ScalarType, Scan.IsWord e.name.toList := by
    intro e
    cases e <;> decide
  obtain ⟨⟨hne, hall⟩, hhead⟩ := helement type.element
  unfold text
  refine ⟨⟨by simp [hne], fun c hc => ?_⟩, fun c hc => hhead c ?_⟩
  · rcases List.mem_append.1 hc with hc | hc
    · exact hall c hc
    · split at hc
      · cases hc
      · rcases List.mem_cons.1 hc with rfl | hc
        · rfl
        · exact (Scan.isName_natText type.width).2 c hc
  · rwa [List.head?_append_of_ne_nil _ hne] at hc

namespace Scan

variable {names : List StmtId} {after : List Char}

theorem dropLayout_blank {t : List Char} (h : Solid t) : dropLayout false (' ' :: t) = t :=
  dropLayout_of_solid h

theorem solid_lanesText {lanes : List Constant} (hne : lanes ≠ []) (rest : List Char) :
    Solid (lanesText lanes ++ rest) := by
  cases lanes with
  | nil => exact absurd rfl hne
  | cons lane lanes =>
    unfold lanesText
    dsimp only
    split
    · exact lane.solid_text rest
    · exact solid_cons rfl (by decide) _

theorem solid_sourceText {lanes : List SlotLane} (hne : lanes ≠ []) (width : Nat)
    (rest : List Char) : Solid (sourceText names lanes width ++ rest) := by
  cases lanes with
  | nil => exact absurd rfl hne
  | cons lane lanes =>
    unfold sourceText
    dsimp only
    split
    · exact solid_valueName _ rest
    · exact solid_cons rfl (by decide) _

/-! ## Behind the keyword -/

theorem form_binary (block : Scan Draft) (op : BinaryOp) :
    form block op.name.toList = do
      let (a, b) ← pair
      return (.binary a b, .nil, .nil) := by
  cases op <;> exact rfl

theorem form_atomic (block : Scan Draft) (op : AtomicOp) :
    form block ("atomic_".toList ++ op.name.toList) = do
      let (a, b) ← pair
      return (.atomic a b, .nil, .nil) := by
  cases op <;> exact rfl

/-- What is read behind the keyword of a statement without blocks. -/
theorem form_append {stmt : Stmt} {block : Scan Draft} (hw : stmt.Written)
    (hops : ∀ v ∈ stmt.kind.operands, v ∈ names) (hplain : stmt.kind.isContainer = false)
    (hafter : Ends isLiteralChar after) :
    ∃ after', form block stmt.kind.keyword (dropLayout false (stmt.detail names ++ after)) =
      .ok ((stmt.form names, .nil, .nil), after') ∧
        dropLayout false after' = dropLayout false after := by
  obtain ⟨kind, type?, block?⟩ := stmt
  have hkind : kind.Written type? := hw.kind
  -- two values behind a keyword
  have hpair : ∀ {a b : StmtId}, a ∈ names → b ∈ names →
      pair (dropLayout false
        (' ' :: (commaSeparated [valueName names a, valueName names b] ++ after))) =
        .ok ((nameOf names a, nameOf names b), after) := by
    intro a b ha hb
    have hsolid : Solid (commaSeparated [valueName names a, valueName names b] ++ after) :=
      solid_cons rfl (by decide) _
    exact (congrArg pair (dropLayout_of_solid hsolid)).trans (pair_append ha hb hafter.isNameChar)
  have hvalue : ∀ {a : StmtId}, a ∈ names →
      valueRef (dropLayout false (' ' :: (valueName names a ++ after))) =
        .ok (nameOf names a, after) := fun {a} ha =>
    (congrArg valueRef (dropLayout_of_solid (solid_valueName a after))).trans
      (valueRef_name ha hafter.isNameChar)
  cases kind with
  | alloca =>
    refine ⟨dropLayout false after, ?_, dropLayout_dropLayout false after⟩
    change form block "alloca".toList _ = _
    exact rfl
  | const lanes =>
    obtain ⟨type, htype, hlen, hsuits⟩ := hkind
    obtain ⟨type', htype', hwidth, -⟩ := hw.typed rfl
    obtain rfl : type = type' := Option.some.inj (htype.symm.trans htype')
    have hne : lanes ≠ [] := by
      rintro rfl
      simp at hlen
      omega
    have hread := constForm_append hne (fun lane hl => (hsuits lane hl).fits) hafter
    have htext := dropLayout_of_solid (solid_lanesText hne after)
    refine ⟨after, ?_, rfl⟩
    change form block "const".toList _ = _
    exact bind_of_ok ((congrArg Scan.constForm htext).trans hread)
  | arg index =>
    have hread := index_append hkind hafter.isNameChar.isDigit
    have htext := dropLayout_of_solid ((isName_natText index).solid after)
    refine ⟨after, ?_, rfl⟩
    change form block "arg".toList _ = _
    exact bind_of_ok ((congrArg Scan.index htext).trans hread)
  | binary op lhs rhs =>
    refine ⟨after, ?_, rfl⟩
    have hread := hpair (hops lhs (by simp [Kind.operands])) (hops rhs (by simp [Kind.operands]))
    exact (congrFun (form_binary block op) _).trans (bind_of_ok hread)
  | load lanes =>
    obtain ⟨type, htype, hlen, hoffsets⟩ := hkind
    obtain ⟨type', htype', hwidth, -⟩ := hw.typed rfl
    obtain rfl : type = type' := Option.some.inj (htype.symm.trans htype')
    have hne : lanes ≠ [] := by
      rintro rfl
      simp at hlen
      omega
    have hread := loadForm_append (type?.elim 1 ValueType.width) hne
      (fun lane hl => hops lane.slot (List.mem_map_of_mem hl)) hoffsets hafter.isNameChar
    have htext := dropLayout_of_solid
      (@solid_sourceText names _ hne (type?.elim 1 ValueType.width) after)
    refine ⟨after, ?_, rfl⟩
    change form block "local_load".toList _ = _
    exact bind_of_ok ((congrArg Scan.loadForm htext).trans hread)
  | store slot value =>
    have hread := hpair (hops slot (by simp [Kind.operands])) (hops value (by simp [Kind.operands]))
    refine ⟨after, ?_, rfl⟩
    change form block "local_store".toList _ = _
    exact bind_of_ok hread
  | atomic op slot value =>
    refine ⟨after, ?_, rfl⟩
    have hread := hpair (hops slot (by simp [Kind.operands])) (hops value (by simp [Kind.operands]))
    exact (congrFun (form_atomic block op) _).trans (bind_of_ok hread)
  | print value =>
    refine ⟨after, ?_, rfl⟩
    change form block "print".toList _ = _
    exact bind_of_ok (hvalue (hops value (by simp [Kind.operands])))
  | leave cond =>
    refine ⟨after, ?_, rfl⟩
    change form block "while_control".toList _ = _
    exact bind_of_ok (hvalue (hops cond (by simp [Kind.operands])))
  | branch | loop | rangeFor | structFor => cases hplain

/-- A block is read from the text of its statements, up to its closing brace. -/
def ReadsBlock (block : Scan Draft) (inner : List Char → List Char) (draft : Draft) : Prop :=
  ∀ indent tail, block ('\x7b' :: '\n' :: inner (List.replicate indent ' ' ++ '\x7d' :: tail)) =
    .ok (draft, tail)

theorem braced_eq (indent : Nat) (inner : List Char → List Char) (tail : List Char) :
    braced indent inner tail =
      ' ' :: '\x7b' :: '\n' :: inner (List.replicate indent ' ' ++ '\x7d' :: tail) :=
  rfl

theorem solid_brace (text : List Char) : Solid ('\x7b' :: text) :=
  solid_cons rfl (by decide) text

section Nested

variable {block : Scan Draft} {first second : List Char → List Char} {d₁ d₂ : Draft}

theorem ReadsBlock.bind_layout {α : Type} {f : Draft → Scan α} (h : ReadsBlock block first d₁)
    (indent : Nat) (tail : List Char) :
    (layout >>= fun _ => block >>= f) (braced indent first tail) = f d₁ tail := by
  rw [braced_eq, bind_layout_blank (solid_brace _)]
  exact bind_of_ok (h indent tail)

theorem ReadsBlock.bind_brace {α : Type} {f : Draft → Scan α} (h : ReadsBlock block first d₁)
    (indent : Nat) (tail : List Char) :
    (layout >>= fun _ => block >>= f)
        ('\x7b' :: '\n' :: first (List.replicate indent ' ' ++ '\x7d' :: tail)) = f d₁ tail := by
  rw [Scan.bind_layout (solid_brace _)]
  exact bind_of_ok (h indent tail)

/-- A block behind `else`. -/
theorem ReadsBlock.otherwise (h : ReadsBlock block second d₂) (indent : Nat) (tail : List Char) :
    optional (otherwise block) (" else".toList ++ braced indent second tail) =
      .ok (some d₂, tail) := by
  refine optional_of_ok ?_
  have htext : " else".toList ++ braced indent second tail =
      ' ' :: ("else".toList ++ braced indent second tail) := rfl
  have hsolid : Solid ("else".toList ++ braced indent second tail) := solid_cons rfl (by decide) _
  rw [htext, Scan.otherwise, bind_layout_blank hsolid, bind_word, braced_eq,
    bind_layout_blank (solid_brace _)]
  exact h indent tail

theorem otherwise_error (block : Scan Draft) (hafter : Ends (· == 'e') (dropLayout false after)) :
    optional (otherwise block) after = .ok (none, after) := by
  refine optional_of_error (s := ⟨dropLayout false after, .unexpected⟩) ?_
  rw [otherwise, bind_of_ok (a := ()) (r := dropLayout false after) rfl]
  exact bind_of_error (word_error rfl hafter)

/-- In front of a block, a name ends whether there are masks or not. -/
theorem ends_maskText (w : String) (mask? : Option StmtId) {test : Char → Bool}
    (htest : test ' ' = false) (rest : List Char) :
    Ends test (maskText names w mask? ++ ' ' :: rest) := by
  cases mask? with
  | none => exact ends_cons htest _
  | some m => exact ends_cons htest _

/-- What is read behind the keyword of a statement with blocks. -/
theorem form_append_nested {stmt : Stmt} (hw : stmt.Written)
    (hops : ∀ v ∈ stmt.kind.operands, v ∈ names) (hcontainer : stmt.kind.isContainer = true)
    (h₁ : ReadsBlock block first d₁)
    (h₂ : stmt.kind.secondBlock?.isSome = true → ReadsBlock block second d₂)
    (hnone : stmt.kind.secondBlock? = none → d₂ = .nil)
    (hafter : Ends (· == 'e') (dropLayout false after)) (indent : Nat) :
    form block stmt.kind.keyword
        (dropLayout false (stmt.detail names ++ blocksText stmt.kind indent first second after)) =
      .ok ((stmt.form names, d₁, d₂), after) := by
  obtain ⟨kind, type?, block?⟩ := stmt
  have hkind : kind.Written type? := hw.kind
  cases kind with
  | branch cond trueMask falseMask trueBlock falseBlock =>
    let tail :=
      if falseBlock.isSome then " else".toList ++ braced indent second after else after
    have hcond : valueRef (valueName names cond ++ (maskText names "true_mask" trueMask ++
        (maskText names "false_mask" falseMask ++ braced indent first tail))) =
          .ok (nameOf names cond,
          maskText names "true_mask" trueMask ++
            (maskText names "false_mask" falseMask ++ braced indent first tail)) := by
      refine valueRef_name (hops cond (by simp [Kind.operands])) ?_
      cases trueMask with
      | none => exact ends_maskText _ falseMask rfl _
      | some m => exact ends_cons rfl _
    have htrue := optional_mask (w := "true_mask") rfl ⟨rfl, by decide⟩ trueMask
      (fun m hm => hops m (by simp [Kind.operands, Option.mem_def.1 hm]))
      (r := maskText names "false_mask" falseMask ++ braced indent first tail) (by
        cases falseMask with
        | none => exact ends_cons rfl _
        | some m => exact ends_cons rfl _)
    have hfalse := optional_mask (w := "false_mask") rfl ⟨rfl, by decide⟩ falseMask
      (fun m hm => hops m (by simp [Kind.operands, Option.mem_def.1 hm]))
      (r := braced indent first tail)
      (ends_cons rfl _)
    have htext : dropLayout false
      (' ' :: (valueName names cond ++ (maskText names "true_mask" trueMask ++
        maskText names "false_mask" falseMask)) ++ braced indent first tail) =
        valueName names cond ++ (maskText names "true_mask" trueMask ++
          (maskText names "false_mask" falseMask ++ braced indent first tail)) := by
      rw [List.cons_append, List.append_assoc, List.append_assoc]
      exact dropLayout_of_solid (solid_valueName cond _)
    change form block "if".toList (dropLayout false (' ' :: (valueName names cond ++
      (maskText names "true_mask" trueMask ++ maskText names "false_mask" falseMask)) ++
        braced indent first tail)) = _
    rw [htext]
    refine (bind_of_ok hcond).trans ((bind_of_ok htrue).trans ((bind_of_ok hfalse).trans
      ((h₁.bind_layout indent tail).trans ?_)))
    cases falseBlock with
    | none => exact (bind_of_ok (otherwise_error block hafter)).trans (by rw [hnone rfl]; rfl)
    | some d => exact (bind_of_ok ((h₂ rfl).otherwise indent after)).trans rfl
  | loop mask? body =>
    obtain rfl : d₂ = .nil := hnone rfl
    change form block "while".toList
      (dropLayout false (maskText names "mask" mask? ++ braced indent first after)) = _
    cases mask? with
    | none =>
      have htext : dropLayout false (maskText names "mask" none ++ braced indent first after) =
          '\x7b' :: '\n' :: first (List.replicate indent ' ' ++ '\x7d' :: after) := rfl
      obtain ⟨stop, hstop⟩ := mask_error (w := "mask") rfl
        (r := '\x7b' :: '\n' :: first (List.replicate indent ' ' ++ '\x7d' :: after))
        (ends_cons rfl _)
      rw [htext]
      exact (bind_of_ok (optional_of_error hstop)).trans ((h₁.bind_brace indent after).trans rfl)
    | some m =>
      have hmask := mask_word (w := "mask") rfl ⟨rfl, by decide⟩ (hops m (by simp [Kind.operands]))
        (r := braced indent first after)
      have htext : maskText names "mask" (some m) ++ braced indent first after =
          ' ' ::
            ("mask".toList ++ '(' :: (valueName names m ++ ')' :: braced indent first after)) := by
        simp [maskText]
      have hsolid : Solid ("mask".toList ++ '(' :: (valueName names m ++ ')' ::
          braced indent first after)) := solid_cons rfl (by decide) _
      rw [htext, dropLayout_blank hsolid]
      exact (bind_of_ok (optional_of_ok hmask)).trans ((h₁.bind_layout indent after).trans rfl)
  | rangeFor counter lower upper body =>
    obtain rfl : d₂ = .nil := hnone rfl
    have hcounter := valueRef_name (hops counter (by simp [Kind.operands]))
      (r := ' ' :: ("in".toList ++ ' ' :: (valueName names lower ++ ("..".toList ++
        (valueName names upper ++ braced indent first after))))) (ends_cons rfl _)
    have hlower := valueRef_name (hops lower (by simp [Kind.operands]))
      (r := "..".toList ++ (valueName names upper ++ braced indent first after)) (ends_cons rfl _)
    have hupper := valueRef_name (hops upper (by simp [Kind.operands]))
      (r := braced indent first after) (ends_cons rfl _)
    have htext : dropLayout false (' ' :: (valueName names counter ++ ' ' :: 'i' :: 'n' :: ' ' ::
        (valueName names lower ++ '.' :: '.' :: valueName names upper)) ++
          braced indent first after) =
        valueName names counter ++ ' ' ::
          ("in".toList ++ ' ' :: (valueName names lower ++ ("..".toList ++
          (valueName names upper ++ braced indent first after)))) := by
      have h := dropLayout_blank (@solid_valueName names counter (' ' :: ("in".toList ++
        ' ' :: (valueName names lower ++ ("..".toList ++ (valueName names upper ++
          braced indent first after))))))
      simpa using h
    change form block "range_for".toList (dropLayout false (' ' :: (valueName names counter ++
      ' ' :: 'i' :: 'n' :: ' ' :: (valueName names lower ++ '.' :: '.' :: valueName names upper)) ++
        braced indent first after)) = _
    rw [htext]
    refine (bind_of_ok hcounter).trans ((bind_layout_blank (solid_cons rfl (by decide) _)).trans
      ((bind_word "in").trans ((bind_layout_blank (solid_valueName lower _)).trans
        ((bind_of_ok hlower).trans ((bind_word "..").trans ((bind_of_ok hupper).trans
          ((h₁.bind_layout indent after).trans rfl)))))))
  | structFor counters snode body =>
    obtain rfl : d₂ = .nil := hnone rfl
    obtain ⟨hne, hsnode⟩ := hkind
    let rest := "in".toList ++ ' ' :: ('@' :: snode.toList ++ braced indent first after)
    have hcounters := counters_append hne hops (r := rest) (solid_cons rfl (by decide) _)
      (ends_cons rfl _)
    have hsymbol := symbol_append hsnode (r := braced indent first after) (ends_cons rfl _)
    have htext : dropLayout false (' ' :: (commaSeparated (counters.map (valueName names)) ++
        ' ' :: 'i' :: 'n' :: ' ' :: '@' :: snode.toList) ++ braced indent first after) =
        commaSeparated (counters.map (valueName names)) ++ ' ' :: rest := by
      have hsolid : Solid (commaSeparated (counters.map (valueName names)) ++ ' ' :: rest) := by
        cases counters with
        | nil => exact absurd rfl hne
        | cons v counters =>
          rw [commaSeparated_append]
          exact solid_valueName v _
      have h := dropLayout_blank hsolid
      simpa [rest] using h
    change form block "struct_for".toList (dropLayout false (' ' ::
      (commaSeparated (counters.map (valueName names)) ++ ' ' :: 'i' :: 'n' :: ' ' :: '@' ::
        snode.toList) ++
        braced indent first after)) = _
    rw [htext]
    refine (bind_of_ok hcounters).trans ((bind_word "in").trans
      ((bind_layout_blank (solid_cons rfl (by decide) _)).trans ((bind_of_ok hsymbol).trans
        ((h₁.bind_layout indent after).trans rfl))))
  | _ => cases hcontainer

/-! ## Whole statements -/

/-- What follows a line neither adds a type nor a block to it. -/
def Continues (more : List Char) : Prop :=
  Ends (fun c => c == ':' || c == 'e') (dropLayout false more)

theorem result_append {stmt : Stmt} {id : StmtId} {rest : List Char}
    (hid : stmt.kind.hasValue = true → id ∈ names) (hsolid : Solid rest)
    (hword : Ends (· == '%') rest) :
    optional result (resultText names id stmt ++ rest) =
      .ok (if stmt.kind.hasValue then some (nameOf names id) else none, rest) := by
  unfold resultText
  cases hv : stmt.kind.hasValue with
  | false => exact optional_of_error (bind_of_error (bind_of_error (word_error rfl hword)))
  | true =>
    have htext : valueName names id ++ " = ".toList ++ rest =
        valueName names id ++ ' ' :: '=' :: ' ' :: rest := by simp
    rw [if_pos rfl, if_pos rfl, htext]
    refine optional_of_ok ?_
    rw [result, bind_of_ok (valueRef_name (hid hv) (ends_cons rfl _)),
      bind_layout_blank (solid_cons rfl (by decide) _), bind_sign rfl, bind_layout_blank hsolid]
    rfl

theorem annotation_error {text more : List Char}
    (htext : dropLayout false text = dropLayout false more)
    (hmore : Continues more) : optional annotation text = .ok (none, text) := by
  refine optional_of_error (s := ⟨dropLayout false text, .unexpected⟩) ?_
  rw [ annotation, bind_of_ok (a := ()) (r := dropLayout false text) rfl, htext]
  exact bind_of_error (word_error (d := ':') rfl (hmore.mono fun c hc => by simp [hc]))

theorem annotation_append (type : ValueType) {text more : List Char}
    (htext : dropLayout false text = dropLayout false (" : ".toList ++ type.text ++ '\n' :: more)) :
    optional annotation text = .ok (some type.text, '\n' :: more) := by
  have hword := type.isWord_text
  have heq : dropLayout false (" : ".toList ++ type.text ++ '\n' :: more) =
      ':' :: ' ' :: (type.text ++ '\n' :: more) := by
    have h := dropLayout_blank (t := ':' :: ' ' :: (type.text ++ '\n' :: more))
      (solid_cons rfl (by decide) _)
    simpa using h
  refine optional_of_ok ?_
  rw [ annotation, bind_of_ok (a := ()) (r := dropLayout false text) rfl, htext, heq, bind_sign rfl,
    bind_layout_blank (hword.1.solid _)]
  exact ident_append hword (ends_cons rfl _)

/-- The text behind a keyword goes on with a blank or a new line. -/
theorem ends_detail {stmt : Stmt} (indent : Nat) (more : List Char) :
    Ends isNameChar (stmt.detail names ++
      blocksText stmt.kind indent first second (annotationText stmt ++ '\n' :: more)) := by
  obtain ⟨kind, type?, block?⟩ := stmt
  cases kind with
  | alloca =>
    cases type? with
    | none => exact ends_cons rfl _
    | some type => exact ends_cons rfl _
  | loop mask? body =>
    cases mask? with
    | none => exact ends_cons rfl _
    | some m => exact ends_cons rfl _
  | _ => exact ends_cons rfl _

/-- What is read for a statement and the blocks nested in it. -/
theorem statement_append {stmt : Stmt} {id : StmtId} {more : List Char} (hw : stmt.Written)
    (hops : ∀ v ∈ stmt.kind.operands, v ∈ names) (hid : stmt.kind.hasValue = true → id ∈ names)
    (h₁ : stmt.kind.isContainer = true → ReadsBlock block first d₁)
    (h₂ : stmt.kind.secondBlock?.isSome = true → ReadsBlock block second d₂)
    (hnone₁ : stmt.kind.isContainer = false → d₁ = .nil)
    (hnone₂ : stmt.kind.secondBlock? = none → d₂ = .nil) (hmore : Continues more) (indent : Nat) :
    ∃ rest, statement block (resultText names id stmt ++ stmt.text names ++
        blocksText stmt.kind indent first second (annotationText stmt ++ '\n' :: more)) =
      .ok ((stmt.head names id, d₁, d₂), rest) ∧ dropLayout false rest = dropLayout false more := by
  have hkeyword := stmt.kind.isWord_keyword
  -- what is read behind the keyword
  obtain ⟨after, hform, hafter⟩ : ∃ after, form block stmt.kind.keyword (dropLayout false
      (stmt.detail names ++ blocksText stmt.kind indent first second
        (annotationText stmt ++ '\n' :: more))) = .ok ((stmt.form names, d₁, d₂), after) ∧
      dropLayout false after = dropLayout false (annotationText stmt ++ '\n' :: more) := by
    cases hc : stmt.kind.isContainer with
    | false =>
      have hsecond := (Kind.blocks_eq_none hc).2
      have hblocks : blocksText stmt.kind indent first second
        (annotationText stmt ++ '\n' :: more) =
          annotationText stmt ++ '\n' :: more := by
        simp [blocksText, hc, hsecond]
      obtain rfl := hnone₁ hc
      obtain rfl := hnone₂ hsecond
      rw [hblocks]
      refine form_append hw hops hc ?_
      unfold annotationText
      split
      · exact ends_cons rfl _
      · exact ends_cons rfl _
    | true =>
      have hann : annotationText stmt = [] := by
        simp [annotationText, Kind.hasValue_of_isContainer hc]
      rw [hann]
      have hend : Ends (· == 'e') (dropLayout false ('\n' :: more)) :=
        hmore.mono fun c hc => by simp [hc]
      exact ⟨_, form_append_nested hw hops hc (h₁ hc) h₂ hnone₂ hend indent, rfl⟩
  -- what is read in front of it
  have htext : resultText names id stmt ++ stmt.text names ++
      blocksText stmt.kind indent first second (annotationText stmt ++ '\n' :: more) =
      resultText names id stmt ++ (stmt.kind.keyword ++ (stmt.detail names ++
        blocksText stmt.kind indent first second (annotationText stmt ++ '\n' :: more))) := by
    rw [stmt.text_eq names]
    simp
  have hpercent : Ends (· == '%') (stmt.kind.keyword ++ (stmt.detail names ++
      blocksText stmt.kind indent first second (annotationText stmt ++ '\n' :: more))) := by
    intro c hc
    rw [List.head?_append_of_ne_nil _ hkeyword.1.1.1] at hc
    have halpha := hkeyword.1.2 c hc
    refine Bool.eq_false_iff.2 fun h => ?_
    rw [eq_of_beq h] at halpha
    cases halpha
  rw [htext, statement, bind_of_ok (result_append hid (hkeyword.1.1.solid _) hpercent),
    bind_of_ok (ident_append hkeyword.1 (ends_detail indent more)),
    bind_of_ok (a := ()) (r := dropLayout false (stmt.detail names ++
      blocksText stmt.kind indent first second (annotationText stmt ++ '\n' :: more))) rfl]
  cases hv : stmt.kind.hasValue with
  | false =>
    have hann : annotationText stmt = [] := by
      simp [annotationText, hv]
    rw [hann] at hafter
    have hannotation := annotation_error hafter hmore
    refine ⟨after, (bind_of_ok hform).trans ((bind_of_ok hannotation).trans ?_), hafter⟩
    simp [Stmt.head, hv]
    rfl
  | true =>
    obtain ⟨type, htype, -⟩ := hw.typed hv
    have hann : annotationText stmt = " : ".toList ++ type.text := by
      simp [annotationText, hv, htype]
    rw [hann] at hafter
    have hannotation := annotation_append type hafter
    refine ⟨'\n' :: more, (bind_of_ok hform).trans ((bind_of_ok hannotation).trans ?_), rfl⟩
    simp [Stmt.head, hv, htype]
    rfl

end Nested

end Scan

/-! ## Trees -/

/-- A text can express the statement of the site, and its operands are visible. -/
structure Site.Written (p : Site) : Prop where
  stmt : p.stmt.Written
  visible : ∀ v ∈ p.stmt.kind.operands, v ∈ p.scope

theorem length_blocksText (kind : Kind) {first second : List Char → List Char} {n₁ n₂ : Nat}
    (h₁ : ∀ tail, n₁ + tail.length ≤ (first tail).length)
    (h₂ : ∀ tail, n₂ + tail.length ≤ (second tail).length)
    (hn₁ : kind.firstBlock? = none → n₁ = 0) (hn₂ : kind.secondBlock? = none → n₂ = 0)
    (indent : Nat) (tail : List Char) :
    n₁ + n₂ + tail.length ≤ (blocksText kind indent first second tail).length := by
  have hbraced : ∀ {n : Nat} {inner : List Char → List Char} (tail : List Char),
      (∀ tail, n + tail.length ≤ (inner tail).length) →
      n + tail.length ≤ (braced indent inner tail).length := by
    intro n inner tail h
    have := h (List.replicate indent ' ' ++ '\x7d' :: tail)
    simp only [Scan.braced_eq, List.length_cons, List.length_append] at this ⊢
    omega
  have hother : n₂ + tail.length ≤
      (if kind.secondBlock?.isSome then " else".toList ++ braced indent second tail
        else tail).length := by
    split
    · have := hbraced tail h₂
      rw [List.length_append]
      omega
    · next hno =>
      rw [hn₂ (Option.not_isSome_iff_eq_none.1 hno)]
      omega
  unfold blocksText
  dsimp only
  split
  · exact Nat.le_trans (by omega) (hbraced _ h₁)
  · next hno =>
    rw [hn₁ (Kind.blocks_eq_none (Bool.eq_false_iff.2 hno)).1, Nat.zero_add]
    exact hother

/-- A statement takes at least one character. -/
theorem Tree.size_le_length_render {t : Tree} (ht : t.Shaped) (indent : Nat) (names : List StmtId)
    (tail : List Char) : t.size + tail.length ≤ (t.render indent names tail).length := by
  induction t generalizing indent names tail with
  | nil => simp [size, render]
  | cons id stmt first second rest ih₁ ih₂ ih₃ =>
    obtain ⟨hf, hs, h₁, h₂, h₃⟩ := ht
    unfold render size
    dsimp only
    generalize (if stmt.kind.hasValue then names ++ [id] else names) = names'
    have hblocks := length_blocksText stmt.kind (ih₁ h₁ (indent + 2) names')
      (ih₂ h₂ (indent + 2) (names' ++ first.values)) (fun h => by rw [hf h]; rfl)
      (fun h => by rw [hs h]; rfl) indent
      (annotationText stmt ++ '\n' :: rest.render indent
        (names' ++ first.values ++ second.values) tail)
    have hrest := ih₃ h₃ indent (names' ++ first.values ++ second.values) tail
    rw [List.length_append, List.length_cons] at hblocks
    refine Nat.le_trans ?_ (Nat.le_trans hblocks ?_)
    · omega
    · rw [List.length_append]
      exact Nat.le_add_left _ _

namespace Scan

variable {names : List StmtId}

/-- What the text of a statement begins with. -/
theorem exists_line_cons (names : List StmtId) (id : StmtId) (stmt : Stmt) (rest : List Char) :
    ∃ c cs, resultText names id stmt ++ stmt.text names ++ rest = c :: cs ∧
      (isBlank c = false ∧ c ≠ '/') ∧ c ≠ '\x7d' ∧ c ≠ ':' ∧ c ≠ 'e' := by
  unfold resultText
  cases stmt.kind.hasValue with
  | true => exact ⟨'%', _, rfl, by decide⟩
  | false =>
    obtain ⟨⟨⟨hne, hall⟩, -⟩, he⟩ := stmt.kind.isWord_keyword
    obtain ⟨c, cs, hcs⟩ := List.exists_cons_of_ne_nil hne
    rw [hcs] at hall he
    have hc := hall c List.mem_cons_self
    have hno : ∀ d, isNameChar d = false → c ≠ d := by
      rintro d hd rfl
      rw [hc] at hd
      cases hd
    refine ⟨c, cs ++ (stmt.detail names ++ rest), ?_, isBlank_of_isNameChar hc, hno _ rfl,
      hno _ rfl,
      fun h => he (congrArg some h)⟩
    rw [stmt.text_eq names, hcs]
    simp

theorem continues_render (t : Tree) (indent k : Nat) (names : List StmtId) (tail : List Char) :
    Continues (t.render indent names (List.replicate k ' ' ++ '\x7d' :: tail)) := by
  cases t with
  | nil =>
    unfold Continues
    rw [Tree.render, dropLayout_indent]
    exact ends_cons rfl _
  | cons id stmt first second rest =>
    unfold Continues Tree.render
    dsimp only
    generalize (if stmt.kind.hasValue then names ++ [id] else names) = names'
    obtain ⟨c, cs, hcs, hsolid, -, hcolon, he⟩ := exists_line_cons names' id stmt
      (blocksText stmt.kind indent (first.render (indent + 2) names')
        (second.render (indent + 2) (names' ++ first.values)) (annotationText stmt ++ '\n' ::
          rest.render indent (names' ++ first.values ++ second.values)
            (List.replicate k ' ' ++ '\x7d' :: tail)))
    rw [List.append_assoc (List.replicate indent ' '),
      List.append_assoc (List.replicate indent ' '),
      dropLayout_indent, hcs, dropLayout_of_solid (solid_cons hsolid.1 hsolid.2 cs)]
    exact ends_cons (by simp [hcolon, he]) cs

theorem statements_end {read : Scan (Head × Draft × Draft)} {bound : Nat} {text : List Char}
    (htext : dropLayout false text = []) : statements read (bound + 1) text = .ok (.nil, []) := by
  rw [statements, bind_of_ok (a := ()) (r := []) (by rw [layout, htext]),
    bind_of_ok (a := []) (r := []) rfl]
  rfl

theorem statements_nil {read : Scan (Head × Draft × Draft)} {bound : Nat} {text tail : List Char}
    (htext : dropLayout false text = '\x7d' :: tail) :
    statements read (bound + 1) text = .ok (.nil, '\x7d' :: tail) := by
  rw [statements, bind_of_ok (a := ()) (r := '\x7d' :: tail) (by rw [layout, htext]),
    bind_of_ok (a := '\x7d' :: tail) (r := '\x7d' :: tail) rfl]
  rfl

theorem statements_cons {read : Scan (Head × Draft × Draft)} {bound : Nat} {text : List Char}
    {c : Char} {cs : List Char} (htext : dropLayout false text = c :: cs) (hc : c ≠ '\x7d') :
    statements read (bound + 1) text = (do
      let (head, first, second) ← read
      let rest ← statements read bound
      return .cons head first second rest : Scan Draft) (c :: cs) := by
  rw [statements, bind_of_ok (a := ()) (r := c :: cs) (by rw [layout, htext]),
    bind_of_ok (a := c :: cs) (r := c :: cs) rfl]
  have hne : c :: cs ≠ [] := List.cons_ne_nil c cs
  have hbrace : ∀ tail, c :: cs ≠ '\x7d' :: tail := fun tail h => hc (List.cons.inj h).1
  generalize c :: cs = line at hne hbrace
  split
  · exact absurd rfl hne
  · exact absurd rfl (hbrace _)
  · rfl

/-- A tree whose statements are read is read in braces. -/
theorem readsBlock_of_statements {t : Tree} (ht : t.Shaped) {depth indent : Nat}
    (h : ∀ {bound k : Nat} {text tail : List Char}, t.size < bound →
      dropLayout false text =
        dropLayout false (t.render indent names (List.replicate k ' ' ++ '\x7d' :: tail)) →
      statements (statement (block depth)) bound text = .ok (t.draft names, '\x7d' :: tail)) :
    ReadsBlock (block (depth + 1)) (t.render indent names) (t.draft names) := by
  intro k tail
  let text := '\n' :: t.render indent names (List.replicate k ' ' ++ '\x7d' :: tail)
  have hlength :=
    Tree.size_le_length_render ht indent names (List.replicate k ' ' ++ '\x7d' :: tail)
  have hbound : t.size < text.length + 1 := by
    simp only [text, List.length_cons]
    omega
  rw [block, bind_sign rfl, bind_of_ok (a := text) (r := text) rfl,
    bind_of_ok (@h _ _ text tail hbound rfl),
    bind_sign rfl]
  rfl

/-- The text of a tree is read, up to the closing brace behind it. -/
theorem statements_append {t : Tree} (ht : t.Shaped) {scope : List StmtId} (hscope : scope ⊆ names)
    (hw : ∀ p ∈ t.sites scope, p.Written) {depth bound : Nat} (hdepth : t.size ≤ depth)
    (hbound : t.size < bound) (indent k : Nat) {text tail : List Char}
    (htext : dropLayout false text =
      dropLayout false (t.render indent names (List.replicate k ' ' ++ '\x7d' :: tail))) :
    statements (statement (block depth)) bound text = .ok (t.draft names, '\x7d' :: tail) := by
  induction t generalizing scope names depth bound indent k text tail with
  | nil =>
    obtain ⟨bound, rfl⟩ := Nat.exists_eq_succ_of_ne_zero (Nat.ne_zero_of_lt hbound)
    rw [Tree.render, dropLayout_indent] at htext
    exact statements_nil htext
  | cons id stmt first second rest ih₁ ih₂ ih₃ =>
    obtain ⟨bound, rfl⟩ := Nat.exists_eq_succ_of_ne_zero (Nat.ne_zero_of_lt hbound)
    obtain ⟨hf, hs, ht₁, ht₂, ht₃⟩ := ht
    rw [Tree.size] at hdepth hbound
    obtain ⟨depth, rfl⟩ : ∃ d, depth = d + 1 := ⟨depth - 1, by omega⟩
    simp only [Tree.sites, List.mem_cons, List.mem_append] at hw
    have hsite : Site.Written ⟨id, stmt, scope⟩ := hw _ (.inl rfl)
    -- the values with names in the first block
    obtain ⟨names', hnames', hid, hsub⟩ : ∃ names', names' =
        (if stmt.kind.hasValue then names ++ [id] else names) ∧
        (stmt.kind.hasValue = true → id ∈ names') ∧ names ⊆ names' := by
      refine ⟨_, rfl, fun h => by simp [h], fun v hv => ?_⟩
      split
      · exact List.mem_append_left _ hv
      · exact hv
    have hscope' : scope ⊆ names' := List.Subset.trans hscope hsub
    have hsecond : names' ⊆ names' ++ first.values := List.subset_append_left _ _
    have hrest : names' ⊆ names' ++ first.values ++ second.values :=
      List.Subset.trans hsecond (List.subset_append_left _ _)
    unfold Tree.render at htext
    unfold Tree.draft
    dsimp only at htext ⊢
    rw [← hnames'] at htext ⊢
    obtain ⟨c, cs, hcs, hsolid, hbrace, -⟩ := exists_line_cons names' id stmt
      (blocksText stmt.kind indent (first.render (indent + 2) names')
        (second.render (indent + 2) (names' ++ first.values)) (annotationText stmt ++ '\n' ::
          rest.render indent (names' ++ first.values ++ second.values)
            (List.replicate k ' ' ++ '\x7d' :: tail)))
    rw [List.append_assoc (List.replicate indent ' '),
      List.append_assoc (List.replicate indent ' '),
      dropLayout_indent, hcs, dropLayout_of_solid (solid_cons hsolid.1 hsolid.2 cs)] at htext
    have hblock₁ : ReadsBlock (block (depth + 1)) (first.render (indent + 2) names')
        (first.draft names') :=
      readsBlock_of_statements ht₁ fun hb h =>
        ih₁ ht₁ hscope' (fun p hp => hw p (by tauto)) (by omega)
        hb _ _ h
    have hblock₂ : ReadsBlock (block (depth + 1))
      (second.render (indent + 2) (names' ++ first.values))
        (second.draft (names' ++ first.values)) :=
      readsBlock_of_statements ht₂ fun hb h => ih₂ ht₂ (List.Subset.trans hscope' hsecond)
        (fun p hp => hw p (by tauto)) (by omega) hb _ _ h
    obtain ⟨left, hread, hleft⟩ := statement_append hsite.stmt
      (fun v hv => hscope' (hsite.visible v hv)) hid (fun _ => hblock₁) (fun _ => hblock₂)
      (fun h => by rw [hf (Kind.blocks_eq_none h).1]; rfl) (fun h => by rw [hs h]; rfl)
      (continues_render rest indent k (names' ++ first.values ++ second.values) tail) indent
    rw [hcs] at hread
    have hscope₃ : stmt.scopeAfter id scope ⊆ names' ++ first.values ++ second.values := by
      intro v hv
      rcases Tree.mem_scopeAfter.1 hv with hmem | ⟨rfl, hvalue⟩
      · exact hrest (hscope' hmem)
      · exact hrest (hid hvalue)
    have htail : statements (statement (block (depth + 1))) bound left =
        .ok (rest.draft (names' ++ first.values ++ second.values), '\x7d' :: tail) :=
      ih₃ ht₃ hscope₃ (fun p hp => hw p (by tauto)) (by omega) (by omega) indent k hleft
    exact (statements_cons htext hbrace).trans
      ((bind_of_ok hread).trans ((bind_of_ok htail).trans rfl))

end Scan

/-! ## Kernels -/

/-- The text of a kernel is read as its name and what is read for its statements. -/
theorem readKernel_append {name : List Char} (hname : Scan.IsName name) {t : Tree} (ht : t.Shaped)
    (hw : ∀ p ∈ t.sites [], p.Written) :
    readKernel ("kernel @".toList ++ name ++ braced 0 (t.render 2 []) ['\n']) =
      .ok (name, t.draft []) := by
  let text := "kernel @".toList ++ name ++ braced 0 (t.render 2 []) ['\n']
  have hlength : t.size ≤ text.length := by
    have h := t.size_le_length_render ht 2 [] (List.replicate 0 ' ' ++ '\x7d' :: ['\n'])
    simp only [text, Scan.braced_eq, List.length_append, List.length_cons] at h ⊢
    omega
  have hblock : Scan.ReadsBlock (Scan.block (text.length + 1)) (t.render 2 []) (t.draft []) :=
    Scan.readsBlock_of_statements ht fun hbound h =>
      Scan.statements_append ht (List.Subset.refl []) hw hlength hbound _ _ h
  have htext : text = "kernel".toList ++ ' ' ::
    ('@' :: name ++ braced 0 (t.render 2 []) ['\n']) := by
    simp [text]
  have hread : Scan.kernel (text.length + 1) text = .ok ((name, t.draft []), ['\n']) := by
    generalize text.length + 1 = depth at hblock
    have hword : Scan.Solid
      ("kernel".toList ++ ' ' :: ('@' :: name ++ braced 0 (t.render 2 []) ['\n'])) :=
      Scan.solid_cons rfl (by decide) _
    have hsign : Scan.Solid ('@' :: name ++ braced 0 (t.render 2 []) ['\n']) :=
      Scan.solid_cons rfl (by decide) _
    have hend : Scan.Ends Scan.isNameChar (braced 0 (t.render 2 []) ['\n']) := Scan.ends_cons rfl _
    rw [htext, Scan.kernel, Scan.bind_layout hword, Scan.bind_word, Scan.bind_layout_blank hsign,
      Scan.bind_of_ok (Scan.symbol_append hname hend), hblock.bind_layout 0 ['\n']]
    rfl
  change readKernel text = _
  rw [readKernel, hread]
  rfl

end KernelIR
