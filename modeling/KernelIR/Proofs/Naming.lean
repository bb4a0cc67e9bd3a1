import KernelIR.Pipeline
import KernelIR.Proofs.Text.Build
import KernelIR.Proofs.Text.Renaming

/-!
# Names do not matter

Value names are gone when a text has been parsed. If they are replaced by others, and different
names stay different, then the text is parsed if and only if it was before, and to the same
statements, blocks and uses (`parseKernel_renameValues`). So what is printed for it, or made of it
by the optimizer, is the same.

Reading commutes with the replacement (`readKernel_renameValues`), and so does resolving, statement
by statement (`Draft.echoes_resolve`) : a name is found where the old one was found, and is bound
twice if the old one was. Only the names in an error differ.
-/

namespace KernelIR

open Scan (IsName isNameChar)

/-! ## Renamings -/

/-- New names are names, and those of different values are different. -/
structure IsRenaming (r : ValueName → ValueName) : Prop where
  isName : ∀ {name}, IsName name → IsName (r name)
  injective : ∀ {name name'}, IsName name → IsName name' → r name = r name' → name = name'

/-- The renaming on names, and no change elsewhere. -/
def onNames (r : ValueName → ValueName) (name : ValueName) : ValueName :=
  if IsName name then r name else name

section Renamings

variable {r r' : ValueName → ValueName}

/-- On names it is the renaming. -/
theorem onNames_of_isName {name : ValueName} (h : IsName name) : onNames r name = r name :=
  if_pos h

/-- Names are renamed to names. -/
theorem IsRenaming.keepsNames (hr : IsRenaming r) : KeepsNames (onNames r) := fun {name} h => by
  rw [onNames_of_isName h]
  exact hr.isName h

/-- Different texts are renamed to different ones. -/
theorem IsRenaming.injective_onNames (hr : IsRenaming r) : Function.Injective (onNames r) := by
  intro name name' heq
  unfold onNames at heq
  split at heq <;> split at heq
  · next h h' => exact hr.injective h h' heq
  · next h h' => exact absurd (heq ▸ hr.isName h) h'
  · next h h' => exact absurd (heq ▸ hr.isName h') h
  · exact heq

theorem newName_congr (h : ∀ name, IsName name → r name = r' name) (rest : List Char) :
    newName r (rest.takeWhile isNameChar) = newName r' (rest.takeWhile isNameChar) := by
  unfold newName
  split
  · rfl
  · next hne => exact h _ ⟨hne, fun c hc => List.all_eq_true.1 List.all_takeWhile c hc⟩

/-- Only names are looked up in a text. -/
theorem renameFrom_congr (h : ∀ name, IsName name → r name = r' name) (l : Locus)
    (text : List Char) :
    renameFrom r l text = renameFrom r' l text := by
  induction text generalizing l with
  | nil => rfl
  | cons c rest ih => rw [renameFrom, renameFrom, newName_congr h, ih, ih]

/-- In a text only names are renamed. -/
theorem renameValues_onNames (text : List Char) :
    renameValues (onNames r) text = renameValues r text :=
  renameFrom_congr (fun _ h => onNames_of_isName h) .plain text

end Renamings

/-! ## Names in scope -/

/-- The visible names with other names. -/
def Names.mapNames (r : ValueName → ValueName) (names : Names) : Names :=
  names.map (Prod.map r id)

namespace ResolveError

/-- The error that is met with other names. -/
def mapNames (r : ValueName → ValueName) : ResolveError → ResolveError
  | undefinedValue name => undefinedValue (r name)
  | duplicateName name => duplicateName (r name)
  | boundEffect keyword name => boundEffect keyword (r name)
  | e => e

end ResolveError

/-- What is come to with other names, where `f` says what becomes of a value. -/
def echo {α β : Type} (r : ValueName → ValueName) (f : α → β) :
    Except ResolveError α → Except ResolveError β
  | .ok a => .ok (f a)
  | .error e => .error (e.mapNames r)

/-- With other names `y` comes to what `f` makes of what `x` comes to, or to the same error. -/
def Echoes {α β : Type} (r : ValueName → ValueName) (x : Except ResolveError α) (f : α → β)
    (y : Except ResolveError β) : Prop :=
  y = echo r f x

namespace Echoes

variable {α β γ δ : Type} {r : ValueName → ValueName} {x : Except ResolveError α} {f : α → β}
  {y : Except ResolveError β} {g : α → Except ResolveError γ} {h : β → Except ResolveError δ}
    {k : γ → δ}

theorem ok {a : α} {b : β} (hab : f a = b) : Echoes r (.ok a) f (.ok b) :=
  congrArg Except.ok hab.symm

theorem error {e e' : ResolveError} (he : e.mapNames r = e') : Echoes r (.error e) f (.error e') :=
  congrArg Except.error he.symm

/-- Parts that echo each other do so one after the other. -/
theorem bind (hx : Echoes r x f y) (hg : ∀ a, Echoes r (g a) k (h (f a))) :
    Echoes r (x >>= g) k (y >>= h) := by
  cases hx
  cases x with
  | error e => rfl
  | ok a => exact hg a

/-- They do so along a list. -/
theorem mapM {h : β → Except ResolveError γ} (hg : ∀ a, Echoes r (g a) id (h (f a))) (l : List α) :
    Echoes r (l.mapM g) id ((l.map f).mapM h) := by
  induction l with
  | nil => exact .ok rfl
  | cons a l ih =>
    rw [List.map_cons, List.mapM_cons, List.mapM_cons]
    exact .bind (hg a) fun _ => .bind ih fun _ => .ok rfl

end Echoes

section Scope

variable {r : ValueName → ValueName} (hr : Function.Injective r) (names : Names)
include hr

/-- A name is found under its new name as it was under the old one. -/
theorem Names.lookup_mapNames (name : ValueName) :
    (names.mapNames r).lookup (r name) = names.lookup name := by
  induction names with
  | nil => rfl
  | cons p names ih =>
    rw [Names.mapNames, List.map_cons, Prod.map, List.lookup_cons, List.lookup_cons]
    by_cases heq : name = p.1
    · rw [heq, beq_self_eq_true, beq_self_eq_true]
      rfl
    · rw [beq_false_of_ne heq, beq_false_of_ne (hr.ne heq)]
      exact ih

/-- So it is if it has to be there. -/
theorem Names.echoes_find (name : ValueName) :
    Echoes r (names.find name) id ((names.mapNames r).find (r name)) := by
  unfold find
  rw [lookup_mapNames hr]
  cases names.lookup name <;> rfl

theorem Names.echoes_find? (name? : Option ValueName) :
    Echoes r (names.find? name?) id ((names.mapNames r).find? (name?.map r)) := by
  cases name? with
  | none => rfl
  | some name => exact .bind (names.echoes_find hr name) fun _ => .ok rfl

/-- A result is bound to its new name. -/
theorem Names.echoes_bind (s : StmtId) (name? : Option ValueName) :
    Echoes r (names.bind s name?) (Names.mapNames r) ((names.mapNames r).bind s (name?.map r)) := by
  cases name? with
  | none => rfl
  | some name =>
    rw [Option.map_some, bind, bind, lookup_mapNames hr]
    split <;> rfl

end Scope

/-! ## Resolving one statement -/

section Heads

variable {r : ValueName → ValueName}

theorem Form.hasValue_mapNames (form : Form) : (form.mapNames r).hasValue = form.hasValue := by
  cases form <;> rfl

/-- The type of a statement does not depend on its names. -/
theorem Head.echoes_type? (head : Head) : Echoes r head.type? id (head.mapNames r).type? := by
  unfold type?
  dsimp only [mapNames]
  rw [Form.hasValue_mapNames]
  cases head.annotation? with
  | none => cases head.form.hasValue <;> cases head.result? <;> rfl
  | some name =>
    dsimp only
    cases ValueType.ofName? name with
    | none => rfl
    | some type => cases head.form.hasValue <;> cases head.result? <;> rfl

/-- No name is needed for a literal. -/
theorem Constant.echoes_convert (type : ValueType) (lane : Constant) :
    Echoes r (lane.convert type) id (lane.convert type) := by
  cases lane with
  | int i => exact .ok rfl
  | float x =>
    rw [convert]
    cases type.element.isFloat <;> rfl

variable (hr : Function.Injective r) (names : Names) (head : Head)
include hr

/-- The same shape is found under the new names, with the same type. -/
theorem Head.echoes_shapeAt (type? : Option ValueType) :
    Echoes r (head.shapeAt names type?) id
      ((head.mapNames r).shapeAt (names.mapNames r) type?) := by
  have hfind := names.echoes_find hr
  have hfind? := names.echoes_find? hr
  have hrequired : Echoes r (head.required type?) id ((head.mapNames r).required type?) := by
    cases type? <;> rfl
  obtain ⟨result?, keyword, form, annotation?⟩ := head
  cases form with
  | alloca => exact .ok rfl
  | splat lane =>
    exact .bind hrequired fun type => .bind (lane.echoes_convert type) fun _ => .ok rfl
  | lanes l =>
    refine .bind hrequired fun type => ?_
    have hlanes := Echoes.mapM (f := id) (Constant.echoes_convert (r := r) type) l
    rw [List.map_id] at hlanes
    dsimp only [id]
    split
    · exact .error rfl
    · exact .bind hlanes fun _ => .ok rfl
  | arg index => exact .ok rfl
  | binary a b =>
    dsimp only [shapeAt, mapNames, Form.mapNames]
    cases BinaryOp.ofName? keyword with
    | none => exact .error rfl
    | some op => exact .bind (hfind a) fun _ => .bind (hfind b) fun _ => .ok rfl
  | loadSlot slot => exact .bind hrequired fun _ => .bind (hfind slot) fun _ => .ok rfl
  | loadLanes l =>
    refine .bind hrequired fun type => ?_
    dsimp only [id]
    rw [List.length_map]
    split
    · exact .error rfl
    · have hlane : ∀ lane : ValueName × Nat,
          Echoes r (do let slot ← names.find lane.1; pure (⟨slot, lane.2⟩ : SlotLane)) id
            (do let slot ← (names.mapNames r).find (r lane.1); pure (⟨slot, lane.2⟩ : SlotLane)) :=
        fun lane => .bind (hfind lane.1) fun _ => .ok rfl
      exact .bind (.mapM (f := Prod.map r id) hlane l) fun _ => .ok rfl
  | store slot value => exact .bind (hfind slot) fun _ => .bind (hfind value) fun _ => .ok rfl
  | atomic slot value =>
    dsimp only [shapeAt, mapNames, Form.mapNames]
    cases ("atomic_".toList.isPrefixOf? keyword).bind AtomicOp.ofName? with
    | none => exact .error rfl
    | some op => exact .bind (hfind slot) fun _ => .bind (hfind value) fun _ => .ok rfl
  | print v => exact .bind (hfind v) fun _ => .ok rfl
  | branch cond trueMask falseMask otherwise =>
    exact .bind (hfind cond) fun _ => .bind (hfind? trueMask) fun _ =>
      .bind (hfind? falseMask) fun _ => .ok rfl
  | loop mask => exact .bind (hfind? mask) fun _ => .ok rfl
  | leave cond => exact .bind (hfind cond) fun _ => .ok rfl
  | rangeFor counter lower upper =>
    exact .bind (hfind counter) fun _ => .bind (hfind lower) fun _ => .bind (hfind upper) fun _ =>
      .ok rfl
  | structFor counters snode => exact .bind (.mapM hfind counters) fun _ => .ok rfl

/-- So it is with the type of the statement. -/
theorem Head.echoes_shape :
    Echoes r (head.shape names) id ((head.mapNames r).shape (names.mapNames r)) :=
  .bind head.echoes_type? fun type? => .bind (head.echoes_shapeAt hr names type?) fun _ => .ok rfl

end Heads

/-! ## Resolving a draft -/

namespace Resolve

variable {α β γ δ : Type} {r : ValueName → ValueName} {x : Resolve α} {f : α → β} {y : Resolve β}
  {g : α → Resolve γ} {h : β → Resolve δ} {k : γ → δ}

/-- In every context `y` does what `x` does, and comes to what `f` makes of what `x` comes to, or to
the same error with other names. -/
def Echoes (r : ValueName → ValueName) (x : Resolve α) (f : α → β) (y : Resolve β) : Prop :=
  ∀ c, y.run c = (x.run c).map (Prod.map (echo r f) id)

namespace Echoes

protected theorem pure {a : α} {b : β} (hab : f a = b) :
    Echoes r (Pure.pure a) f (Pure.pure b) := by
  intro c
  rw [← hab]
  rfl

/-- What echoes without a context does so with one. -/
theorem ofExcept {e : Except ResolveError α} {e' : Except ResolveError β}
    (he : KernelIR.Echoes r e f e') :
    Echoes r (ExceptT.mk (Pure.pure e)) f (ExceptT.mk (Pure.pure e')) := by
  intro c
  cases he
  rfl

theorem bind (hx : Echoes r x f y) (hg : ∀ a, Echoes r (g a) k (h (f a))) :
    Echoes r (x >>= g) k (y >>= h) := by
  intro c
  have hrun := hx c
  cases hxc : x.run c with
  | error misuse =>
    rw [hxc] at hrun
    rw [run_bind_of_refused hrun, run_bind_of_refused hxc]
    rfl
  | ok p =>
    obtain ⟨e | a, c'⟩ := p
    · rw [hxc] at hrun
      rw [run_bind_of_error hrun, run_bind_of_error hxc]
      rfl
    · rw [hxc] at hrun
      rw [run_bind_of_ok hrun, run_bind_of_ok hxc]
      exact hg a c'

/-- An operation on the context has to do with no name. -/
theorem lift (x : Edit α) : Echoes r (liftM x) id (liftM x) := by
  intro c
  rw [run_lift]
  cases x c <;> rfl

theorem block {fill fill' : BlockId → Resolve Unit} (hfill : ∀ b, Echoes r (fill b) id (fill' b)) :
    Echoes r (Resolve.block fill) id (Resolve.block fill') :=
  .bind (.lift _) fun b => .bind (hfill b) fun _ => .pure rfl

end Echoes

end Resolve

/-- The renamed draft is resolved where the draft is, and makes the same statements and blocks. -/
theorem Draft.echoes_resolve {r : ValueName → ValueName} (hr : Function.Injective r) (draft : Draft)
    (names : Names) (b : BlockId) :
    Resolve.Echoes r (draft.resolve names b) id
      ((draft.mapNames r).resolve (names.mapNames r) b) := by
  induction draft generalizing names b with
  | nil => exact .pure rfl
  | cons head first second rest ih₁ ih₂ ih₃ =>
    rw [mapNames, resolve, resolve]
    refine .bind (.ofExcept (head.echoes_shape hr names)) fun p => ?_
    obtain ⟨type?, shape⟩ := p
    -- what follows the blocks is the same for every shape
    have htail : ∀ kind, Resolve.Echoes r (do
        let s ← liftM (Context.createStmt kind type?)
        liftM (Context.push b s)
        let names ← ExceptT.mk (pure (names.bind s head.result?))
        rest.resolve names b) id (do
        let s ← liftM (Context.createStmt kind type?)
        liftM (Context.push b s)
        let names ← ExceptT.mk (pure ((names.mapNames r).bind s (head.mapNames r).result?))
        (rest.mapNames r).resolve names b) := fun kind =>
      .bind (.lift _) fun s => .bind (.lift _) fun _ =>
        .bind (.ofExcept (names.echoes_bind hr s head.result?)) fun names => ih₃ names b
    cases shape with
    | plain kind => exact .bind (.pure rfl) htail
    | body kind => exact .bind (.block (ih₁ names)) fun d => .bind (.pure rfl) htail
    | branch kind otherwise =>
      refine .bind (.block (ih₁ names)) fun d => ?_
      cases otherwise with
      | true =>
        exact .bind (.block (ih₂ names)) fun e => .bind (.pure rfl) fun _ => .bind (.pure rfl) htail
      | false => exact .bind (.pure rfl) fun _ => .bind (.pure rfl) htail

/-! ## Parsing -/

namespace ParseError

/-- The error that is met with other names. -/
def mapNames (r : ValueName → ValueName) : ParseError → ParseError
  | unresolved e => unresolved (e.mapNames r)
  | e => e

end ParseError

/-- A text is parsed alike with other names, if the grammar reads it : the kernel and the context
are the same, or there is the same error with other names. -/
theorem exists_parseKernel_renamed {r : ValueName → ValueName} (hr : IsRenaming r)
    {text name : List Char} {draft : Draft} (hread : readKernel text = .ok (name, draft))
    (hread' : readKernel (renameValues r text) = .ok (name, draft.mapNames (onNames r)))
    (c : Context) : ∃ result c', parseKernel text c = .ok (result, c') ∧
      parseKernel (renameValues r text) c =
        .ok (result.mapError (ParseError.mapNames (onNames r)), c') := by
  obtain ⟨result, c', hparse⟩ := exists_parseKernel text c
  refine ⟨result, c', hparse, ?_⟩
  have hechoes : Resolve.Echoes (onNames r) (Resolve.block (draft.resolve [])) id
      (Resolve.block ((draft.mapNames (onNames r)).resolve [])) :=
    .block fun b => draft.echoes_resolve hr.injective_onNames [] b
  have hrun := hechoes c
  unfold parseKernel at hparse ⊢
  rw [hread] at hparse
  rw [hread']
  simp only [Bind.bind, StateT.bind] at hparse ⊢
  rw [hrun]
  cases hblock : (Resolve.block (draft.resolve [])).run c with
  | error misuse =>
    rw [hblock] at hparse
    cases hparse
  | ok p =>
    obtain ⟨e | b, c₁⟩ := p <;> rw [hblock] at hparse <;>
      obtain ⟨rfl, rfl⟩ := Prod.mk.inj (Except.ok.inj hparse) <;> rfl

/-- A source is loaded the same if it is parsed the same. -/
theorem loadSource_congr {text text' : List Char}
    (h : parseKernel text' .empty = parseKernel text .empty) :
    loadSource text' .empty = loadSource text .empty := by
  simp only [loadSource, Bind.bind, StateT.bind, h]

/-- Names of values do not matter. Whatever the text and the context are, a text in which each name
of a value is replaced, outside of comments, is parsed to a kernel if and only if the text is. It is
then the same kernel, and the same context with the same statements, blocks, types and uses. So what
is printed for the two texts is the same, and what they are optimized to, with the counts. -/
theorem parseKernel_renameValues {r : ValueName → ValueName} (hr : IsRenaming r)
    (text : List Char) :
    (∀ c, ∃ result result' c', parseKernel text c = .ok (result, c') ∧
        parseKernel (renameValues r text) c = .ok (result', c') ∧
        ∀ kernel, result' = .ok kernel ↔ result = .ok kernel) ∧
      ((∃ kernel c', parseKernel text .empty = .ok (.ok kernel, c')) →
        printSource (renameValues r text) = printSource text ∧
          ∀ maxSweeps?, optimizeSource (renameValues r text) maxSweeps? =
            optimizeSource text maxSweeps?) := by
  have hread := readKernel_renameValues hr.keepsNames text
  rw [renameValues_onNames] at hread
  have hparse : ∀ c, ∃ result result' c', parseKernel text c = .ok (result, c') ∧
      parseKernel (renameValues r text) c = .ok (result', c') ∧
      ∀ kernel, result' = .ok kernel ↔ result = .ok kernel := by
    intro c
    rcases hread with ⟨name, draft, hok, hok'⟩ | ⟨e, e', herror, herror'⟩
    · obtain ⟨result, c', h, h'⟩ := exists_parseKernel_renamed hr hok hok' c
      refine ⟨result, _, c', h, h', fun kernel => ?_⟩
      cases result <;> simp [Except.mapError]
    · refine ⟨.error e, .error e', c, ?_, ?_, by simp⟩
      · rw [parseKernel, herror]
        rfl
      · rw [parseKernel, herror']
        rfl
  refine ⟨hparse, ?_⟩
  rintro ⟨kernel, c', hkernel⟩
  obtain ⟨result, result', c'', h, h', hiff⟩ := hparse .empty
  obtain ⟨rfl, rfl⟩ := Prod.mk.inj (Except.ok.inj (h.symm.trans hkernel))
  obtain rfl := (hiff kernel).2 rfl
  have hload := loadSource_congr (h'.trans h.symm)
  constructor
  · rw [printSource, hload, ← printSource]
  · intro maxSweeps?
    rw [optimizeSource, hload, ← optimizeSource]

namespace ShadowKernel

/-- A kernel in which a name is bound twice, and another one looks like a keyword. -/
def text : List Char :=
  "kernel @k \x7b // %in\n %in = arg 0 : u1
    if %in \x7b %x = arg 1 : i32 \x7d else \x7b %x = arg 2 : i32 \x7d \x7d".toList

/-- The same kernel with names that begin with a digit. -/
def numbered : List Char :=
  "kernel @k \x7b // %in\n %0in = arg 0 : u1
    if %0in \x7b %0x = arg 1 : i32 \x7d else \x7b %0x = arg 2 : i32 \x7d \x7d".toList

theorem isRenaming_cons : IsRenaming ('0' :: ·) where
  isName h := ⟨List.cons_ne_nil _ _, List.forall_mem_cons.2 ⟨rfl, h.2⟩⟩
  injective _ _ heq := (List.cons.inj heq).2

end ShadowKernel

open ShadowKernel in
theorem parseKernel_renameValues_numbered : IsRenaming ('0' :: ·) ∧
    renameValues ('0' :: ·) text = numbered ∧ ∃ kernel c',
      parseKernel text .empty = .ok (.ok kernel, c') ∧
      parseKernel numbered .empty = .ok (.ok kernel, c') ∧
        printSource numbered = printSource text := by
  have hrename : renameValues ('0' :: ·) text = numbered := by decide +kernel
  obtain ⟨hparse, hprint⟩ := parseKernel_renameValues isRenaming_cons text
  obtain ⟨result, result', c', h, h', hiff⟩ := hparse .empty
  rw [hrename] at h' hprint
  have hparsed : (parseKernel text .empty).map Prod.fst = .ok (.ok ⟨"k", ⟨0⟩⟩) := by decide +kernel
  rw [h] at hparsed
  obtain rfl : result = .ok ⟨"k", ⟨0⟩⟩ := Except.ok.inj hparsed
  obtain rfl := (hiff _).2 rfl
  exact ⟨isRenaming_cons, hrename, _, c', h, h', (hprint ⟨_, c', h⟩).1⟩

end KernelIR
