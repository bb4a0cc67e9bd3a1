import KernelIR.Proofs.Text.Piece
import KernelIR.Proofs.Text.Lexeme
import KernelIR.Proofs.Text.Statement

/-!
# Texts with other names

`renameValues r` replaces each name of a value in a text, wherever a percent sign stands outside of
comments. It goes through the text once and knows only where it is (`Locus`), not what the text
means.

Reading goes along with it : what is read in the renamed text is the renamed draft, and where
reading fails in one text it fails in the other (`readKernel_renameValues`). `Scan.Mirrors` says
this of a part of the grammar, at each place where it can be tried. The new names may be keywords or
numbers and have any length. It is enough that they are names, since a name is only read behind its
sign, up to its end.
-/

namespace KernelIR

open Scan (Ends IsName isBlank isNameChar dropLayout)

/-! ## Renaming a text -/

/-- Where a character of a text stands. -/
inductive Locus where
  | plain
  /-- Right behind a slash. -/
  | slash
  | comment
  /-- Behind a percent sign, in front of the end of the name. -/
  | name
deriving DecidableEq

/-- Where the next character stands. -/
def Locus.next (l : Locus) (c : Char) : Locus :=
  if l = comment then if c = '\n' then plain else comment
  else if l = slash ∧ c = '/' then comment
  else if l = name ∧ isNameChar c then name
  else if c = '/' then slash
  else if c = '%' then name
  else plain

/-- The new name of a value. Without a character there is no name. -/
def newName (r : ValueName → ValueName) (name : ValueName) : ValueName :=
  if name = [] then [] else r name

/-- Replaces the names of values in what is left of a text. A name is replaced at its sign, and its
characters are left out. -/
def renameFrom (r : ValueName → ValueName) : Locus → List Char → List Char
  | _, [] => []
  | l, c :: rest =>
    if l = .name ∧ isNameChar c then renameFrom r .name rest
    else if l.next c = .name then
      c :: (newName r (rest.takeWhile isNameChar) ++ renameFrom r .name rest)
    else c :: renameFrom r (l.next c) rest

/-- Replaces the names of values in a text. -/
def renameValues (r : ValueName → ValueName) (text : List Char) : List Char :=
  renameFrom r .plain text

/-- New names are names. -/
def KeepsNames (r : ValueName → ValueName) : Prop :=
  ∀ {name}, IsName name → IsName (r name)

/-- A character that neither begins a name nor a comment. -/
def IsPlain (c : Char) : Prop :=
  c ≠ '%' ∧ c ≠ '/'

instance (c : Char) : Decidable (IsPlain c) :=
  inferInstanceAs (Decidable (c ≠ '%' ∧ c ≠ '/'))

/-- All characters of the text are plain. -/
def ArePlain (cs : List Char) : Prop :=
  ∀ c ∈ cs, IsPlain c

instance (cs : List Char) : Decidable (ArePlain cs) :=
  decidable_of_iff (cs.all fun c => decide (IsPlain c)) (by simp [ArePlain])

section Rename

variable {r : ValueName → ValueName} {c : Char} {rest text : List Char}

/-- What passes a test that the two signs do not pass is plain. -/
theorem isPlain_of_test {test : Char → Bool} (h : test '%' = false ∧ test '/' = false)
    (hc : test c = true) : IsPlain c := by
  constructor <;> rintro rfl <;> simp [h] at hc

theorem isPlain_of_isBlank (hc : isBlank c = true) : IsPlain c :=
  isPlain_of_test (by decide) hc

@[simp] theorem renameValues_nil : renameValues r [] = [] :=
  rfl

/-- A plain character stays where it is. -/
theorem renameValues_cons (hc : IsPlain c) (rest : List Char) :
    renameValues r (c :: rest) = c :: renameValues r rest := by
  simp [renameValues, renameFrom, Locus.next, hc.1, hc.2]

/-- In a comment all characters stay, and its line ends it. -/
theorem renameFrom_comment (c : Char) (rest : List Char) : renameFrom r .comment (c :: rest) =
    c :: renameFrom r (if c = '\n' then .plain else .comment) rest := by
  by_cases hc : c = '\n' <;> simp [renameFrom, Locus.next, hc]

/-- Two slashes begin a comment. -/
theorem renameValues_comment (rest : List Char) :
    renameValues r ('/' :: '/' :: rest) = '/' :: '/' :: renameFrom r .comment rest := by
  simp [renameValues, renameFrom, Locus.next]

/-- A slash that begins no comment. -/
theorem renameValues_slash (h : Ends (· == '/') rest) :
    renameValues r ('/' :: rest) = '/' :: renameValues r rest := by
  cases rest with
  | nil => simp [renameValues, renameFrom, Locus.next]
  | cons c rest =>
    have hc : c ≠ '/' := by simpa using h c rfl
    simp [renameValues, renameFrom, Locus.next, hc]

/-- A name ends where its characters do. -/
theorem renameFrom_name (h : Ends isNameChar rest) :
    renameFrom r .name rest = renameValues r rest := by
  cases rest with
  | nil => rfl
  | cons c rest =>
    have hc : isNameChar c = false := h c rfl
    simp [renameValues, renameFrom, Locus.next, hc]

/-- What is left of a name is left out, since the name in its place is complete. -/
theorem renameFrom_name_append {name : List Char} (hname : ∀ c ∈ name, isNameChar c = true)
    (rest : List Char) : renameFrom r .name (name ++ rest) = renameFrom r .name rest := by
  induction name with
  | nil => rfl
  | cons c name ih =>
    obtain ⟨hc, hname⟩ := List.forall_mem_cons.1 hname
    rw [List.cons_append, renameFrom, if_pos ⟨rfl, hc⟩, ih hname]

/-- Behind a percent sign all characters up to the end of the name are replaced. -/
theorem renameValues_name {name : List Char} (hname : ∀ c ∈ name, isNameChar c = true)
    (h : Ends isNameChar rest) : renameValues r ('%' :: (name ++ rest)) =
      '%' :: (newName r name ++ renameValues r rest) := by
  have htake : (name ++ rest).takeWhile isNameChar = name := by
    have := congrArg Prod.fst (Except.ok.inj (Scan.many_append hname h))
    exact this
  rw [renameValues, renameFrom, if_neg (by simp), if_pos (by decide), htake,
    renameFrom_name_append hname, renameFrom_name h]

/-- The first character stays. -/
theorem exists_renameValues_cons (r : ValueName → ValueName) (c : Char) (rest : List Char) :
    ∃ run, renameValues r (c :: rest) = c :: run := by
  rw [renameValues, renameFrom, if_neg (by simp)]
  split <;> exact ⟨_, rfl⟩

/-- The first character stays, so what ends at it does so as before. -/
theorem ends_renameValues {test : Char → Bool} :
    Ends test (renameValues r text) ↔ Ends test text := by
  cases text with
  | nil => rfl
  | cons c rest =>
    obtain ⟨run, hrun⟩ := exists_renameValues_cons r c rest
    rw [hrun, Ends, Ends, List.head?_cons, List.head?_cons]

/-- Layout stays, and what is behind it is renamed. -/
theorem dropLayout_renameFrom (inside : Bool) (text : List Char) :
    dropLayout inside (renameFrom r (if inside then .comment else .plain) text) =
      renameValues r (dropLayout inside text) := by
  fun_induction dropLayout inside text with
  | case1 inside => cases inside <;> rfl
  | case2 c rest ih =>
    rw [if_pos rfl, renameFrom_comment, dropLayout, ← ih]
    by_cases hc : c = '\n' <;> simp [hc]
  | case3 rest ih =>
    exact (congrArg _ (renameValues_comment rest)).trans ih
  | case4 c rest hcomment hblank ih =>
    exact (congrArg _ (renameValues_cons (isPlain_of_isBlank hblank) rest)).trans
      ((Scan.dropLayout_blank_cons hblank _).trans ih)
  | case5 c rest hcomment hblank =>
    change dropLayout false (renameValues r (c :: rest)) = renameValues r (c :: rest)
    by_cases hc : c = '/'
    · -- a single slash is no layout
      subst hc
      have hends : Ends (· == '/') rest := by
        cases rest with
        | nil => exact Scan.ends_nil
        | cons d rest => exact Scan.ends_cons (by simpa using hcomment rest) _
      rw [renameValues_slash hends, dropLayout, if_neg hblank]
      intro tail _ htail
      have := ends_renameValues (r := r).2 hends
      rw [htail] at this
      simpa using this '/' rfl
    · obtain ⟨run, hrun⟩ := exists_renameValues_cons r c rest
      rw [hrun]
      exact Scan.dropLayout_of_solid (Scan.solid_cons (by simpa using hblank) hc run)

/-- Layout is skipped in both texts. -/
theorem dropLayout_renameValues (text : List Char) :
    dropLayout false (renameValues r text) = renameValues r (dropLayout false text) :=
  dropLayout_renameFrom false text

/-- Characters without the two signs are taken as before. -/
theorem takeWhile_renameValues {test : Char → Bool} (h : test '%' = false ∧ test '/' = false)
    (text : List Char) : (renameValues r text).takeWhile test = text.takeWhile test ∧
      (renameValues r text).dropWhile test = renameValues r (text.dropWhile test) := by
  induction text with
  | nil => exact ⟨rfl, rfl⟩
  | cons c rest ih =>
    cases hc : test c with
    | true =>
      rw [renameValues_cons (isPlain_of_test h hc)]
      simp [hc, ih]
    | false =>
      obtain ⟨run, hrun⟩ := exists_renameValues_cons r c rest
      simp [hc, hrun]

/-- A plain word in front stays in front. -/
theorem isPrefixOf?_renameValues {w : List Char} (hw : ArePlain w) (text : List Char) :
    w.isPrefixOf? (renameValues r text) = (w.isPrefixOf? text).map (renameValues r) := by
  induction w generalizing text with
  | nil => rfl
  | cons c w ih =>
    obtain ⟨hc, hw⟩ := List.forall_mem_cons.1 hw
    cases text with
    | nil => rfl
    | cons d rest =>
      by_cases hd : c = d
      · subst hd
        rw [renameValues_cons hc, Scan.isPrefixOf?_cons, Scan.isPrefixOf?_cons, beq_self_eq_true,
          if_pos rfl, if_pos rfl, ih hw]
      · obtain ⟨run, hrun⟩ := exists_renameValues_cons r d rest
        simp [hrun, Scan.isPrefixOf?_cons, hd]

end Rename

/-! ## Drafts with other names -/

/-- The form with other names of values. -/
def Form.mapNames (r : ValueName → ValueName) : Form → Form
  | alloca => alloca
  | splat lane => splat lane
  | lanes l => lanes l
  | arg index => arg index
  | binary a b => binary (r a) (r b)
  | loadSlot slot => loadSlot (r slot)
  | loadLanes l => loadLanes (l.map (Prod.map r id))
  | store slot value => store (r slot) (r value)
  | atomic slot value => atomic (r slot) (r value)
  | print v => print (r v)
  | branch cond trueMask falseMask otherwise =>
    branch (r cond) (trueMask.map r) (falseMask.map r) otherwise
  | loop mask => loop (mask.map r)
  | leave cond => leave (r cond)
  | rangeFor counter lower upper => rangeFor (r counter) (r lower) (r upper)
  | structFor counters snode => structFor (counters.map r) snode

def Head.mapNames (r : ValueName → ValueName) (head : Head) : Head :=
  { head with result? := head.result?.map r, form := head.form.mapNames r }

def Draft.mapNames (r : ValueName → ValueName) : Draft → Draft
  | nil => nil
  | cons head first second rest =>
    cons (head.mapNames r) (first.mapNames r) (second.mapNames r) (rest.mapNames r)

namespace Scan

variable {α β γ δ : Type} {r : ValueName → ValueName} {x x' : Scan α} {y y' : Scan β} {f : α → β}
  {g : α → Scan γ} {h : β → Scan δ} {k : γ → δ}

/-! ## Reading renamed texts -/

/-- Where `x` reads something, `y` reads what `f` makes of it in the renamed text, and where `x`
fails, `y` fails. -/
structure Mirrors (r : ValueName → ValueName) (x : Scan α) (f : α → β) (y : Scan β) : Prop where
  ok : ∀ {text a rest}, x text = .ok (a, rest) →
    y (renameValues r text) = .ok (f a, renameValues r rest)
  error : ∀ {text stop}, x text = .error stop → ∃ stop', y (renameValues r text) = .error stop'

/-- The part reads the same in the renamed text. -/
abbrev Unmoved (r : ValueName → ValueName) (x : Scan α) : Prop :=
  Mirrors r x id x

namespace Mirrors

/-- What is read without looking at the text is read from both texts. -/
protected theorem pure {a : α} {b : β} (hab : f a = b) :
    Mirrors r (Pure.pure a) f (Pure.pure b) where
  ok hread := by
    obtain ⟨rfl, rfl⟩ := Prod.mk.inj (Except.ok.inj hread)
    rw [hab]
    rfl
  error hread := by cases hread

/-- Parts that mirror each other do so one after the other. -/
theorem bind (hx : Mirrors r x f y) (hg : ∀ a, Mirrors r (g a) k (h (f a))) :
    Mirrors r (x >>= g) k (y >>= h) where
  ok hread := by
    obtain ⟨a, mid, ha, hb⟩ := exists_of_bind hread
    exact (bind_of_ok (hx.ok ha)).trans ((hg a).ok hb)
  error {text stop} hread := by
    cases ha : x text with
    | error stop =>
      obtain ⟨stop', hstop⟩ := hx.error ha
      exact ⟨stop', bind_of_error hstop⟩
    | ok p =>
      obtain ⟨stop', hstop⟩ := (hg p.1).error ((bind_of_ok ha).symm.trans hread)
      exact ⟨stop', (bind_of_ok (hx.ok ha)).trans hstop⟩

/-- They do so if they may be left out. -/
theorem optional (hx : Mirrors r x f y) :
    Mirrors r (Scan.optional x) (Option.map f) (Scan.optional y) where
  ok {text a? rest} hread := by
    cases ha : x text with
    | error stop =>
      obtain ⟨rfl, rfl⟩ := Prod.mk.inj (Except.ok.inj ((optional_of_error ha).symm.trans hread))
      obtain ⟨stop', hstop⟩ := hx.error ha
      exact optional_of_error hstop
    | ok p =>
      obtain ⟨rfl, rfl⟩ := Prod.mk.inj (Except.ok.inj ((optional_of_ok ha).symm.trans hread))
      exact optional_of_ok (hx.ok ha)
  error {text stop} hread := by
    cases ha : x text with
    | error stop => cases (optional_of_error ha).symm.trans hread
    | ok p => cases (optional_of_ok ha).symm.trans hread

/-- They do so as one of two ways. -/
theorem either (hx : Mirrors r x f y) (hx' : Mirrors r x' f y') :
    Mirrors r (either x x') f (either y y') where
  ok {text a rest} hread := by
    cases ha : x text with
    | error stop =>
      obtain ⟨stop', hstop⟩ := hx.error ha
      exact (either_of_error hstop).trans (hx'.ok ((either_of_error ha).symm.trans hread))
    | ok p =>
      obtain ⟨rfl, rfl⟩ := Prod.mk.inj (Except.ok.inj ((either_of_ok ha).symm.trans hread))
      exact either_of_ok (hx.ok ha)
  error {text stop} hread := by
    cases ha : x text with
    | error stop' =>
      obtain ⟨stop', hstop⟩ := hx.error ha
      obtain ⟨stop'', hstop'⟩ := hx'.error ((either_of_error ha).symm.trans hread)
      exact ⟨stop'', (either_of_error hstop).trans hstop'⟩
    | ok p => cases (either_of_ok ha).symm.trans hread

theorem congr (hx : Mirrors r x f y) {f' : α → β} (hf : ∀ a, f a = f' a) : Mirrors r x f' y :=
  (funext hf : f = f') ▸ hx

/-- A part with a bound that the length of the text gives and no text reaches. The two lengths
differ. -/
theorem bounded {f : α → α} {p : Nat → Scan α} (hp : ∀ n, Mirrors r (p n) f (p n))
    (hbound : ∀ {text n}, text.length ≤ n → p text.length text = p n text) :
    Mirrors r (fun text => p text.length text) f (fun text => p text.length text) where
  ok {text a rest} hread := by
    have hread' := (hbound (Nat.le_max_left _ (renameValues r text).length)).symm.trans hread
    exact (hbound (Nat.le_max_right text.length _)).trans ((hp _).ok hread')
  error {text stop} hread := by
    have hread' := (hbound (Nat.le_max_left _ (renameValues r text).length)).symm.trans hread
    obtain ⟨stop', hstop⟩ := (hp _).error hread'
    exact ⟨stop', (hbound (Nat.le_max_right text.length _)).trans hstop⟩

end Mirrors

theorem Unmoved.optional (hx : Unmoved r x) : Unmoved r (optional x) :=
  (Mirrors.optional hx).congr fun _ => Option.map_id_apply

/-! ## Words, names and layout -/

theorem mirrors_fail : Mirrors r fail f fail where
  ok hread := by cases hread
  error _ := ⟨_, rfl⟩

/-- Layout stays as it is. -/
theorem unmoved_layout : Unmoved r layout where
  ok {text a rest} hread := by
    obtain ⟨-, rfl⟩ := Prod.mk.inj (Except.ok.inj hread)
    exact congrArg (fun text => Except.ok ((), text)) (dropLayout_renameValues text)
  error hread := by cases hread

/-- So does a word. -/
theorem unmoved_word {w : String} (hw : ArePlain w.toList) : Unmoved r (word w) where
  ok {text a rest} hread := by
    unfold word at hread ⊢
    rw [isPrefixOf?_renameValues hw]
    split at hread
    · next hstart =>
      obtain ⟨-, rfl⟩ := Prod.mk.inj (Except.ok.inj hread)
      rw [hstart]
      rfl
    · cases hread
  error {text stop} hread := by
    unfold word at hread ⊢
    rw [isPrefixOf?_renameValues hw]
    split at hread
    · cases hread
    · next hstart =>
      rw [hstart]
      exact ⟨_, rfl⟩

section Test

variable {test : Char → Bool} (htest : test '%' = false ∧ test '/' = false)
include htest

/-- So does a character that is none of the two signs. -/
theorem unmoved_char : Unmoved r (char test) where
  ok {text c rest} hread := by
    obtain ⟨rfl, hc⟩ := cons_of_char hread
    rw [renameValues_cons (isPlain_of_test htest hc)]
    exact char_cons hc _
  error hread := ⟨_, char_error (ends_renameValues.2 (ends_of_char hread))⟩

/-- So do several of them. -/
theorem unmoved_many : Unmoved r (many test) where
  ok {text cs rest} hread := by
    obtain ⟨rfl, rfl⟩ := Prod.mk.inj (Except.ok.inj hread)
    obtain ⟨htake, hdrop⟩ := takeWhile_renameValues (r := r) htest text
    rw [many, htake, hdrop]
    rfl
  error hread := by cases hread

theorem unmoved_many1 : Unmoved r (many1 test) :=
  (unmoved_char htest).bind fun _ => (unmoved_many htest).bind fun _ => .pure rfl

end Test

theorem unmoved_ident : Unmoved r ident :=
  (unmoved_char (by decide)).bind fun _ => (unmoved_many (by decide)).bind fun _ => .pure rfl

/-- A symbol has another sign, and stays. -/
theorem unmoved_symbol : Unmoved r symbol :=
  (unmoved_word (by decide)).bind fun _ => unmoved_many1 (by decide)

/-- A name is read as the new one. -/
theorem mirrors_valueRef (hr : KeepsNames r) : Mirrors r valueRef r valueRef where
  ok {text name rest} hread := by
    obtain ⟨rfl, hname, hends⟩ := append_of_valueRef hread
    rw [List.cons_append, renameValues_name hname.2 hends, newName, if_neg hname.1]
    exact valueRef_append (hr hname) (ends_renameValues.2 hends)
  error {text stop} hread := by
    cases text with
    | nil => exact ⟨_, rfl⟩
    | cons c rest =>
      by_cases hc : c = '%'
      · -- no name is behind the sign
        subst hc
        have hbehind : many1 isNameChar rest = .error stop := hread
        have hends : Ends isNameChar rest := ends_of_many1 hbehind
        have hnone : ∀ d ∈ [], isNameChar d = true := by simp
        have hrename := renameValues_name (r := r) hnone hends
        obtain ⟨stop', hstop⟩ := (unmoved_many1 (r := r) (by decide)).error hbehind
        exact ⟨stop', (congrArg valueRef hrename).trans hstop⟩
      · obtain ⟨run, hrun⟩ := exists_renameValues_cons r c rest
        have hends : Ends (· == '%') (c :: run) := ends_cons (by simpa using hc) run
        exact ⟨_, hrun ▸ bind_of_error (word_error rfl hends)⟩

/-! ## Literals -/

theorem unmoved_signed : Unmoved r signed :=
  (unmoved_word (by decide)).optional.bind fun _ => (unmoved_many1 (by decide)).bind fun _ =>
    .pure rfl

/-- A number stays, and so do the errors about it. -/
theorem unmoved_integer : Unmoved r integer where
  ok hread := by
    obtain ⟨negative, ds, hs, rfl, hfits⟩ := signed_of_integer hread
    rw [integer_of_signed (unmoved_signed.ok hs), if_pos hfits]
    rfl
  error {text stop} hread := by
    cases hs : signed text with
    | error stop' =>
      obtain ⟨stop'', hstop⟩ := unmoved_signed.error hs
      exact ⟨stop'', integer_of_error hstop⟩
    | ok p =>
      obtain ⟨⟨minus, ds⟩, left⟩ := p
      obtain ⟨negative, rfl⟩ := signMark_surjective minus
      rw [integer_of_signed hs] at hread
      split at hread
      · cases hread
      · next hfits => exact ⟨_, (integer_of_signed (unmoved_signed.ok hs)).trans (if_neg hfits)⟩

theorem unmoved_index : Unmoved r index where
  ok hread := by
    obtain ⟨hlt, ⟨rfl, rfl⟩ | ⟨hends, ds, hs, rfl⟩⟩ := digits_of_index hread
    · rw [renameValues_cons (by decide)]
      rfl
    · exact (index_of_digits (ends_renameValues.2 hends) ((unmoved_many1 (by decide)).ok hs)).trans
        (if_pos hlt)
  error {text stop} hread := by
    by_cases hends : Ends (· == '0') text
    · have hends' := (ends_renameValues (r := r)).2 hends
      cases hs : many1 Char.isDigit text with
      | error stop' =>
        obtain ⟨stop'', hstop⟩ := (unmoved_many1 (r := r) (by decide)).error hs
        exact ⟨stop'', index_of_error hends' hstop⟩
      | ok p =>
        rw [index_of_digits hends hs] at hread
        split at hread
        · cases hread
        · next hlt =>
          exact ⟨_, (index_of_digits hends' ((unmoved_many1 (by decide)).ok hs)).trans (if_neg hlt)⟩
    · obtain ⟨tail, rfl⟩ := exists_cons_of_not_ends hends
      cases hread

theorem unmoved_exponent : Unmoved r exponent :=
  (unmoved_char (by decide)).bind fun _ => (unmoved_char (by decide)).optional.bind fun _ =>
    (unmoved_many1 (by decide)).bind fun _ => .pure rfl

theorem unmoved_fraction : Unmoved r fraction :=
  (unmoved_word (by decide)).bind fun _ => (unmoved_many1 (by decide)).bind fun _ =>
    unmoved_exponent.optional.bind fun _ => .pure rfl

theorem unmoved_decimal : Unmoved r decimal :=
  (unmoved_word (by decide)).optional.bind fun _ => (unmoved_many1 (by decide)).bind fun _ =>
    (unmoved_fraction.either (unmoved_exponent.bind fun _ => .pure rfl)).bind fun _ => .pure rfl

/-- So does a floating-point number. -/
theorem unmoved_float : Unmoved r float :=
  .either (.bind (unmoved_word (by decide)) fun _ => .pure rfl)
    (.either (.bind (unmoved_word (by decide)) fun _ => .pure rfl)
      (.either (.bind (unmoved_word (by decide)) fun _ => .pure rfl) unmoved_decimal))

/-- So does a literal of any sort. -/
theorem unmoved_constant : Unmoved r constant :=
  .either (.bind unmoved_float fun _ => .pure rfl) (.bind unmoved_integer fun _ => .pure rfl)

/-! ## Lists -/

/-- The items that follow are renamed one by one. -/
theorem mirrors_followers {f : α → α} (hx : Mirrors r x f x) (bound : Nat) :
    Mirrors r (followers x bound) (List.map f) (followers x bound) := by
  induction bound with
  | zero => exact .pure rfl
  | succ bound ih =>
    refine (Mirrors.optional ((unmoved_word (by decide)).bind fun _ => hx)).bind fun a? => ?_
    cases a? with
    | none => exact .pure rfl
    | some a => exact ih.bind fun _ => .pure rfl

/-- So are the items of a list. -/
theorem mirrors_list {f : α → α} (hforward : Forward x) (hx : Mirrors r x f x) :
    Mirrors r (list x) (List.map f) (list x) := by
  let behind : Scan (List α) := fun text => followers x text.length text
  have hbehind : Mirrors r behind (List.map f) behind :=
    .bounded (mirrors_followers hx) fun hle =>
      followers_eq_of_length_le hforward (Nat.le_refl _) hle
  change Mirrors r (do let a ← x; let l ← behind; return a :: l) (List.map f)
    (do let a ← x; let l ← behind; return a :: l)
  exact .bind hx fun _ => .bind hbehind fun _ => .pure rfl

theorem mirrors_spaced {f : α → α} (hx : Mirrors r x f x) : Mirrors r (spaced x) f (spaced x) :=
  unmoved_layout.bind fun _ => hx.bind fun _ => unmoved_layout.bind fun _ => .pure rfl

/-! ## Statements -/

section Parts

variable (hr : KeepsNames r)
include hr

/-- The name of a result is renamed. -/
theorem mirrors_result : Mirrors r result r result :=
  (mirrors_valueRef hr).bind fun _ => unmoved_layout.bind fun _ =>
    (unmoved_word (by decide)).bind fun _ => unmoved_layout.bind fun _ => .pure rfl

/-- So are the names of a pair. -/
theorem mirrors_pair : Mirrors r pair (Prod.map r r) pair :=
  (mirrors_valueRef hr).bind fun _ => unmoved_layout.bind fun _ =>
    (unmoved_word (by decide)).bind fun _ => unmoved_layout.bind fun _ =>
      (mirrors_valueRef hr).bind fun _ => .pure rfl

omit hr in
theorem mirrors_constForm : Mirrors r constForm (Form.mapNames r) constForm :=
  .either
    (.bind (unmoved_word (by decide)) fun _ => .bind unmoved_layout fun _ =>
      .bind
        ((mirrors_list (forward_spaced forward_constant) (mirrors_spaced unmoved_constant)).congr
        List.map_id) fun _ => .bind unmoved_layout fun _ =>
          .bind (unmoved_word (by decide)) fun _ => .pure rfl)
    (.bind unmoved_constant fun _ => .pure rfl)

/-- Of a lane of a slot the slot is renamed, and the number stays. -/
theorem mirrors_slotLane : Mirrors r slotLane (Prod.map r id) slotLane :=
  unmoved_layout.bind fun _ => (mirrors_valueRef hr).bind fun _ =>
    (unmoved_word (by decide)).bind fun _ => unmoved_layout.bind fun _ =>
      unmoved_index.bind fun _ => unmoved_layout.bind fun _ =>
        (unmoved_word (by decide)).bind fun _ => unmoved_layout.bind fun _ => .pure rfl

theorem mirrors_loadForm : Mirrors r loadForm (Form.mapNames r) loadForm :=
  .either
    (.bind (unmoved_word (by decide)) fun _ =>
      .bind (mirrors_list forward_slotLane (mirrors_slotLane hr)) fun _ =>
        .bind (unmoved_word (by decide)) fun _ => .pure rfl)
    (.bind (mirrors_valueRef hr) fun _ => .pure rfl)

/-- The name of a mask is renamed. -/
theorem mirrors_mask {name : String} (hname : ArePlain name.toList) :
    Mirrors r (mask name) r (mask name) :=
  unmoved_layout.bind fun _ => (unmoved_word hname).bind fun _ => unmoved_layout.bind fun _ =>
    (unmoved_word (by decide)).bind fun _ => unmoved_layout.bind fun _ =>
      (mirrors_valueRef hr).bind fun _ => unmoved_layout.bind fun _ =>
        (unmoved_word (by decide)).bind fun _ => .pure rfl

omit hr in
theorem unmoved_annotation : Unmoved r annotation :=
  unmoved_layout.bind fun _ => (unmoved_word (by decide)).bind fun _ => unmoved_layout.bind fun _ =>
    unmoved_ident

section Blocks

variable {b : Scan Draft} (hb : Mirrors r b (Draft.mapNames r) b)
include hb

/-- The form behind a keyword has its names renamed, those of its blocks included. -/
theorem mirrors_form (keyword : List Char) :
    Mirrors r (form b keyword)
      (fun p => (p.1.mapNames r, p.2.1.mapNames r, p.2.2.mapNames r)) (form b keyword) := by
  unfold form
  split
  · exact .pure rfl
  · exact mirrors_constForm.bind fun _ => .pure rfl
  · exact unmoved_index.bind fun _ => .pure rfl
  · exact (mirrors_loadForm hr).bind fun _ => .pure rfl
  · exact (mirrors_pair hr).bind fun _ => .pure rfl
  · exact (mirrors_valueRef hr).bind fun _ => .pure rfl
  · exact (mirrors_valueRef hr).bind fun _ => .pure rfl
  · have hotherwise : Mirrors r (otherwise b) (Draft.mapNames r) (otherwise b) :=
      unmoved_layout.bind fun _ => (unmoved_word (by decide)).bind fun _ =>
        unmoved_layout.bind fun _ => hb
    refine (mirrors_valueRef hr).bind fun _ => (mirrors_mask hr (by decide)).optional.bind fun _ =>
      (mirrors_mask hr (by decide)).optional.bind fun _ => unmoved_layout.bind fun _ =>
        hb.bind fun _ => hotherwise.optional.bind fun second => .pure ?_
    cases second <;> rfl
  · exact (mirrors_mask hr (by decide)).optional.bind fun _ => unmoved_layout.bind fun _ =>
      hb.bind fun _ => .pure rfl
  · exact (mirrors_valueRef hr).bind fun _ => unmoved_layout.bind fun _ =>
      (unmoved_word (by decide)).bind fun _ => unmoved_layout.bind fun _ =>
        (mirrors_valueRef hr).bind fun _ => (unmoved_word (by decide)).bind fun _ =>
          (mirrors_valueRef hr).bind fun _ => unmoved_layout.bind fun _ =>
            hb.bind fun _ => .pure rfl
  · exact (mirrors_list (forward_spaced forward_valueRef)
      (mirrors_spaced (mirrors_valueRef hr))).bind
      fun _ => (unmoved_word (by decide)).bind fun _ => unmoved_layout.bind fun _ =>
        unmoved_symbol.bind fun _ => unmoved_layout.bind fun _ => hb.bind fun _ => .pure rfl
  · refine (mirrors_pair hr).bind fun _ => .pure ?_
    dsimp only
    split <;> rfl

/-- So has a statement, with its result and its type. -/
theorem mirrors_statement : Mirrors r (statement b)
    (fun p => (p.1.mapNames r, p.2.1.mapNames r, p.2.2.mapNames r)) (statement b) :=
  (mirrors_result hr).optional.bind fun _ => unmoved_ident.bind fun keyword =>
    unmoved_layout.bind fun _ => (mirrors_form hr hb keyword).bind fun _ =>
      unmoved_annotation.optional.bind fun _ => .pure rfl

end Blocks

omit hr in
/-- So have the statements of a block. -/
theorem mirrors_statements {s : Scan (Head × Draft × Draft)}
    (hs : Mirrors r s (fun p => (p.1.mapNames r, p.2.1.mapNames r, p.2.2.mapNames r)) s)
    (bound : Nat) :
    Mirrors r (statements s bound) (Draft.mapNames r) (statements s bound) := by
  induction bound with
  | zero => exact mirrors_fail
  | succ bound ih =>
    let more : Scan Draft := s >>= fun p =>
      statements s bound >>= fun rest => pure (.cons p.1 p.2.1 p.2.2 rest)
    have hmore : Mirrors r more (Draft.mapNames r) more :=
      .bind hs fun _ => .bind ih fun _ => .pure rfl
    -- behind layout both texts begin alike
    have hcases : ∀ text, (∃ tail,
          statements s (bound + 1) text = .ok (.nil, tail) ∧
          statements s (bound + 1) (renameValues r text) = .ok (.nil, renameValues r tail)) ∨
        ∃ line, statements s (bound + 1) text = more line ∧
          statements s (bound + 1) (renameValues r text) = more (renameValues r line) := by
      intro text
      have hline := dropLayout_renameValues (r := r) text
      cases htext : dropLayout false text with
      | nil =>
        rw [htext] at hline
        exact .inl ⟨[], statements_end htext, statements_end hline⟩
      | cons c cs =>
        rw [htext] at hline
        by_cases hc : c = '\x7d'
        · subst hc
          have htail := renameValues_cons (r := r) (c := '\x7d') (by decide) cs
          refine .inl ⟨'\x7d' :: cs, statements_nil htext, ?_⟩
          rw [htail] at hline ⊢
          exact statements_nil hline
        · obtain ⟨run, hrun⟩ := exists_renameValues_cons r c cs
          refine .inr ⟨c :: cs, statements_cons htext hc, ?_⟩
          rw [hrun] at hline ⊢
          exact statements_cons hline hc
    constructor
    · intro text draft rest hread
      obtain ⟨tail, h, h'⟩ | ⟨line, h, h'⟩ := hcases text
      · obtain ⟨rfl, rfl⟩ := Prod.mk.inj (Except.ok.inj (h.symm.trans hread))
        exact h'
      · exact h'.trans (hmore.ok (h.symm.trans hread))
    · intro text stop hread
      obtain ⟨tail, h, -⟩ | ⟨line, h, h'⟩ := hcases text
      · cases h.symm.trans hread
      · rw [h']
        exact hmore.error (h.symm.trans hread)

/-- So has a block, to whatever depth it is read. -/
theorem mirrors_block (depth : Nat) : Mirrors r (block depth) (Draft.mapNames r) (block depth) := by
  induction depth with
  | zero => exact mirrors_fail
  | succ depth ih =>
    let body : Scan Draft := fun text => statements (statement (block depth)) (text.length + 1) text
    have hbody : Mirrors r body (Draft.mapNames r) body :=
      .bounded (p := fun n => statements (statement (block depth)) (n + 1))
        (fun n => mirrors_statements (mirrors_statement hr ih) (n + 1)) fun hle =>
          statements_eq_of_length_lt (consumes_statement (forward_block depth)) (Nat.lt_succ_self _)
            (Nat.lt_succ_of_le hle)
    change Mirrors r (do word "\x7b"; let d ← body; word "\x7d"; return d) (Draft.mapNames r)
      (do word "\x7b"; let d ← body; word "\x7d"; return d)
    exact .bind (unmoved_word (by decide)) fun _ => .bind hbody fun _ =>
      .bind (unmoved_word (by decide)) fun _ => .pure rfl

/-- So has a kernel, which keeps its own name. -/
theorem mirrors_kernel (depth : Nat) :
    Mirrors r (kernel depth) (Prod.map id (Draft.mapNames r)) (kernel depth) :=
  .bind unmoved_layout fun _ => .bind (unmoved_word (by decide)) fun _ =>
    .bind unmoved_layout fun _ => .bind unmoved_symbol fun _ =>
      .bind unmoved_layout fun _ => .bind (mirrors_block hr depth) fun _ => .pure rfl

end Parts

end Scan

/-- A renamed text is read if and only if the text is, and then as the renamed draft. -/
theorem readKernel_renameValues {r : ValueName → ValueName} (hr : KeepsNames r) (text : List Char) :
    (∃ name draft, readKernel text = .ok (name, draft) ∧
        readKernel (renameValues r text) = .ok (name, draft.mapNames r)) ∨
      ∃ e e', readKernel text = .error e ∧ readKernel (renameValues r text) = .error e' := by
  have hkernel : Scan.Mirrors r (fun text => Scan.kernel (text.length + 1) text)
      (Prod.map id (Draft.mapNames r)) (fun text => Scan.kernel (text.length + 1) text) :=
    .bounded (p := fun n => Scan.kernel (n + 1)) (fun n => Scan.mirrors_kernel hr (n + 1))
      fun hle =>
      Scan.kernel_eq_of_length_lt (Nat.lt_succ_self _) (Nat.lt_succ_of_le hle)
  unfold readKernel
  cases hread : Scan.kernel (text.length + 1) text with
  | error stop =>
    obtain ⟨stop', hstop⟩ := hkernel.error hread
    rw [hstop]
    exact .inr ⟨_, _, rfl, rfl⟩
  | ok p =>
    obtain ⟨⟨name, draft⟩, rest⟩ := p
    rw [hkernel.ok hread]
    dsimp only
    rw [dropLayout_renameValues]
    -- what is left behind the kernel begins alike
    cases dropLayout false rest with
    | nil => exact .inl ⟨name, draft, rfl, rfl⟩
    | cons c cs =>
      obtain ⟨run, hrun⟩ := exists_renameValues_cons r c cs
      rw [hrun]
      exact .inr ⟨_, _, rfl, rfl⟩

end KernelIR
