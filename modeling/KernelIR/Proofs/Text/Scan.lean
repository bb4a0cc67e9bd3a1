import KernelIR.Text.Literal
import KernelIR.Text.Print

/-!
# Reading what is there

What the parts of the grammar read when the text begins with what they look for. A part that
reads as far as it can needs to know where it stops (`Scan.Ends`); words and layout do not.

`Scan.Ensures` says what holds of everything that a part reads, whatever the text is.
-/

namespace KernelIR

namespace Scan

variable {α β : Type} {text rest : List Char}

/-! ## Sequences and alternatives -/

/-- Behind a part that reads something, the next part goes on. -/
theorem bind_of_ok {x : Scan α} {f : α → Scan β} {a : α} {r : List Char} (h : x text = .ok (a, r)) :
    (x >>= f) text = f a r := by
  simp [bind, StateT.bind, Except.bind, h]

/-- A part that reads nothing ends the whole. -/
theorem bind_of_error {x : Scan α} {f : α → Scan β} {s : Stop} (h : x text = .error s) :
    (x >>= f) text = .error s := by
  simp [bind, StateT.bind, Except.bind, h]

/-- What two parts read together, the first one reads in front of the second one. -/
theorem exists_of_bind {x : Scan α} {f : α → Scan β} {b : β}
    (h : (x >>= f) text = .ok (b, rest)) :
    ∃ a mid, x text = .ok (a, mid) ∧ f a mid = .ok (b, rest) := by
  cases hx : x text with
  | error stop => cases (bind_of_error hx).symm.trans h
  | ok p => exact ⟨p.1, p.2, rfl, (bind_of_ok hx).symm.trans h⟩

/-- A part that may be left out is read if it is there. -/
theorem optional_of_ok {part : Scan α} {a : α} {r : List Char} (h : part text = .ok (a, r)) :
    optional part text = .ok (some a, r) := by
  simp [optional, h]

/-- It is left out if it cannot be read. -/
theorem optional_of_error {part : Scan α} {s : Stop} (h : part text = .error s) :
    optional part text = .ok (none, text) := by
  simp [optional, h]

/-- The first of two ways is taken if it can be. -/
theorem either_of_ok {first second : Scan α} {a : α} (h : first text = .ok (a, rest)) :
    either first second text = .ok (a, rest) := by
  simp [either, h]

/-- Else the second one is taken, from where the first one began. -/
theorem either_of_error {first second : Scan α} {stop : Stop} (h : first text = .error stop) :
    either first second text = second text := by
  simp [either, h]

/-! ## Runs of characters -/

/-- The text does not go on with a character that passes the test. -/
def Ends (test : Char → Bool) (text : List Char) : Prop :=
  ∀ c ∈ text.head?, test c = false

/-- The end of a text ends everything. -/
@[simp]
theorem ends_nil {test : Char → Bool} : Ends test [] := by
  simp [Ends]

theorem ends_cons {test : Char → Bool} {c : Char} (h : test c = false) (rest : List Char) :
    Ends test (c :: rest) := by
  simpa [Ends] using h

/-- A text that does not end before a character begins with it. -/
theorem exists_cons_of_not_ends {d : Char} (h : ¬Ends (· == d) text) :
    ∃ tail, text = d :: tail := by
  cases text with
  | nil => exact absurd ends_nil h
  | cons c tail => exact ⟨tail, by simpa [Ends] using h⟩

theorem char_cons {test : Char → Bool} {c : Char} (h : test c = true) (rest : List Char) :
    char test (c :: rest) = .ok (c, rest) := by
  rw [char, if_pos h]

/-- A character that does not pass the test is not read. -/
theorem char_error {test : Char → Bool} (h : Ends test text) :
    char test text = .error ⟨text, .unexpected⟩ := by
  cases text with
  | nil => rfl
  | cons c rest => rw [char, if_neg (by simp [h c rfl])]

theorem ends_of_char {test : Char → Bool} {stop : Stop} (h : char test text = .error stop) :
    Ends test text := by
  cases text with
  | nil => exact ends_nil
  | cons c rest =>
    refine ends_cons (Bool.eq_false_iff.2 fun hc => ?_) rest
    cases (char_cons hc rest).symm.trans h

/-- Nothing to read means that the characters in question end here. -/
theorem ends_of_many1 {test : Char → Bool} {stop : Stop} (h : many1 test text = .error stop) :
    Ends test text := by
  cases hchar : char test text with
  | error stop' => exact ends_of_char hchar
  | ok p => cases ((bind_of_ok hchar).trans (bind_of_ok rfl)).symm.trans h

/-- Characters that pass a test are read up to the first one that does not. -/
theorem many_append {test : Char → Bool} {cs : List Char} (hcs : ∀ c ∈ cs, test c = true)
    (hrest : Ends test rest) : many test (cs ++ rest) = .ok (cs, rest) := by
  have hnil : rest.takeWhile test = [] ∧ rest.dropWhile test = rest := by
    cases rest with
    | nil => simp
    | cons c rest =>
      have hc : test c = false := hrest c rfl
      simp [hc]
  rw [many, List.takeWhile_append_of_pos hcs, List.dropWhile_append_of_pos hcs, hnil.1, hnil.2,
    List.append_nil]

/-- The same if there has to be one of them. -/
theorem many1_append {test : Char → Bool} {cs : List Char} (hne : cs ≠ [])
    (hcs : ∀ c ∈ cs, test c = true) (hrest : Ends test rest) :
    many1 test (cs ++ rest) = .ok (cs, rest) := by
  cases cs with
  | nil => exact absurd rfl hne
  | cons c cs =>
    rw [List.cons_append, many1, bind_of_ok (char_cons (hcs c List.mem_cons_self) _),
      bind_of_ok (many_append (fun d hd => hcs d (List.mem_cons_of_mem c hd)) hrest)]
    rfl

theorem isPrefixOf?_cons (c d : Char) (cs ds : List Char) :
    (c :: cs).isPrefixOf? (d :: ds) = if c == d then cs.isPrefixOf? ds else none :=
  rfl

/-- A word is not there if the text begins with another character. -/
theorem word_error {w : String} {d : Char} {ds : List Char} (hw : w.toList = d :: ds)
    (h : Ends (· == d) text) : word w text = .error ⟨text, .unexpected⟩ := by
  rw [word, hw]
  cases text with
  | nil => rfl
  | cons c text =>
    have hc : (d == c) = false := BEq.comm.trans (h c rfl)
    rw [isPrefixOf?_cons, hc]
    rfl

/-- A word is read where it is written. -/
theorem word_append (w : String) (rest : List Char) :
    word w (w.toList ++ rest) = .ok ((), rest) := by
  have hprefix : ∀ cs : List Char, cs.isPrefixOf? (cs ++ rest) = some rest := by
    intro cs
    induction cs with
    | nil => rfl
    | cons c cs ih => rw [List.cons_append, isPrefixOf?_cons, beq_self_eq_true, if_pos rfl, ih]
  rw [word, hprefix]

theorem bind_word (w : String) {f : Unit → Scan α} :
    (word w >>= f) (w.toList ++ rest) = f () rest :=
  bind_of_ok (word_append w rest)

/-- A sign is a word of one character. -/
theorem bind_sign {w : String} {c : Char} (hw : w.toList = [c]) {f : Unit → Scan α} :
    (word w >>= f) (c :: rest) = f () rest := by
  have h := word_append w rest
  rw [hw] at h
  exact bind_of_ok h

/-! ## Names -/

/-- Letters, digits and underscores, at least one. -/
def IsName (name : List Char) : Prop :=
  name ≠ [] ∧ ∀ c ∈ name, isNameChar c = true

/-- A number written out is a name. -/
theorem isName_natText (n : Nat) : IsName (natText n) :=
  ⟨natText_ne_nil n, fun c hc => by
    simp [isNameChar, Char.isAlphanum, isDigit_of_mem_natText hc]⟩

/-- A name behind its sign is read up to where it ends. -/
theorem valueRef_append {name : List Char} (h : IsName name) (hrest : Ends isNameChar rest) :
    valueRef ('%' :: name ++ rest) = .ok (name, rest) := by
  rw [valueRef, List.cons_append, bind_of_ok (a := ()) (r := name ++ rest) rfl]
  exact many1_append h.1 h.2 hrest

theorem symbol_append {name r : List Char} (h : IsName name) (hrest : Ends isNameChar r) :
    symbol ('@' :: name ++ r) = .ok (name, r) := by
  rw [symbol, List.cons_append, bind_of_ok (a := ()) (r := name ++ r) rfl]
  exact many1_append h.1 h.2 hrest

/-- A name that does not begin with a digit. -/
def IsWord (name : List Char) : Prop :=
  IsName name ∧ ∀ c ∈ name.head?, (c.isAlpha || c == '_') = true

instance (name : List Char) : Decidable (IsWord name) :=
  decidable_of_iff ((name ≠ [] ∧ name.all isNameChar = true) ∧
      name.head?.all (fun c => c.isAlpha || c == '_') = true) <| by
    simp [IsWord, IsName, Option.all_eq_true]

/-- A word is read up to where it ends. -/
theorem ident_append {name : List Char} (h : IsWord name) (hrest : Ends isNameChar rest) :
    ident (name ++ rest) = .ok (name, rest) := by
  obtain ⟨⟨hne, hall⟩, hhead⟩ := h
  cases name with
  | nil => exact absurd rfl hne
  | cons c cs =>
    have hc : (c.isAlpha || c == '_') = true := hhead c rfl
    have hchar : char (fun c => c.isAlpha || c == '_') (c :: (cs ++ rest)) =
      .ok (c, cs ++ rest) := by
      simp only [char, hc, if_true]
    rw [List.cons_append, ident, bind_of_ok hchar,
      bind_of_ok (many_append (fun d hd => hall d (List.mem_cons_of_mem c hd)) hrest)]
    rfl

/-! ## Layout -/

/-- The text does not begin with layout. -/
def Solid (text : List Char) : Prop :=
  ∃ c rest, text = c :: rest ∧ isBlank c = false ∧ c ≠ '/'

/-- In front of a solid text there is no layout. -/
theorem dropLayout_of_solid (h : Solid text) : dropLayout false text = text := by
  obtain ⟨c, rest, rfl, hblank, hslash⟩ := h
  rw [dropLayout]
  · simp [hblank]
  · rintro _ rfl
    exact fun _ => hslash rfl

theorem layout_of_solid (h : Solid text) : layout text = .ok ((), text) := by
  rw [layout, dropLayout_of_solid h]

theorem bind_layout {f : Unit → Scan α} (h : Solid text) : (layout >>= f) text = f () text :=
  bind_of_ok (layout_of_solid h)

/-- A blank in front of a solid text is layout. -/
theorem bind_layout_blank {f : Unit → Scan α} (h : Solid text) :
    (layout >>= f) (' ' :: text) = f () text :=
  bind_of_ok (layout_of_solid h)

/-- Layout is in front of what is left. -/
theorem dropLayout_suffix (inside : Bool) (text : List Char) : dropLayout inside text <:+ text := by
  fun_induction dropLayout inside text with
  | case1 => exact List.suffix_refl _
  | case2 c rest ih => exact ih.trans (List.suffix_cons _ _)
  | case3 rest ih => exact ih.trans ((List.suffix_cons _ _).trans (List.suffix_cons _ _))
  | case4 c rest _ _ ih => exact ih.trans (List.suffix_cons _ _)
  | case5 => exact List.suffix_refl _

/-- Behind the layout there is no more of it. -/
theorem dropLayout_dropLayout (inside : Bool) (text : List Char) :
    dropLayout false (dropLayout inside text) = dropLayout inside text := by
  fun_induction dropLayout inside text with
  | case1 => rfl
  | case2 c rest ih => exact ih
  | case3 rest ih => exact ih
  | case4 c rest hc hblank ih => exact ih
  | case5 c rest hc hblank =>
    rw [dropLayout, if_neg hblank]
    exact hc

/-- An indentation is layout. -/
theorem dropLayout_indent (n : Nat) (text : List Char) :
    dropLayout false (List.replicate n ' ' ++ text) = dropLayout false text := by
  induction n with
  | zero => rfl
  | succ n ih =>
    rw [List.replicate_succ]
    exact ih

/-- A text is solid if it begins with what is neither a blank nor a slash. -/
theorem solid_cons {c : Char} (hblank : isBlank c = false) (hslash : c ≠ '/') (rest : List Char) :
    Solid (c :: rest) :=
  ⟨c, rest, rfl, hblank, hslash⟩

theorem isBlank_of_isNameChar {c : Char} (h : isNameChar c = true) :
    isBlank c = false ∧ c ≠ '/' := by
  have hne : ∀ d, isNameChar d = false → c ≠ d := by
    rintro d hd rfl
    simp [hd] at h
  simp [isBlank, hne ' ' (by decide), hne '\t' (by decide), hne '\n' (by decide),
    hne '\x0c' (by decide), hne '\r' (by decide), hne '/' (by decide)]

theorem IsName.solid {name : List Char} (h : IsName name) (rest : List Char) :
    Solid (name ++ rest) := by
  obtain ⟨hne, hall⟩ := h
  cases name with
  | nil => exact absurd rfl hne
  | cons c cs =>
    obtain ⟨hblank, hslash⟩ := isBlank_of_isNameChar (hall c List.mem_cons_self)
    exact solid_cons hblank hslash _

/-! ## Lists -/

section Lists

variable {item : Scan α} {f : β → List Char} {g : β → α} {last last' : List Char}

/-- Items that each follow a comma, in front of `last`. -/
def following (f : β → List Char) (last : List Char) : List β → List Char
  | [] => last
  | b :: l => ',' :: ' ' :: f b ++ following f last l

/-- A list in commas is its first item and what follows it. -/
theorem commaSeparated_append (f : β → List Char) (last : List Char) (b : β) (l : List β) :
    commaSeparated ((b :: l).map f) ++ last = f b ++ following f last l := by
  induction l generalizing b with
  | nil => simp [commaSeparated, following, List.intercalate]
  | cons d l ih =>
    have hcons : commaSeparated ((b :: d :: l).map f) =
        f b ++ ([',', ' '] ++ commaSeparated ((d :: l).map f)) := by
      simp [commaSeparated, List.intercalate]
    rw [hcons, List.append_assoc, List.append_assoc, ih d]
    rfl

/-- Each item that follows takes a character at least. -/
theorem length_le_following (f : β → List Char) (last : List Char) (l : List β) :
    l.length ≤ (following f last l).length := by
  induction l with
  | nil => exact Nat.zero_le _
  | cons b l ih =>
    simp only [following, List.cons_append, List.length_cons, List.length_append]
    omega

/-- Items with commas between them. An item may skip layout behind it, so `last'` is what it
leaves of `last`. -/
theorem list_commaSeparated (hblank : ∀ text, item (' ' :: text) = item text) {l : List β}
    (hl : l ≠ []) (hmid : ∀ b ∈ l, ∀ tail, item (f b ++ ',' :: tail) = .ok (g b, ',' :: tail))
    (hlast : ∀ b ∈ l, item (f b ++ last) = .ok (g b, last')) (hend : Ends (· == ',') last') :
    list item (commaSeparated (l.map f) ++ last) = .ok (l.map g, last') := by
  -- what the item in front of `following f last l` leaves
  let left : List β → List Char := fun l => if l = [] then last' else following f last l
  have hitem : ∀ b l', b ∈ l → item (f b ++ following f last l') = .ok (g b, left l') := by
    intro b l' hb
    cases l' with
    | nil => exact hlast b hb
    | cons d l' => exact hmid b hb _
  have hfollowers : ∀ l' n, l' ⊆ l → l'.length ≤ n →
      followers item n (left l') = .ok (l'.map g, last') := by
    intro l'
    induction l' with
    | nil =>
      intro n _ _
      cases n with
      | zero => rfl
      | succ n =>
        have hnone : optional (do word ","; item : Scan α) last' = .ok (none, last') :=
          optional_of_error (bind_of_error (word_error rfl hend))
        exact bind_of_ok hnone
    | cons b l' ih =>
      intro n hsub hn
      cases n with
      | zero => simp at hn
      | succ n =>
        have hb : b ∈ l := hsub List.mem_cons_self
        have hread : (do word ","; item : Scan α) (left (b :: l')) = .ok (g b, left l') := by
          change (do word ","; item : Scan α) (',' :: ' ' :: (f b ++ following f last l')) = _
          rw [bind_of_ok (a := ()) (r := ' ' :: (f b ++ following f last l')) rfl, hblank]
          exact hitem b l' hb
        rw [followers, bind_of_ok (optional_of_ok hread)]
        exact bind_of_ok (ih n (fun d hd => hsub (List.mem_cons_of_mem b hd))
          (Nat.le_of_succ_le_succ hn))
  cases l with
  | nil => exact absurd rfl hl
  | cons b l =>
    rw [commaSeparated_append, list, bind_of_ok (hitem b l List.mem_cons_self),
      bind_of_ok (a := left l) (r := left l) rfl]
    refine bind_of_ok (hfollowers l _ (List.subset_cons_self b l) ?_)
    cases l with
    | nil => exact Nat.zero_le _
    | cons d l => exact length_le_following f last (d :: l)

end Lists

/-! ## What holds of everything that is read -/

/-- Everything that the part reads is as `P` says. -/
def Ensures (x : Scan α) (P : α → Prop) : Prop :=
  ∀ text a rest, x text = .ok (a, rest) → P a

/-- What the first part ensures can be used for the second one. -/
theorem Ensures.bind {x : Scan α} {f : α → Scan β} {P : α → Prop} {Q : β → Prop}
    (hx : Ensures x P) (hf : ∀ a, P a → Ensures (f a) Q) : Ensures (x >>= f) Q := by
  intro text b rest h
  obtain ⟨a, mid, ha, hb⟩ := exists_of_bind h
  exact hf a (hx _ _ _ ha) _ _ _ hb

/-- What is read in front does not matter. -/
theorem Ensures.seq {x : Scan α} {f : α → Scan β} {Q : β → Prop} (hf : ∀ a, Ensures (f a) Q) :
    Ensures (x >>= f) Q :=
  .bind (P := fun _ => True) (fun _ _ _ _ => trivial) fun a _ => hf a

theorem Ensures.pure {a : α} {P : α → Prop} (h : P a) : Ensures (Pure.pure a) P := by
  intro text b rest hb
  obtain ⟨rfl, -⟩ := Prod.mk.inj (Except.ok.inj hb)
  exact h

theorem Ensures.optional {x : Scan α} {P : α → Prop} (hx : Ensures x P) :
    Ensures (optional x) fun a? => ∀ a ∈ a?, P a := by
  intro text a? rest h
  cases hx' : x text with
  | error stop =>
    obtain ⟨rfl, -⟩ := Prod.mk.inj (Except.ok.inj ((optional_of_error hx').symm.trans h))
    simp
  | ok p =>
    obtain ⟨rfl, -⟩ := Prod.mk.inj (Except.ok.inj ((optional_of_ok hx').symm.trans h))
    simpa using hx _ _ _ hx'

/-- Both ways have to ensure it. -/
theorem Ensures.either {x y : Scan α} {P : α → Prop} (hx : Ensures x P) (hy : Ensures y P) :
    Ensures (either x y) P := by
  intro text a rest h
  cases hx' : x text with
  | error stop => exact hy _ _ _ ((either_of_error hx').symm.trans h)
  | ok p =>
    obtain ⟨rfl, -⟩ := Prod.mk.inj (Except.ok.inj ((either_of_ok hx').symm.trans h))
    exact hx _ _ _ hx'

theorem Ensures.followers {item : Scan α} {P : α → Prop} (h : Ensures item P) (n : Nat) :
    Ensures (followers item n) fun l => ∀ a ∈ l, P a := by
  induction n with
  | zero => exact .pure (by simp)
  | succ n ih =>
    rw [Scan.followers]
    refine .bind (.optional (.seq fun _ => h)) fun a? ha => ?_
    cases a? with
    | none => exact .pure (by simp)
    | some a => exact .bind ih fun l hl => .pure (by simpa using ⟨ha a rfl, hl⟩)

/-- A list has an item, and each item is as the reader of items ensures. -/
theorem Ensures.list {item : Scan α} {P : α → Prop} (h : Ensures item P) :
    Ensures (list item) fun l => l ≠ [] ∧ ∀ a ∈ l, P a :=
  .bind h fun a ha => .seq fun _ => .bind (.followers h _) fun l hl =>
    .pure ⟨List.cons_ne_nil a l, by simpa using ⟨ha, hl⟩⟩

/-- All that is read passes the test. -/
theorem Ensures.many (test : Char → Bool) : Ensures (many test) fun cs =>
    ∀ c ∈ cs, test c = true := by
  intro text cs rest h
  obtain ⟨rfl, -⟩ := Prod.mk.inj (Except.ok.inj h)
  exact fun c hc => List.all_eq_true.1 List.all_takeWhile c hc

theorem Ensures.char (test : Char → Bool) : Ensures (char test) fun c => test c = true := by
  intro text c rest h
  cases text with
  | nil => cases h
  | cons d text =>
    rw [Scan.char] at h
    split at h
    · next hd =>
      obtain ⟨rfl, -⟩ := Prod.mk.inj (Except.ok.inj h)
      exact hd
    · cases h

/-- Behind its sign, a symbol is a name. -/
theorem Ensures.symbol : Ensures symbol IsName :=
  .seq fun _ => .bind (.char isNameChar) fun c hc => .bind (.many isNameChar) fun cs hcs =>
    .pure ⟨List.cons_ne_nil c cs, by simpa using ⟨hc, hcs⟩⟩

end Scan

end KernelIR
