import Mathlib.Data.List.Basic
import KernelIR.Proofs.Text.Literal
import KernelIR.Text.Parse

/-!
# Reading only goes forward

Every part of the grammar leaves a suffix of the text that it was given, and also stops at one if it
fails (`Scan.Forward`) : what is tried and forgotten takes the text back to where it was tried, and
no further. So an error is always reported at a place in the text (`within_of_readKernel`).

Blocks and statements are read down to bounds that the length of the text gives. No text reaches
them : each block and each statement takes a character, so with greater bounds the same is read, and
the same errors are found (`Scan.kernel_eq_of_length_lt`, `Scan.statements_eq_of_length_lt`). Both
are shown at once : `Scan.Agree` says that two parts read alike on short texts and that the
first only goes forward.
-/

namespace KernelIR

namespace Scan

variable {α β : Type} {x y : Scan α} {f g : α → Scan β} {text rest : List Char} {n m : Nat}

/-- Parts that read the same here leave the same to the next part. -/
theorem bind_congr_of_eq (h : x text = y text) : (x >>= f) text = (y >>= f) text := by
  simp only [Bind.bind, StateT.bind, h]

/-- The parts read alike on texts shorter than `n`, and the first leaves a suffix of every text. -/
structure Agree (n : Nat) (x y : Scan α) : Prop where
  eq : ∀ {text}, text.length < n → x text = y text
  ok : ∀ {text a rest}, x text = .ok (a, rest) → rest <:+ text
  error : ∀ {text stop}, x text = .error stop → stop.rest <:+ text

/-- The part leaves a suffix of every text. -/
abbrev Forward (x : Scan α) : Prop :=
  ∀ {n : Nat}, Agree n x x

/-- The part takes at least one character. -/
def Consumes (x : Scan α) : Prop :=
  ∀ text a rest, x text = .ok (a, rest) → rest.length < text.length

/-- A part that agrees with another one reads forward. -/
theorem Agree.forward (h : Agree n x y) : Forward x :=
  ⟨fun _ => rfl, h.ok, h.error⟩

/-- What is left behind a part is an end of the text. -/
theorem suffix_of_ok {a : α} (hx : Forward x) (h : x text = .ok (a, rest)) : rest <:+ text :=
  (hx (n := 0)).ok h

/-- So is what is left at an error. -/
theorem suffix_of_error {stop : Stop} (hx : Forward x) (h : x text = .error stop) :
    stop.rest <:+ text :=
  (hx (n := 0)).error h

namespace Agree

/-- Parts that agree on texts of a length agree on shorter ones. -/
theorem mono (h : Agree n x y) (hle : m ≤ n) : Agree m x y :=
  ⟨fun hlt => h.eq (Nat.lt_of_lt_of_le hlt hle), h.ok, h.error⟩

/-- What follows a part is only given suffixes of a text, and shorter ones if the part takes
something. -/
theorem bind_of_shorter (hx : Agree n x y) (hf : ∀ a, Agree m (f a) (g a))
    (hshort : ∀ {text a rest}, text.length < n → x text = .ok (a, rest) → rest.length < m) :
    Agree n (x >>= f) (y >>= g) where
  eq {text} hlt := by
    have heq := hx.eq hlt
    rw [← bind_congr_of_eq heq]
    cases h : x text with
    | error stop => rw [bind_of_error h, bind_of_error h]
    | ok p =>
      rw [bind_of_ok h, bind_of_ok h]
      exact (hf p.1).eq (hshort hlt h)
  ok h := by
    obtain ⟨a, mid, ha, hb⟩ := exists_of_bind h
    exact ((hf a).ok hb).trans (hx.ok ha)
  error {text stop} h := by
    cases hx' : x text with
    | error stop' =>
      obtain rfl := Except.error.inj ((bind_of_error hx').symm.trans h)
      exact hx.error hx'
    | ok p => exact ((hf p.1).error ((bind_of_ok hx').symm.trans h)).trans (hx.ok hx')

theorem bind (hx : Agree n x y) (hf : ∀ a, Agree n (f a) (g a)) : Agree n (x >>= f) (y >>= g) :=
  hx.bind_of_shorter hf fun hlt h => Nat.lt_of_le_of_lt (hx.ok h).length_le hlt

/-- Behind a part that takes a character, the next parts need to agree on shorter texts only. -/
theorem bind_of_consumes (hx : Forward x) (hc : Consumes x) (hf : ∀ a, Agree n (f a) (g a)) :
    Agree (n + 1) (x >>= f) (x >>= g) :=
  hx.bind_of_shorter hf fun hlt h =>
    Nat.lt_of_lt_of_le (hc _ _ _ h) (Nat.le_of_lt_succ hlt)

protected theorem pure (a : α) : Agree n (Pure.pure a) (Pure.pure a) where
  eq _ := rfl
  ok h := by
    obtain ⟨-, rfl⟩ := Prod.mk.inj (Except.ok.inj h)
    exact List.suffix_refl _
  error h := by cases h

/-- A part that fails is forgotten with what it took. -/
theorem optional (h : Agree n x y) : Agree n (optional x) (optional y) where
  eq hlt := by rw [Scan.optional, h.eq hlt, Scan.optional]
  ok {text a? rest} hrun := by
    cases hx : x text with
    | error stop =>
      obtain ⟨-, rfl⟩ := Prod.mk.inj (Except.ok.inj ((optional_of_error hx).symm.trans hrun))
      exact List.suffix_refl _
    | ok p =>
      obtain ⟨-, rfl⟩ := Prod.mk.inj (Except.ok.inj ((optional_of_ok hx).symm.trans hrun))
      exact h.ok hx
  error {text stop} hrun := by
    cases hx : x text with
    | error stop => cases (optional_of_error hx).symm.trans hrun
    | ok p => cases (optional_of_ok hx).symm.trans hrun

theorem either {x' y' : Scan α} (h : Agree n x y) (h' : Agree n x' y') :
    Agree n (either x x') (either y y') where
  eq hlt := by rw [Scan.either, h.eq hlt, h'.eq hlt, Scan.either]
  ok {text a rest} hrun := by
    cases hx : x text with
    | error stop => exact h'.ok ((either_of_error hx).symm.trans hrun)
    | ok p =>
      obtain ⟨-, rfl⟩ := Prod.mk.inj (Except.ok.inj ((either_of_ok hx).symm.trans hrun))
      exact h.ok hx
  error {text stop} hrun := by
    cases hx : x text with
    | error stop' => exact h'.error ((either_of_error hx).symm.trans hrun)
    | ok p => cases (either_of_ok hx).symm.trans hrun

end Agree

/-! ## What takes characters -/

/-- Two parts take a character if the first one does. -/
theorem Consumes.bind (hx : Consumes x) (hf : ∀ a, Forward (f a)) : Consumes (x >>= f) := by
  intro text b rest h
  obtain ⟨a, mid, ha, hb⟩ := exists_of_bind h
  exact Nat.lt_of_le_of_lt (suffix_of_ok (hf a) hb).length_le (hx _ _ _ ha)

/-- They do so, too, if the second one does. -/
theorem Consumes.seq (hx : Forward x) (hf : ∀ a, Consumes (f a)) : Consumes (x >>= f) := by
  intro text b rest h
  obtain ⟨a, mid, ha, hb⟩ := exists_of_bind h
  exact Nat.lt_of_lt_of_le (hf a _ _ _ hb) (suffix_of_ok hx ha).length_le

/-- A word that is read stands in front. -/
theorem append_of_word {w : String} (h : word w text = .ok ((), rest)) :
    w.toList ++ rest = text := by
  unfold word at h
  split at h
  · next hprefix =>
    obtain ⟨-, rfl⟩ := Prod.mk.inj (Except.ok.inj h)
    exact List.append_eq_of_isPrefixOf?_eq_some hprefix
  · cases h

theorem cons_of_char {test : Char → Bool} {c : Char} (h : char test text = .ok (c, rest)) :
    text = c :: rest ∧ test c = true := by
  cases text with
  | nil => cases h
  | cons d text =>
    rw [char] at h
    split at h
    · next hd =>
      obtain ⟨rfl, rfl⟩ := Prod.mk.inj (Except.ok.inj h)
      exact ⟨rfl, hd⟩
    · cases h

/-- A word that is not empty takes a character. -/
theorem consumes_word {w : String} (hw : w.toList ≠ []) : Consumes (word w) := by
  intro text _ rest h
  rw [← append_of_word h, List.length_append]
  exact Nat.lt_add_of_pos_left (List.length_pos_iff.2 hw)

theorem consumes_char (test : Char → Bool) : Consumes (char test) := by
  intro text c rest h
  rw [(cons_of_char h).1]
  exact Nat.lt_succ_self _

/-! ## Words, names and layout -/

theorem forward_fail : Forward (fail : Scan α) where
  eq _ := rfl
  ok h := by cases h
  error h := by
    obtain rfl := Except.error.inj h
    exact List.suffix_refl _

theorem forward_get : Forward (get : Scan (List Char)) where
  eq _ := rfl
  ok h := by
    obtain ⟨-, rfl⟩ := Prod.mk.inj (Except.ok.inj h)
    exact List.suffix_refl _
  error h := by cases h

theorem forward_word (w : String) : Forward (word w) where
  eq _ := rfl
  ok h := append_of_word h ▸ List.suffix_append _ _
  error h := by
    unfold word at h
    split at h
    · cases h
    · obtain rfl := Except.error.inj h
      exact List.suffix_refl _

theorem forward_char (test : Char → Bool) : Forward (char test) where
  eq _ := rfl
  ok h := (cons_of_char h).1 ▸ List.suffix_cons _ _
  error {text stop} h := by
    cases text with
    | nil =>
      obtain rfl := Except.error.inj h
      exact List.suffix_refl _
    | cons c text =>
      rw [char] at h
      split at h
      · cases h
      · obtain rfl := Except.error.inj h
        exact List.suffix_refl _

theorem forward_many (test : Char → Bool) : Forward (many test) where
  eq _ := rfl
  ok h := by
    obtain ⟨-, rfl⟩ := Prod.mk.inj (Except.ok.inj h)
    exact List.dropWhile_suffix _
  error h := by cases h

/-- Layout reads forward. -/
theorem forward_layout : Forward layout where
  eq _ := rfl
  ok h := by
    obtain ⟨-, rfl⟩ := Prod.mk.inj (Except.ok.inj h)
    exact dropLayout_suffix false _
  error h := by cases h

/-- So do characters of a kind. -/
theorem forward_many1 (test : Char → Bool) : Forward (many1 test) :=
  (forward_char test).bind fun _ => (forward_many test).bind fun _ => .pure _

theorem forward_ident : Forward ident :=
  (forward_char _).bind fun _ => (forward_many _).bind fun _ => .pure _

theorem consumes_ident : Consumes ident :=
  (consumes_char _).bind fun _ => (forward_many _).bind fun _ => .pure _

theorem forward_valueRef : Forward valueRef :=
  (forward_word _).bind fun _ => forward_many1 _

theorem forward_symbol : Forward symbol :=
  (forward_word _).bind fun _ => forward_many1 _

/-! ## Literals -/

theorem forward_signed : Forward signed :=
  (forward_word _).optional.bind fun _ => (forward_many1 _).bind fun _ => .pure _

/-- A literal out of range stops the scan in front of it. -/
theorem forward_integer : Forward integer where
  eq _ := rfl
  ok h := by
    obtain ⟨negative, ds, hs, -⟩ := signed_of_integer h
    exact suffix_of_ok forward_signed hs
  error {text stop} h := by
    cases hs : signed text with
    | error stop' =>
      obtain rfl := Except.error.inj ((integer_of_error hs).symm.trans h)
      exact suffix_of_error forward_signed hs
    | ok p =>
      obtain ⟨⟨minus, ds⟩, left⟩ := p
      obtain ⟨negative, rfl⟩ := signMark_surjective minus
      rw [integer_of_signed hs] at h
      split at h
      · cases h
      · obtain rfl := Except.error.inj h
        exact List.suffix_refl _

/-- So does a number. -/
theorem forward_index : Forward index where
  eq _ := rfl
  ok h := by
    obtain ⟨-, ⟨rfl, -⟩ | ⟨-, ds, hs, -⟩⟩ := digits_of_index h
    · exact List.suffix_cons _ _
    · exact suffix_of_ok (forward_many1 _) hs
  error {text stop} h := by
    by_cases hends : Ends (· == '0') text
    · cases hs : many1 Char.isDigit text with
      | error stop' =>
        obtain rfl := Except.error.inj ((index_of_error hends hs).symm.trans h)
        exact suffix_of_error (forward_many1 _) hs
      | ok p =>
        rw [index_of_digits hends hs] at h
        split at h
        · cases h
        · obtain rfl := Except.error.inj h
          exact List.suffix_refl _
    · obtain ⟨tail, rfl⟩ := exists_cons_of_not_ends hends
      cases h

theorem forward_exponent : Forward exponent :=
  (forward_char _).bind fun _ => (forward_char _).optional.bind fun _ =>
    (forward_many1 _).bind fun _ => .pure _

theorem forward_fraction : Forward fraction :=
  (forward_word _).bind fun _ => (forward_many1 _).bind fun _ =>
    forward_exponent.optional.bind fun _ => .pure _

theorem forward_decimal : Forward decimal :=
  (forward_word _).optional.bind fun _ => (forward_many1 _).bind fun _ =>
    (forward_fraction.either (forward_exponent.bind fun _ => .pure _)).bind fun _ => .pure _

theorem forward_float : Forward float :=
  ((forward_word _).bind fun _ => .pure _).either
    (((forward_word _).bind fun _ => .pure _).either
      (((forward_word _).bind fun _ => .pure _).either forward_decimal))

/-- So does a literal of any sort. -/
theorem forward_constant : Forward constant :=
  (forward_float.bind fun _ => .pure _).either (forward_integer.bind fun _ => .pure _)

/-! ## Lists -/

/-- So do the items that follow, within each bound. -/
theorem forward_followers {item : Scan α} (h : Forward item) (bound : Nat) :
    Forward (followers item bound) := by
  induction bound with
  | zero => exact .pure _
  | succ bound ih =>
    refine ((forward_word _).bind fun _ => h).optional.bind fun a? => ?_
    cases a? with
    | none => exact .pure _
    | some a => exact ih.bind fun _ => .pure _

/-- Items that each follow a comma are fewer than the characters. -/
theorem followers_eq_of_length_le {item : Scan α} (h : Forward item) (hn : text.length ≤ n)
    (hm : text.length ≤ m) : followers item n text = followers item m text := by
  have hcomma : Consumes (do word ","; item : Scan α) :=
    Consumes.bind (consumes_word (w := ",") (by decide)) fun _ => h
  induction n generalizing text m with
  | zero =>
    obtain rfl : text = [] := List.length_eq_zero_iff.1 (Nat.le_zero.1 hn)
    cases m with
    | zero => rfl
    | succ m => rfl
  | succ n ih =>
    cases hx : (do word ","; item : Scan α) text with
    | error stop =>
      have hnone : ∀ k, followers item k text = .ok ([], text) := fun k => by
        cases k with
        | zero => rfl
        | succ k => exact bind_of_ok (optional_of_error hx)
      rw [hnone, hnone]
    | ok p =>
      have hlt : p.2.length < text.length := hcomma _ _ _ hx
      obtain ⟨m, rfl⟩ := Nat.exists_eq_succ_of_ne_zero (n := m) (by omega)
      rw [followers, bind_of_ok (optional_of_ok hx), followers, bind_of_ok (optional_of_ok hx)]
      exact bind_congr_of_eq (ih (by omega) (by omega))

/-- So does a list. -/
theorem forward_list {item : Scan α} (h : Forward item) : Forward (list item) :=
  h.bind fun _ => forward_get.bind fun _ => (forward_followers h _).bind fun _ => .pure _

theorem forward_spaced {item : Scan α} (h : Forward item) : Forward (spaced item) :=
  forward_layout.bind fun _ => h.bind fun _ => forward_layout.bind fun _ => .pure _

/-! ## Statements -/

theorem forward_result : Forward result :=
  forward_valueRef.bind fun _ => forward_layout.bind fun _ => (forward_word _).bind fun _ =>
    forward_layout.bind fun _ => .pure _

theorem forward_pair : Forward pair :=
  forward_valueRef.bind fun _ => forward_layout.bind fun _ => (forward_word _).bind fun _ =>
    forward_layout.bind fun _ => forward_valueRef.bind fun _ => .pure _

/-- So does a constant. -/
theorem forward_constForm : Forward constForm :=
  ((forward_word _).bind fun _ => forward_layout.bind fun _ =>
    (forward_list (forward_spaced forward_constant)).bind fun _ => forward_layout.bind fun _ =>
      (forward_word _).bind fun _ => .pure _).either (forward_constant.bind fun _ => .pure _)

theorem forward_slotLane : Forward slotLane :=
  forward_layout.bind fun _ => forward_valueRef.bind fun _ => (forward_word _).bind fun _ =>
    forward_layout.bind fun _ => forward_index.bind fun _ => forward_layout.bind fun _ =>
      (forward_word _).bind fun _ => forward_layout.bind fun _ => .pure _

/-- So does a load. -/
theorem forward_loadForm : Forward loadForm :=
  ((forward_word _).bind fun _ => (forward_list forward_slotLane).bind fun _ =>
    (forward_word _).bind fun _ => .pure _).either (forward_valueRef.bind fun _ => .pure _)

theorem forward_mask (name : String) : Forward (mask name) :=
  forward_layout.bind fun _ => (forward_word _).bind fun _ => forward_layout.bind fun _ =>
    (forward_word _).bind fun _ => forward_layout.bind fun _ => forward_valueRef.bind fun _ =>
      forward_layout.bind fun _ => (forward_word _).bind fun _ => .pure _

theorem forward_annotation : Forward annotation :=
  forward_layout.bind fun _ => (forward_word _).bind fun _ => forward_layout.bind fun _ =>
    forward_ident

section Blocks

variable {b b' : Scan Draft}

/-- A form agrees with itself for readers of blocks that agree. -/
theorem agree_form (h : Agree n b b') (keyword : List Char) :
    Agree n (form b keyword) (form b' keyword) := by
  unfold form
  split
  · exact .pure _
  · exact forward_constForm.bind fun _ => .pure _
  · exact forward_index.bind fun _ => .pure _
  · exact forward_loadForm.bind fun _ => .pure _
  · exact forward_pair.bind fun _ => .pure _
  · exact forward_valueRef.bind fun _ => .pure _
  · exact forward_valueRef.bind fun _ => .pure _
  · have hotherwise : Agree n (otherwise b) (otherwise b') :=
      forward_layout.bind fun _ => (forward_word _).bind fun _ =>
        forward_layout.bind fun _ => h
    exact forward_valueRef.bind fun _ => (forward_mask _).optional.bind fun _ =>
      (forward_mask _).optional.bind fun _ => forward_layout.bind fun _ =>
        h.bind fun _ => hotherwise.optional.bind fun _ => .pure _
  · exact (forward_mask _).optional.bind fun _ => forward_layout.bind fun _ =>
      h.bind fun _ => .pure _
  · exact forward_valueRef.bind fun _ => forward_layout.bind fun _ =>
      (forward_word _).bind fun _ => forward_layout.bind fun _ =>
        forward_valueRef.bind fun _ => (forward_word _).bind fun _ =>
          forward_valueRef.bind fun _ => forward_layout.bind fun _ =>
            h.bind fun _ => .pure _
  · exact (forward_list (forward_spaced forward_valueRef)).bind fun _ =>
      (forward_word _).bind fun _ => forward_layout.bind fun _ =>
        forward_symbol.bind fun _ => forward_layout.bind fun _ =>
          h.bind fun _ => .pure _
  · exact forward_pair.bind fun _ => .pure _

/-- So does a statement. -/
theorem agree_statement (h : Agree n b b') : Agree n (statement b) (statement b') :=
  forward_result.optional.bind fun _ => forward_ident.bind fun keyword =>
    forward_layout.bind fun _ => (agree_form h keyword).bind fun _ =>
      forward_annotation.optional.bind fun _ => .pure _

/-- A statement has a keyword. -/
theorem consumes_statement (h : Forward b) : Consumes (statement b) :=
  .seq forward_result.optional fun _ => consumes_ident.bind fun keyword =>
    forward_layout.bind fun _ => (agree_form h keyword).bind fun _ =>
      forward_annotation.optional.bind fun _ => .pure _

/-- So do the statements of a block. -/
theorem agree_statements {r r' : Scan (Head × Draft × Draft)} (h : Agree n r r') (bound : Nat) :
    Agree n (statements r bound) (statements r' bound) := by
  induction bound with
  | zero => exact forward_fail
  | succ bound ih =>
    refine forward_layout.bind fun _ => forward_get.bind fun text => ?_
    split
    · exact .pure _
    · exact .pure _
    · exact h.bind fun _ => ih.bind fun _ => .pure _

end Blocks

/-- Statements that each take something are fewer than the characters. -/
theorem statements_eq_of_length_lt {r : Scan (Head × Draft × Draft)} (hr : Consumes r)
    (hn : text.length < n) (hm : text.length < m) : statements r n text = statements r m text := by
  induction n generalizing text m with
  | zero => exact absurd hn (Nat.not_lt_zero _)
  | succ n ih =>
    obtain ⟨m, rfl⟩ := Nat.exists_eq_succ_of_ne_zero (Nat.ne_zero_of_lt hm)
    have hleft : (dropLayout false text).length ≤ text.length :=
      (dropLayout_suffix false text).length_le
    rw [statements, statements, bind_of_ok (x := layout) rfl, bind_of_ok (x := layout) rfl,
      bind_of_ok (x := get) rfl, bind_of_ok (x := get) rfl]
    generalize dropLayout false text = left at hleft
    split
    · rfl
    · rfl
    · cases hread : r left with
      | error stop => rw [bind_of_error hread, bind_of_error hread]
      | ok p =>
        have hlt := hr _ _ _ hread
        rw [bind_of_ok hread, bind_of_ok hread]
        exact bind_congr_of_eq (ih (by omega) (by omega))

/-- A block reads forward, to whatever depth. -/
theorem forward_block (depth : Nat) : Forward (block depth) := by
  induction depth with
  | zero => exact forward_fail
  | succ depth ih =>
    exact (forward_word _).bind fun _ => forward_get.bind fun _ =>
      (agree_statements (agree_statement ih) _).bind fun _ => (forward_word _).bind fun _ => .pure _

/-- Blocks that are nested in each other are fewer than the characters. -/
theorem agree_block {d d' : Nat} (hd : n ≤ d) (hd' : n ≤ d') : Agree n (block d) (block d') := by
  induction n generalizing d d' with
  | zero => exact ⟨fun h => absurd h (Nat.not_lt_zero _), suffix_of_ok (forward_block d),
      suffix_of_error (forward_block d)⟩
  | succ n ih =>
    obtain ⟨d, rfl⟩ := Nat.exists_eq_succ_of_ne_zero (n := d) (by omega)
    obtain ⟨d', rfl⟩ := Nat.exists_eq_succ_of_ne_zero (n := d') (by omega)
    have hinner : Agree n (block d) (block d') := ih (by omega) (by omega)
    exact .bind_of_consumes (forward_word _) (consumes_word (by decide)) fun _ =>
      forward_get.bind fun _ => (agree_statements (agree_statement hinner) _).bind fun _ =>
        (forward_word _).bind fun _ => .pure _

/-- Kernels are read the same to all depths that exceed the length of the text. -/
theorem agree_kernel {d d' : Nat} (hd : n ≤ d) (hd' : n ≤ d') : Agree n (kernel d) (kernel d') :=
  forward_layout.bind fun _ => (forward_word _).bind fun _ =>
    forward_layout.bind fun _ => forward_symbol.bind fun _ =>
      forward_layout.bind fun _ => (agree_block hd hd').bind fun _ => .pure _

theorem forward_kernel (depth : Nat) : Forward (kernel depth) :=
  (agree_kernel (Nat.zero_le depth) (Nat.zero_le depth)).forward

/-- The depth to which blocks are read does not matter, if it is greater than the length of the
text. -/
theorem kernel_eq_of_length_lt {d d' : Nat} (hd : text.length < d) (hd' : text.length < d') :
    kernel d text = kernel d' text :=
  (agree_kernel (n := text.length + 1) hd hd').eq (Nat.lt_succ_self _)

end Scan

/-! ## Errors -/

/-- The error is reported between two characters of the text, or at its end. -/
def ParseError.Within (e : ParseError) (text : List Char) : Prop :=
  ∃ before after, text = before ++ after ∧ e.offset = byteLength before

/-- The bytes of two texts add up. -/
theorem byteLength_append (cs ds : List Char) :
    byteLength (cs ++ ds) = byteLength cs + byteLength ds := by
  induction cs with
  | nil => simp [byteLength]
  | cons c cs ih => simp only [List.cons_append, byteLength, ih, Nat.add_assoc]

/-- What is left of a text tells where it begins. -/
theorem exists_before_of_suffix {text rest : List Char} (h : rest <:+ text) :
    ∃ before, text = before ++ rest ∧ byteLength text - byteLength rest = byteLength before := by
  obtain ⟨before, rfl⟩ := h
  exact ⟨before, rfl, by rw [byteLength_append, Nat.add_sub_cancel]⟩

/-- An error within a text has an offset within its bytes. -/
theorem ParseError.Within.offset_le {e : ParseError} {text : List Char} (h : e.Within text) :
    e.offset ≤ byteLength text := by
  obtain ⟨before, after, rfl, hoffset⟩ := h
  rw [hoffset, byteLength_append]
  exact Nat.le_add_right _ _

/-- A text that the grammar refuses is refused at a place in it. -/
theorem within_of_readKernel {text : List Char} {e : ParseError} (h : readKernel text = .error e) :
    e.Within text ∧ ∀ error, e ≠ .unresolved error := by
  unfold readKernel at h
  split at h
  · next stop hstop =>
    cases h
    obtain ⟨before, htext, hoffset⟩ :=
      exists_before_of_suffix (Scan.suffix_of_error (Scan.forward_kernel _) hstop)
    exact ⟨⟨before, _, htext, hoffset⟩, nofun⟩
  · next draft rest hread =>
    split at h
    · cases h
    · cases h
      have hsuffix :=
        (Scan.dropLayout_suffix false rest).trans (Scan.suffix_of_ok (Scan.forward_kernel _) hread)
      obtain ⟨before, htext, hoffset⟩ := exists_before_of_suffix hsuffix
      exact ⟨⟨before, _, htext, hoffset⟩, nofun⟩

end KernelIR
