import KernelIR.Proofs.Text.Literal
import KernelIR.Proofs.Text.Progress

/-!
# Lexemes

Names and literals are read as far as they go. What they are read as depends on their own characters
only : a literal is read alike in front of every text that does not go on with a letter, a digit, an
underscore or a point (`Scan.exists_of_constant`, `Scan.isLexeme_index`), whatever stood behind it
where it was read first.

A lane of a constant looks as `Scan.IsConstant` says, whichever part of the grammar reads it.
-/

namespace KernelIR

namespace Scan

variable {α : Type} {text rest : List Char}

/-- What is read in one of two ways is read in the first or in the second one. -/
theorem ok_or_of_either {x y : Scan α} {a : α} (h : either x y text = .ok (a, rest)) :
    x text = .ok (a, rest) ∨ y text = .ok (a, rest) := by
  cases hx : x text with
  | error stop => exact .inr ((either_of_error hx).symm.trans h)
  | ok p => exact .inl ((either_of_ok hx).symm.trans h)

/-! ## Names -/

/-- Characters that are read stand in front, and end where the next one does not pass. -/
theorem append_of_many1 {test : Char → Bool} {cs : List Char}
    (h : many1 test text = .ok (cs, rest)) :
    text = cs ++ rest ∧ (cs ≠ [] ∧ ∀ c ∈ cs, test c = true) ∧ Ends test rest := by
  obtain ⟨c, mid, hc, htail⟩ := exists_of_bind h
  obtain ⟨cs', mid', hcs, hpure⟩ := exists_of_bind htail
  obtain ⟨rfl, hpass⟩ := cons_of_char hc
  have hall := Ensures.many test _ _ _ hcs
  obtain ⟨rfl, rfl⟩ := Prod.mk.inj (Except.ok.inj hcs)
  obtain ⟨rfl, rfl⟩ := Prod.mk.inj (Except.ok.inj hpure)
  refine ⟨by simp, ⟨List.cons_ne_nil _ _, List.forall_mem_cons.2 ⟨hpass, hall⟩⟩, fun d hd => ?_⟩
  have hhead := List.head?_dropWhile_not test mid
  rwa [Option.mem_def.1 hd] at hhead

/-- A value that is read is a name behind its sign. -/
theorem append_of_valueRef {name : ValueName} (h : valueRef text = .ok (name, rest)) :
    text = '%' :: name ++ rest ∧ IsName name ∧ Ends isNameChar rest := by
  obtain ⟨_, mid, hsign, h⟩ := exists_of_bind h
  obtain ⟨rfl, hname, hends⟩ := append_of_many1 h
  exact ⟨(append_of_word hsign).symm, hname, hends⟩

/-- A symbol that is read is a name behind its sign. -/
theorem append_of_symbol {name : List Char} (h : symbol text = .ok (name, rest)) :
    text = '@' :: name ++ rest ∧ IsName name ∧ Ends isNameChar rest := by
  obtain ⟨_, mid, hsign, h⟩ := exists_of_bind h
  obtain ⟨rfl, hname, hends⟩ := append_of_many1 h
  exact ⟨(append_of_word hsign).symm, hname, hends⟩

/-- A word that is read stands in front, and is read to its end. -/
theorem append_of_ident {name : List Char} (h : ident text = .ok (name, rest)) :
    text = name ++ rest ∧ IsWord name ∧ Ends isNameChar rest := by
  obtain ⟨c, mid, hc, htail⟩ := exists_of_bind h
  obtain ⟨cs, mid', hcs, hpure⟩ := exists_of_bind htail
  obtain ⟨rfl, hpass⟩ := cons_of_char hc
  obtain ⟨rfl, rfl⟩ := Prod.mk.inj (Except.ok.inj hpure)
  have hname : isNameChar c = true := by
    simp only [isNameChar, Char.isAlphanum, Bool.or_eq_true] at hpass ⊢
    tauto
  have hmany : many1 isNameChar (c :: mid) = .ok (c :: cs, mid') :=
    (bind_of_ok (a := c) (r := mid) (by simp [char, hname])).trans (bind_of_ok hcs)
  obtain ⟨htext, hall, hends⟩ := append_of_many1 hmany
  exact ⟨htext, ⟨hall, by simpa using hpass⟩, hends⟩

/-! ## What literals look like -/

/-- The letter of an exponent and digits, perhaps with a sign between them. -/
inductive IsExponent : List Char → Prop
  | unsigned {c : Char} {ds : List Char} (hc : (c == 'e' || c == 'E') = true) (hds : IsDigits ds) :
    IsExponent (c :: ds)
  | signed {c s : Char} {ds : List Char} (hc : (c == 'e' || c == 'E') = true)
    (hs : (s == '+' || s == '-') = true) (hds : IsDigits ds) : IsExponent (c :: s :: ds)

/-- What stands behind the digits of a floating-point number. -/
inductive IsScale : List Char → Prop
  | fraction {ds : List Char} (hds : IsDigits ds) : IsScale ('.' :: ds)
  | both {ds cs : List Char} (hds : IsDigits ds) (hcs : IsExponent cs) : IsScale ('.' :: (ds ++ cs))
  | exponent {cs : List Char} (hcs : IsExponent cs) : IsScale cs

/-- What a lane of a constant looks like. -/
inductive IsConstant : List Char → Prop
  | nan : IsConstant "NaN".toList
  | infinity (negative : Bool) : IsConstant (signText negative ++ "inf".toList)
  | integer (negative : Bool) {ds : List Char} (hds : IsDigits ds) :
    IsConstant (signText negative ++ ds)
  | decimal (negative : Bool) {ds cs : List Char} (hds : IsDigits ds) (hcs : IsScale cs) :
    IsConstant (signText negative ++ (ds ++ cs))

theorem IsExponent.exists_cons {cs : List Char} (h : IsExponent cs) :
    ∃ c cs', cs = c :: cs' ∧ (c == 'e' || c == 'E') = true := by
  cases h with
  | unsigned hc | signed hc => exact ⟨_, _, rfl, hc⟩

theorem IsExponent.ends {cs : List Char} (h : IsExponent cs) {test : Char → Bool}
    (htest : test 'e' = false ∧ test 'E' = false) (tail : List Char) : Ends test (cs ++ tail) := by
  obtain ⟨c, cs, rfl, hc⟩ := h.exists_cons
  refine ends_cons ?_ _
  rcases Bool.or_eq_true_iff.1 hc with h | h <;> obtain rfl := eq_of_beq h
  · exact htest.1
  · exact htest.2

/-- Digits end in front of a fraction or an exponent. -/
theorem IsScale.ends {cs : List Char} (h : IsScale cs) (tail : List Char) :
    Ends Char.isDigit (cs ++ tail) := by
  cases h with
  | fraction | both => exact ends_cons rfl _
  | exponent hcs => exact hcs.ends ⟨rfl, rfl⟩ tail

theorem IsDigits.solid {ds : List Char} (h : IsDigits ds) (tail : List Char) : Solid (ds ++ tail) :=
  IsName.solid ⟨h.1, fun c hc => by simp [isNameChar, Char.isAlphanum, h.2 c hc]⟩ tail

theorem solid_signText (negative : Bool) {ds : List Char} (h : IsDigits ds) (tail : List Char) :
    Solid (signText negative ++ (ds ++ tail)) := by
  cases negative with
  | true => exact solid_cons rfl (by decide) _
  | false => exact h.solid tail

/-- A literal is not layout. -/
theorem IsConstant.solid {cs : List Char} (h : IsConstant cs) : Solid cs := by
  cases h with
  | nan => exact solid_cons rfl (by decide) _
  | infinity negative => cases negative <;> exact solid_cons rfl (by decide) _
  | integer negative hds => simpa using solid_signText negative hds []
  | decimal negative hds => exact solid_signText negative hds _

/-! ## Literals -/

/-- The characters are read as `a` in front of everything that does not go on with a character of a
literal. -/
def IsLexeme (x : Scan α) (cs : List Char) (a : α) : Prop :=
  ∀ rest, Ends isLiteralChar rest → x (cs ++ rest) = .ok (a, rest)

/-- What begins with a sign and digits : the same follows them wherever they end. -/
theorem exists_of_leading {f : Option Unit → List Char → Scan α} {a : α}
    (h : (do let minus ← optional (word "-"); let ds ← many1 Char.isDigit; f minus ds : Scan α)
      text =
      .ok (a, rest)) :
    ∃ negative ds mid, text = signText negative ++ (ds ++ mid) ∧ IsDigits ds ∧
      f (signMark negative) ds mid = .ok (a, rest) ∧ ∀ mid', Ends Char.isDigit mid' →
        (do let minus ← optional (word "-"); let ds ← many1 Char.isDigit; f minus ds : Scan α)
          (signText negative ++ (ds ++ mid')) = f (signMark negative) ds mid' := by
  obtain ⟨minus, text', hminus, htail⟩ := exists_of_bind h
  obtain ⟨ds, mid, hds, hf⟩ := exists_of_bind htail
  obtain ⟨rfl, hdigits, -⟩ := append_of_many1 hds
  obtain ⟨negative, rfl, rfl⟩ : ∃ negative, minus = signMark negative ∧
      text = signText negative ++ (ds ++ mid) := by
    cases hword : word "-" text with
    | error stop =>
      obtain ⟨rfl, rfl⟩ := Prod.mk.inj (Except.ok.inj ((optional_of_error hword).symm.trans hminus))
      exact ⟨false, rfl, rfl⟩
    | ok p =>
      obtain ⟨rfl, hmid⟩ := Prod.mk.inj (Except.ok.inj ((optional_of_ok hword).symm.trans hminus))
      exact ⟨true, rfl, hmid ▸ (append_of_word hword).symm⟩
  exact ⟨negative, ds, mid, rfl, hdigits, hf, fun mid' hends =>
    (bind_of_ok (optional_minus negative hdigits mid')).trans
      (bind_of_ok (many1_digits hdigits hends))⟩

/-- An exponent that is read looks like one, and is read the same in front of other texts. -/
theorem exists_of_exponent {e : Int} (h : exponent text = .ok (e, rest)) :
    ∃ cs, text = cs ++ rest ∧ IsExponent cs ∧
      ∀ rest', Ends Char.isDigit rest' → exponent (cs ++ rest') = .ok (e, rest') := by
  obtain ⟨c, mid, hc, hbehind⟩ := exists_of_bind h
  obtain ⟨sign, mid', hsign, htail⟩ := exists_of_bind hbehind
  obtain ⟨ds, left, hds, hpure⟩ := exists_of_bind htail
  obtain ⟨rfl, hpass⟩ := cons_of_char hc
  obtain ⟨rfl, hdigits, -⟩ := append_of_many1 hds
  obtain ⟨rfl, rfl⟩ := Prod.mk.inj (Except.ok.inj hpure)
  cases hs : char (fun c => c == '+' || c == '-') mid with
  | ok p =>
    obtain ⟨s, mid'⟩ := p
    obtain ⟨rfl, rfl⟩ := Prod.mk.inj (Except.ok.inj ((optional_of_ok hs).symm.trans hsign))
    obtain ⟨rfl, hsigned⟩ := cons_of_char hs
    refine ⟨c :: s :: ds, rfl, .signed hpass hsigned hdigits, fun rest' hends => ?_⟩
    exact (bind_of_ok (char_cons hpass _)).trans
      ((bind_of_ok (optional_of_ok (char_cons hsigned _))).trans
      (bind_of_ok (many1_digits hdigits hends)))
  | error stop =>
    obtain ⟨rfl, rfl⟩ := Prod.mk.inj (Except.ok.inj ((optional_of_error hs).symm.trans hsign))
    refine ⟨c :: ds, rfl, .unsigned hpass hdigits, fun rest' hends => ?_⟩
    exact (bind_of_ok (char_cons hpass _)).trans ((bind_of_ok (optional_of_error
      (IsDigits.sign_error hdigits rest'))).trans (bind_of_ok (many1_digits hdigits hends)))

/-- So does a fraction, with its exponent. -/
theorem exists_of_fraction {p : List Char × Int} (h : fraction text = .ok (p, rest)) :
    ∃ cs, text = cs ++ rest ∧ IsScale cs ∧
      ∀ rest', Ends isNameChar rest' → fraction (cs ++ rest') = .ok (p, rest') := by
  obtain ⟨_, mid, hpoint, hbehind⟩ := exists_of_bind h
  obtain ⟨ds, mid', hds, htail⟩ := exists_of_bind hbehind
  obtain ⟨e?, left, he, hpure⟩ := exists_of_bind htail
  obtain ⟨rfl, hdigits, -⟩ := append_of_many1 hds
  obtain ⟨rfl, rfl⟩ := Prod.mk.inj (Except.ok.inj hpure)
  obtain rfl : '.' :: (ds ++ mid') = text := append_of_word hpoint
  have hpoint' : ∀ tail, word "." ('.' :: tail) = .ok ((), tail) := word_append "."
  cases hexp : exponent mid' with
  | ok q =>
    obtain ⟨rfl, rfl⟩ := Prod.mk.inj (Except.ok.inj ((optional_of_ok hexp).symm.trans he))
    obtain ⟨cs, rfl, hcs, hread⟩ := exists_of_exponent hexp
    refine ⟨'.' :: (ds ++ cs), by simp, .both hdigits hcs, fun rest' hends => ?_⟩
    have htail : '.' :: (ds ++ cs) ++ rest' = '.' :: (ds ++ (cs ++ rest')) := by simp
    rw [htail]
    exact (bind_of_ok (hpoint' _)).trans
      ((bind_of_ok (many1_digits hdigits (hcs.ends ⟨rfl, rfl⟩ _))).trans
      (bind_of_ok (optional_of_ok (hread rest' hends.isDigit))))
  | error stop =>
    obtain ⟨rfl, rfl⟩ := Prod.mk.inj (Except.ok.inj ((optional_of_error hexp).symm.trans he))
    refine ⟨'.' :: ds, rfl, .fraction hdigits, fun rest' hends => ?_⟩
    exact (bind_of_ok (hpoint' _)).trans ((bind_of_ok (many1_digits hdigits hends.isDigit)).trans
      (bind_of_ok (optional_of_error (exponent_error hends))))

/-- What is behind the digits of a number with a fraction or an exponent. -/
theorem exists_of_scale {p : List Char × Int}
    (h : either fraction (do let e ← exponent; return ([], e)) text = .ok (p, rest)) :
    ∃ cs, text = cs ++ rest ∧ IsScale cs ∧ ∀ rest', Ends isNameChar rest' →
      either fraction (do let e ← exponent; return ([], e)) (cs ++ rest') = .ok (p, rest') := by
  cases hf : fraction text with
  | ok q =>
    obtain ⟨rfl, rfl⟩ := Prod.mk.inj (Except.ok.inj ((either_of_ok hf).symm.trans h))
    obtain ⟨cs, rfl, hcs, hread⟩ := exists_of_fraction hf
    exact ⟨cs, rfl, hcs, fun rest' hends => either_of_ok (hread rest' hends)⟩
  | error stop =>
    obtain ⟨e, mid, hexp, h⟩ := exists_of_bind ((either_of_error hf).symm.trans h)
    obtain ⟨rfl, rfl⟩ := Prod.mk.inj (Except.ok.inj h)
    obtain ⟨cs, rfl, hcs, hread⟩ := exists_of_exponent hexp
    have hpoint : ∀ rest', fraction (cs ++ rest') = .error ⟨cs ++ rest', .unexpected⟩ :=
      fun rest' => bind_of_error (word_error rfl (hcs.ends ⟨rfl, rfl⟩ rest'))
    exact ⟨cs, rfl, .exponent hcs, fun rest' hends =>
      (either_of_error (hpoint rest')).trans (bind_of_ok (hread rest' hends.isDigit))⟩

/-- So does a number with a point or an exponent. -/
theorem exists_of_decimal {x : Binary64} (h : decimal text = .ok (x, rest)) :
    ∃ cs, text = cs ++ rest ∧ IsConstant cs ∧ IsLexeme float cs x := by
  obtain ⟨negative, ds, mid, rfl, hdigits, hbehind, hlead⟩ := exists_of_leading h
  obtain ⟨p, mid', hscale, hpure⟩ := exists_of_bind hbehind
  obtain ⟨rfl, rfl⟩ := Prod.mk.inj (Except.ok.inj hpure)
  obtain ⟨cs, rfl, hcs, hread⟩ := exists_of_scale hscale
  refine ⟨signText negative ++ (ds ++ cs), by simp, .decimal negative hdigits hcs,
    fun rest' hends => ?_⟩
  have htail : signText negative ++ (ds ++ cs) ++ rest' =
      signText negative ++ (ds ++ (cs ++ rest')) := by
    simp
  rw [htail, float_eq_decimal negative hdigits]
  exact (hlead _ (hcs.ends _)).trans (bind_of_ok (hread rest' hends.isNameChar))

/-- So does a floating-point number of any sort. -/
theorem exists_of_float {x : Binary64} (h : float text = .ok (x, rest)) :
    ∃ cs, text = cs ++ rest ∧ IsConstant cs ∧ IsLexeme float cs x := by
  -- a word for an infinity or for NaN
  have hword : ∀ {w : String} {y : Binary64},
      (do word w; return y : Scan Binary64) text = .ok (x, rest) → IsConstant w.toList →
      (∀ rest', float (w.toList ++ rest') = .ok (y, rest')) →
      ∃ cs, text = cs ++ rest ∧ IsConstant cs ∧ IsLexeme float cs x := by
    intro w y h hcs hread
    obtain ⟨_, mid, hw, hpure⟩ := exists_of_bind h
    obtain ⟨rfl, rfl⟩ := Prod.mk.inj (Except.ok.inj hpure)
    exact ⟨w.toList, (append_of_word hw).symm, hcs, fun rest' _ => hread rest'⟩
  rcases ok_or_of_either h with h | h
  · exact hword h .nan fun _ => rfl
  rcases ok_or_of_either h with h | h
  · exact hword h (.infinity false) fun _ => rfl
  rcases ok_or_of_either h with h | h
  · exact hword h (.infinity true) fun _ => rfl
  · exact exists_of_decimal h

/-- An integer that is read has a sign at most in front of its digits, and is in its range. -/
theorem exists_of_integer {i : Int} (h : integer text = .ok (i, rest)) :
    ∃ negative ds, text = signText negative ++ (ds ++ rest) ∧ IsDigits ds ∧
      signedValue negative ds = i ∧ Fits i := by
  obtain ⟨negative, ds, hs, hvalue, hfits⟩ := signed_of_integer h
  obtain ⟨negative', ds', mid, rfl, hdigits, hpure, -⟩ := exists_of_leading hs
  obtain ⟨hmarks, rfl⟩ := Prod.mk.inj (Except.ok.inj hpure)
  obtain ⟨hmark, rfl⟩ := Prod.mk.inj hmarks
  obtain rfl : negative' = negative := by simpa using congrArg Option.isSome hmark
  exact ⟨negative', ds', rfl, hdigits, hvalue, hfits⟩

/-- A literal that is read looks like one, and is read the same in front of other texts. -/
theorem exists_of_constant {lane : Constant} (h : constant text = .ok (lane, rest)) :
    ∃ cs, text = cs ++ rest ∧ IsConstant cs ∧ IsLexeme constant cs lane := by
  rcases ok_or_of_either h with h | h
  · obtain ⟨x, mid, hfloat, hpure⟩ := exists_of_bind h
    obtain ⟨rfl, rfl⟩ := Prod.mk.inj (Except.ok.inj hpure)
    obtain ⟨cs, htext, hcs, hread⟩ := exists_of_float hfloat
    exact ⟨cs, htext, hcs, fun rest' hends => either_of_ok (bind_of_ok (hread rest' hends))⟩
  · obtain ⟨i, mid, hint, hpure⟩ := exists_of_bind h
    obtain ⟨rfl, rfl⟩ := Prod.mk.inj (Except.ok.inj hpure)
    obtain ⟨negative, ds, rfl, hdigits, rfl, hfits⟩ := exists_of_integer hint
    refine ⟨signText negative ++ ds, by simp, .integer negative hdigits, fun rest' hends => ?_⟩
    obtain ⟨stop, hstop⟩ := float_error negative hdigits hends
    have hread := integer_of_signed (signed_append negative hdigits hends.isNameChar.isDigit)
    rw [List.append_assoc]
    exact (either_of_error (bind_of_error hstop)).trans (bind_of_ok (hread.trans (if_pos hfits)))

/-- All digits are read, unless the first of them is a zero. -/
theorem exists_of_index {n : Nat} (h : index text = .ok (n, rest)) : ∃ ds, text = ds ++ rest ∧
    IsDigits ds ∧ LeadsAlone ds ∧ ofDigits ds = n ∧ n < indexBound := by
  obtain ⟨hlt, ⟨rfl, rfl⟩ | ⟨hends, ds, hmany, rfl⟩⟩ := digits_of_index h
  · exact ⟨['0'], rfl, ⟨by simp, List.forall_mem_singleton.2 rfl⟩, fun _ => rfl, rfl, hlt⟩
  · obtain ⟨rfl, hdigits, -⟩ := append_of_many1 hmany
    refine ⟨ds, rfl, hdigits, fun hhead => ?_, rfl, hlt⟩
    obtain ⟨c, cs, rfl, -⟩ := IsDigits.exists_cons hdigits
    cases (Option.some.inj hhead) ▸ hends c rfl

/-- Digits without a leading zero and within the bound are a number. -/
theorem isLexeme_index {ds : List Char} (h : IsDigits ds) (hzero : LeadsAlone ds)
    (hlt : ofDigits ds < indexBound) : IsLexeme index ds (ofDigits ds) :=
  fun _ hends => index_digits h hzero hlt hends.isNameChar.isDigit

end Scan

end KernelIR
