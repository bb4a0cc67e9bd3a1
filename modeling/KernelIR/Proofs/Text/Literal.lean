import KernelIR.Proofs.Binary64
import KernelIR.Proofs.Text.Scan

/-!
# Literals read back

The text of a lane of a constant is read as that lane (`Scan.constant_append`), if no letter,
digit or point follows it : integers have to fit 64 bits, and of the NaNs there is only one
(`Constant.reread`).

Which integers are read and which stop the scan is said in `Scan.integer_of_signed`, and of the
numbers of arguments and lanes in `Scan.index_of_digits` : a zero stands alone (`Scan.LeadsAlone`).
-/

namespace KernelIR

/-- What the text of a number is read as. -/
def Binary64.reread (x : Binary64) : Binary64 :=
  if x.isNaN then .nan else x

/-- What the text of a lane is read as. -/
def Constant.reread : Constant → Constant
  | int i => int i
  | float x => float x.reread

namespace Scan

variable {text rest : List Char}

/-- A point, or a character of a name. -/
def isLiteralChar (c : Char) : Bool :=
  isNameChar c || c == '.'

theorem Ends.mono {test test' : Char → Bool} (h : Ends test' rest)
    (himp : ∀ c, test c = true → test' c = true) : Ends test rest := fun c hc => by
  have hno := h c hc
  cases htest : test c with
  | false => rfl
  | true => rw [himp c htest] at hno; cases hno

theorem Ends.isNameChar (h : Ends isLiteralChar rest) : Ends isNameChar rest :=
  h.mono fun c hc => by simp [isLiteralChar, hc]

theorem Ends.isDigit (h : Ends Scan.isNameChar rest) : Ends Char.isDigit rest :=
  h.mono fun c hc => by simp [Scan.isNameChar, Char.isAlphanum, hc]

/-! ## Digits -/

/-- At least one digit. -/
def IsDigits (ds : List Char) : Prop :=
  ds ≠ [] ∧ ∀ c ∈ ds, c.isDigit = true

theorem isDigits_natText (n : Nat) : IsDigits (natText n) :=
  ⟨natText_ne_nil n, fun _ hc => isDigit_of_mem_natText hc⟩

theorem IsDigits.append {ds es : List Char} (h : IsDigits ds) (hes : ∀ c ∈ es, c.isDigit = true) :
    IsDigits (ds ++ es) :=
  ⟨by simp [h.1], fun c hc => (List.mem_append.1 hc).elim (h.2 c) (hes c)⟩

theorem many1_digits {ds : List Char} (h : IsDigits ds) (hrest : Ends Char.isDigit rest) :
    many1 Char.isDigit (ds ++ rest) = .ok (ds, rest) :=
  many1_append h.1 h.2 hrest

theorem IsDigits.exists_cons {ds : List Char} (h : IsDigits ds) :
    ∃ c cs, ds = c :: cs ∧ c.isDigit = true := by
  obtain ⟨hne, hall⟩ := h
  cases ds with
  | nil => exact absurd rfl hne
  | cons c cs => exact ⟨c, cs, rfl, hall c List.mem_cons_self⟩

/-- Digits are none of the characters that literals are told apart by. -/
theorem IsDigits.ends {ds : List Char} (h : IsDigits ds) {test : Char → Bool}
    (htest : ∀ c : Char, test c = true → c.isDigit = false) (rest : List Char) :
    Ends test (ds ++ rest) := by
  obtain ⟨c, cs, rfl, hc⟩ := h.exists_cons
  refine ends_cons (Bool.eq_false_iff.2 fun ht => ?_) _
  rw [htest c ht] at hc
  cases hc

theorem isDigit_eq_false_of_beq {d : Char} (hd : d.isDigit = false) (c : Char)
    (h : (c == d) = true) : c.isDigit = false := by
  rwa [eq_of_beq h]

/-! ## Integers -/

/-- The sign in front of the digits of a number. -/
def signText (negative : Bool) : List Char :=
  if negative then ['-'] else []

theorem intText_eq (i : Int) : intText i = signText (i < 0) ++ natText i.natAbs := by
  unfold intText signText
  split <;> simp_all

/-- What the sign in front of the digits of a number is read as. -/
def signMark (negative : Bool) : Option Unit :=
  if negative then some () else none

@[simp]
theorem isSome_signMark (negative : Bool) : (signMark negative).isSome = negative := by
  cases negative <;> rfl

theorem optional_minus (negative : Bool) {ds : List Char} (h : IsDigits ds) (rest : List Char) :
    optional (word "-") (signText negative ++ (ds ++ rest)) =
      .ok (signMark negative, ds ++ rest) := by
  cases negative with
  | true => exact optional_of_ok rfl
  | false => exact optional_of_error (word_error rfl (h.ends (isDigit_eq_false_of_beq rfl) rest))

theorem signed_append (negative : Bool) {ds : List Char} (h : IsDigits ds)
    (hrest : Ends Char.isDigit rest) :
    signed (signText negative ++ (ds ++ rest)) = .ok ((signMark negative, ds), rest) :=
  (bind_of_ok (optional_minus negative h rest)).trans (bind_of_ok (many1_digits h hrest))

/-- The number with these digits. -/
def signedValue (negative : Bool) (digits : List Char) : Int :=
  if negative then -(ofDigits digits : Int) else ofDigits digits

/-- The text of an integer has its value. -/
theorem signedValue_natText (i : Int) : signedValue (i < 0) (natText i.natAbs) = i := by
  simp only [signedValue, ofDigits_natText, decide_eq_true_eq]
  split <;> omega

/-- The integer fits 64 bits. -/
def Fits (i : Int) : Prop :=
  -(signedBound : Int) ≤ i ∧ i < signedBound

instance : DecidablePred Fits :=
  fun _ => inferInstanceAs (Decidable (_ ∧ _))

/-- An integer fits if its digits stay within the bound of its sign. -/
theorem fits_signedValue_iff {negative : Bool} {digits : List Char} :
    Fits (signedValue negative digits) ↔
      if negative then ofDigits digits ≤ signedBound else ofDigits digits < signedBound := by
  have hpos : 0 < signedBound := by decide
  cases negative <;> simp only [Fits, signedValue, Bool.false_eq_true, if_true, if_false] <;> omega

/-- The scan is stopped in front of an integer that does not fit. -/
theorem integer_of_signed {negative : Bool} {ds : List Char}
    (h : signed text = .ok ((signMark negative, ds), rest)) : integer text =
      if Fits (signedValue negative ds) then .ok (signedValue negative ds, rest)
      else .error ⟨text, .overflow negative⟩ := by
  rw [integer, h, if_congr fits_signedValue_iff rfl rfl]
  cases negative <;> rfl

theorem integer_of_error {stop : Stop} (h : signed text = .error stop) :
    integer text = .error stop := by
  rw [integer, h]

theorem signMark_surjective (minus : Option Unit) : ∃ negative, minus = signMark negative := by
  cases minus with
  | none => exact ⟨false, rfl⟩
  | some u => exact ⟨true, rfl⟩

/-- What is read as an integer are digits, with a sign or without one, whose value fits. -/
theorem signed_of_integer {i : Int} (h : integer text = .ok (i, rest)) : ∃ negative ds,
    signed text = .ok ((signMark negative, ds), rest) ∧ signedValue negative ds = i ∧ Fits i := by
  cases hs : signed text with
  | error stop => cases (integer_of_error hs).symm.trans h
  | ok p =>
    obtain ⟨⟨minus, ds⟩, left⟩ := p
    obtain ⟨negative, rfl⟩ := signMark_surjective minus
    rw [integer_of_signed hs] at h
    split at h
    · next hfits =>
      obtain ⟨rfl, rfl⟩ := Prod.mk.inj (Except.ok.inj h)
      exact ⟨negative, ds, rfl, rfl, hfits⟩
    · cases h

theorem integer_append {i : Int} (hi : Fits i) (hrest : Ends Char.isDigit rest) :
    integer (intText i ++ rest) = .ok (i, rest) := by
  have hsigned := signed_append (i < 0) (isDigits_natText i.natAbs) hrest
  rw [intText_eq, List.append_assoc, integer_of_signed hsigned, signedValue_natText, if_pos hi]

/-! ## Numbers of arguments and lanes -/

theorem index_of_digits {ds : List Char} (hends : Ends (· == '0') text)
    (h : many1 Char.isDigit text = .ok (ds, rest)) : index text =
      if ofDigits ds < indexBound then .ok (ofDigits ds, rest) else .error ⟨text, .unexpected⟩ := by
  unfold index
  split
  · exact absurd (hends '0' rfl) (by decide)
  · rw [h]

theorem index_of_error {stop : Stop} (hends : Ends (· == '0') text)
    (h : many1 Char.isDigit text = .error stop) : index text = .error stop := by
  unfold index
  split
  · exact absurd (hends '0' rfl) (by decide)
  · rw [h]

/-- A zero is read alone, whatever is behind it. -/
theorem digits_of_index {n : Nat} (h : index text = .ok (n, rest)) : n < indexBound ∧
    (text = '0' :: rest ∧ n = 0 ∨ Ends (· == '0') text ∧
      ∃ ds, many1 Char.isDigit text = .ok (ds, rest) ∧ ofDigits ds = n) := by
  by_cases hends : Ends (· == '0') text
  · cases hs : many1 Char.isDigit text with
    | error stop => cases (index_of_error hends hs).symm.trans h
    | ok p =>
      obtain ⟨ds, left⟩ := p
      rw [index_of_digits hends hs] at h
      split at h
      · next hlt =>
        obtain ⟨rfl, rfl⟩ := Prod.mk.inj (Except.ok.inj h)
        exact ⟨hlt, .inr ⟨hends, ds, rfl, rfl⟩⟩
      · cases h
  · obtain ⟨tail, rfl⟩ := exists_cons_of_not_ends hends
    obtain ⟨rfl, rfl⟩ := Prod.mk.inj (Except.ok.inj h)
    exact ⟨by decide, .inl ⟨rfl, rfl⟩⟩

/-- No digit follows a zero. -/
def LeadsAlone (ds : List Char) : Prop :=
  ds.head? = some '0' → ds = ['0']

/-- Digits that do not begin with a zero, or a zero alone, are read together. -/
theorem index_digits {ds : List Char} (h : IsDigits ds) (hzero : LeadsAlone ds)
    (hlt : ofDigits ds < indexBound) (hrest : Ends Char.isDigit rest) :
    index (ds ++ rest) = .ok (ofDigits ds, rest) := by
  by_cases hhead : ds.head? = some '0'
  · rw [hzero hhead]
    rfl
  · obtain ⟨c, cs, rfl, -⟩ := h.exists_cons
    have hends : Ends (· == '0') (c :: cs ++ rest) := ends_cons (by simpa using hhead) _
    rw [index_of_digits hends (many1_digits h hrest), if_pos hlt]

theorem leadsAlone_natText (n : Nat) : LeadsAlone (natText n) := by
  intro hhead
  by_cases hzero : n = 0
  · subst hzero
    rfl
  · exact absurd hhead (head?_natText hzero)

/-- A number of 32 bits. -/
theorem index_append {n : Nat} (hn : n < indexBound) (hrest : Ends Char.isDigit rest) :
    index (natText n ++ rest) = .ok (n, rest) := by
  have hlt : ofDigits (natText n) < indexBound := (ofDigits_natText n).symm ▸ hn
  have hread := index_digits (isDigits_natText n) (leadsAlone_natText n) hlt hrest
  rwa [ofDigits_natText] at hread

/-! ## Numbers with a fraction or an exponent -/

/-- A digit is no sign of an exponent. -/
theorem IsDigits.sign_error {ds : List Char} (h : IsDigits ds) (rest : List Char) :
    char (fun c => c == '+' || c == '-') (ds ++ rest) = .error ⟨ds ++ rest, .unexpected⟩ := by
  refine char_error (h.ends (fun c hc => ?_) rest)
  rcases Bool.or_eq_true_iff.1 hc with h | h <;> obtain rfl := eq_of_beq h <;> rfl

theorem exponent_append {e : Int} (he : e.natAbs < exponentBound) (hrest : Ends Char.isDigit rest) :
    exponent ('e' :: intText e ++ rest) = .ok (e, rest) := by
  have hdigits := isDigits_natText e.natAbs
  have hsize : exponentSize (natText e.natAbs) = e.natAbs := by
    rw [exponentSize_eq_ofDigits (by rwa [ofDigits_natText]), ofDigits_natText]
  have hmany := many1_digits hdigits hrest
  rw [exponent, List.cons_append, bind_of_ok (a := 'e') (r := intText e ++ rest) rfl]
  unfold intText
  split
  · next hneg =>
    rw [List.cons_append,
      bind_of_ok (optional_of_ok (a := '-') (r := natText e.natAbs ++ rest) rfl),
      bind_of_ok hmany, if_pos rfl, hsize]
    have heq : -(e.natAbs : Int) = e := by omega
    rw [heq]
    rfl
  · next hpos =>
    rw [bind_of_ok (optional_of_error (hdigits.sign_error rest)), bind_of_ok hmany,
      if_neg (by simp), hsize]
    have heq : (e.natAbs : Int) = e := by omega
    rw [heq]
    rfl

theorem exponent_error (hrest : Ends isNameChar rest) :
    exponent rest = .error ⟨rest, .unexpected⟩ := by
  refine bind_of_error (char_error (hrest.mono fun c hc => ?_))
  rcases Bool.or_eq_true_iff.1 hc with h | h <;> obtain rfl := eq_of_beq h <;> rfl

/-- The exponent of a number, if it has one. -/
def exponentText : Option Int → List Char
  | none => []
  | some e => 'e' :: intText e

theorem ends_exponentText {test : Char → Bool} (hrest : Ends test rest) (he : test 'e' = false)
    (e? : Option Int) : Ends test (exponentText e? ++ rest) := by
  cases e? with
  | none => exact hrest
  | some e => exact ends_cons he _

/-- An exponent reads back, and so does the absence of one. -/
theorem optional_exponent {e? : Option Int} (he : ∀ e ∈ e?, e.natAbs < exponentBound)
    (hrest : Ends isNameChar rest) :
    optional exponent (exponentText e? ++ rest) = .ok (e?, rest) := by
  cases e? with
  | some e =>
    exact optional_of_ok (exponent_append (he e rfl) hrest.isDigit)
  | none =>
    exact optional_of_error (exponent_error hrest)

/-- The fraction of a number, if it has one. -/
def fractionText : List Char → List Char
  | [] => []
  | ds => '.' :: ds

/-- A number with a fraction, an exponent or both. -/
theorem decimal_append (negative : Bool) {whole ds : List Char} {e? : Option Int}
    (hwhole : IsDigits whole) (hds : ∀ c ∈ ds, c.isDigit = true)
    (hsome : ds ≠ [] ∨ e?.isSome = true)
    (he : ∀ e ∈ e?, e.natAbs < exponentBound) (hrest : Ends isNameChar rest) :
    decimal (signText negative ++ (whole ++ (fractionText ds ++ (exponentText e? ++ rest)))) =
      .ok (.ofDecimal negative ⟨ofDigits (whole ++ ds), e?.getD 0 - ds.length⟩, rest) := by
  have hdigit := hrest.isDigit
  have hminus := optional_minus negative hwhole (fractionText ds ++ (exponentText e? ++ rest))
  have hend : Ends Char.isDigit (fractionText ds ++ (exponentText e? ++ rest)) := by
    cases ds with
    | nil => exact ends_exponentText hdigit rfl e?
    | cons c ds => exact ends_cons rfl _
  have htail : either fraction (do let e ← exponent; return ([], e))
      (fractionText ds ++ (exponentText e? ++ rest)) = .ok ((ds, e?.getD 0), rest) := by
    cases ds with
    | cons c ds =>
      refine either_of_ok ?_
      rw [fractionText, List.cons_append, fraction, bind_of_ok (a := ()) (r := c :: ds ++ _) rfl,
        bind_of_ok (many1_digits ⟨List.cons_ne_nil c ds, hds⟩ (ends_exponentText hdigit rfl e?)),
        bind_of_ok (optional_exponent he hrest)]
      · rfl
      · simp
    | nil =>
      obtain ⟨e, rfl⟩ := Option.isSome_iff_exists.1 (hsome.resolve_left (by simp))
      have hpoint : fraction (exponentText (some e) ++ rest) =
          .error ⟨exponentText (some e) ++ rest, .unexpected⟩ :=
        bind_of_error (word_error rfl (ends_cons rfl _))
      have hexponent : exponent (exponentText (some e) ++ rest) = .ok (e, rest) :=
        exponent_append (he e rfl) hdigit
      rw [fractionText, List.nil_append, either_of_error hpoint, bind_of_ok hexponent]
      rfl
  rw [decimal, bind_of_ok hminus, bind_of_ok (many1_digits hwhole hend), bind_of_ok htail,
    isSome_signMark]
  rfl

/-! ## Floating-point numbers -/

/-- A text that `decimal` reads as the number. -/
structure Spells (x : Binary64) (whole ds : List Char) (e? : Option Int) : Prop where
  leading : IsDigits whole
  fraction : ∀ c ∈ ds, c.isDigit = true
  marked : ds ≠ [] ∨ e?.isSome = true
  small : ∀ e ∈ e?, e.natAbs < exponentBound
  value : Binary64.ofDecimal x.negative ⟨ofDigits (whole ++ ds), e?.getD 0 - ds.length⟩ = x

theorem isDigit_of_mem_replicate {n : Nat} {c : Char} (h : c ∈ List.replicate n '0') :
    c.isDigit = true := by
  rw [List.eq_of_mem_replicate h]
  rfl

/-- A decimal near one is spelled with all its digits around the point. -/
theorem spells_positional {x : Binary64} {d : Decimal} (hd : Binary64.ofDecimal x.negative d = x)
    (hne : d.coefficient ≠ 0) (hlow : -4 ≤ d.leading) (hhigh : d.leading < 16) :
    ∃ whole ds e?, d.positional = whole ++ (fractionText ds ++ exponentText e?) ∧
      Spells x whole ds e? := by
  obtain ⟨c, e⟩ := d
  have hdigits := isDigits_natText c
  unfold Decimal.positional
  cases e with
  | ofNat zeros =>
    have hzeros : zeros ≤ 400 := by
      have := length_natText_pos c
      simp only [Decimal.leading, Int.ofNat_eq_natCast] at hhigh
      omega
    have htext : natText c ++ List.replicate zeros '0' ++ ['0'] =
        natText (c * 10 ^ (zeros + 1)) := by
      rw [natText_mul_pow hne, List.append_assoc, List.replicate_succ']
    refine ⟨natText c ++ List.replicate zeros '0', ['0'], none,
      by simp [fractionText, exponentText],
      hdigits.append fun _ => isDigit_of_mem_replicate, by simp, by simp, by simp, ?_⟩
    have hscale := Binary64.ofDecimal_scale x.negative hne (zeros + 1) (e := zeros) (by omega)
    rw [show ((zeros : Int) - (zeros + 1 : Nat)) = -1 by omega] at hscale
    rw [htext, ofDigits_natText]
    exact hscale.trans hd
  | negSucc k =>
    have hexponent : ∀ ds : List Char, ds.length = k + 1 →
        (none : Option Int).getD 0 - ds.length = Int.negSucc k := by
      intro ds hds
      rw [hds, Int.negSucc_eq]
      simp only [Option.getD_none]
      omega
    dsimp only
    split
    · next hlt =>
      have hsplit := List.take_append_drop ((natText c).length - (k + 1)) (natText c)
      refine ⟨(natText c).take ((natText c).length - (k + 1)),
        (natText c).drop ((natText c).length - (k + 1)), none, ?_, ⟨?_, fun ch hch => ?_⟩,
        fun ch hch => ?_, .inl ?_, by simp, ?_⟩
      · have hne' : (natText c).drop ((natText c).length - (k + 1)) ≠ [] := by
          rw [ne_eq, List.drop_eq_nil_iff]
          omega
        obtain ⟨ch, cs, hcs⟩ := List.exists_cons_of_ne_nil hne'
        simp [hcs, fractionText, exponentText]
      · rw [ne_eq, List.take_eq_nil_iff]
        have := natText_ne_nil c
        simp only [this, or_false]
        omega
      · exact hdigits.2 ch (List.mem_of_mem_take hch)
      · exact hdigits.2 ch (List.mem_of_mem_drop hch)
      · rw [ne_eq, List.drop_eq_nil_iff]
        omega
      · rw [hsplit, ofDigits_natText, hexponent]
        · exact hd
        · rw [List.length_drop]
          omega
    · next hge =>
      refine ⟨['0'], List.replicate (k + 1 - (natText c).length) '0' ++ natText c, none, ?_,
        ⟨by simp, List.forall_mem_singleton.2 rfl⟩, fun ch hch => ?_, .inl ?_, by simp, ?_⟩
      · have hne' : List.replicate (k + 1 - (natText c).length) '0' ++ natText c ≠ [] := by
          simp [natText_ne_nil]
        obtain ⟨ch, cs, hcs⟩ := List.exists_cons_of_ne_nil hne'
        rw [List.cons_append, List.cons_append, hcs]
        simp [fractionText, exponentText]
      · exact (List.mem_append.1 hch).elim isDigit_of_mem_replicate (hdigits.2 ch)
      · simp [natText_ne_nil]
      · have hvalue : ofDigits
          (['0'] ++ (List.replicate (k + 1 - (natText c).length) '0' ++ natText c)) =
            c := by
          rw [ofDigits, List.cons_append, List.nil_append, Nat.ofDigitChars_cons,
            Nat.ofDigitChars_append, Nat.ofDigitChars_replicate_zero, Nat.sub_self]
          exact ofDigits_natText c
        rw [hvalue, hexponent]
        · exact hd
        · rw [List.length_append, List.length_replicate]
          omega

/-- With an exponent a decimal is spelled with one digit in front of the point. -/
theorem spells_scientific {x : Binary64} {d : Decimal} (hd : Binary64.ofDecimal x.negative d = x)
    (hlow : -3000 < d.leading) (hhigh : d.leading < 3000) :
    ∃ whole ds e?, d.scientific = whole ++ (fractionText ds ++ exponentText e?) ∧
      Spells x whole ds e? := by
  obtain ⟨c, e⟩ := d
  have hdigits := isDigits_natText c
  have hpos := length_natText_pos c
  have hsplit := List.take_append_drop 1 (natText c)
  refine ⟨(natText c).take 1, (natText c).drop 1, some (Decimal.leading ⟨c, e⟩), ?_,
    ⟨?_, fun ch hch => ?_⟩,
    fun ch hch => ?_, by simp, fun l hl => ?_, ?_⟩
  · unfold Decimal.scientific
    dsimp only
    split
    · next hone =>
      rw [List.drop_eq_nil_of_le (by omega)]
      simp [fractionText, exponentText]
    · next hmany =>
      have hne : (natText c).drop 1 ≠ [] := by
        rw [ne_eq, List.drop_eq_nil_iff]
        omega
      obtain ⟨ch, cs, hcs⟩ := List.exists_cons_of_ne_nil hne
      simp [hcs, fractionText, exponentText]
  · rw [ne_eq, List.take_eq_nil_iff]
    simp [natText_ne_nil]
  · exact hdigits.2 ch (List.mem_of_mem_take hch)
  · exact hdigits.2 ch (List.mem_of_mem_drop hch)
  · obtain rfl := Option.some.inj hl
    unfold exponentBound
    omega
  · have hexponent : (some (Decimal.leading ⟨c, e⟩)).getD 0 - ((natText c).drop 1).length = e := by
      simp only [Decimal.leading, Option.getD_some, List.length_drop]
      omega
    rw [hsplit, ofDigits_natText, hexponent]
    exact hd

/-- The text of a finite number spells it. -/
theorem exists_spells {x : Binary64} (hx : x.magnitude < Binary64.infinityBits) :
    ∃ whole ds e?, x.sizeText = whole ++ (fractionText ds ++ exponentText e?) ∧
      Spells x whole ds e? := by
  unfold Binary64.sizeText
  split
  · next hzero =>
    have hdigit : ∀ c ∈ ['0'], c.isDigit = true := List.forall_mem_singleton.2 rfl
    refine ⟨['0'], ['0'], none, rfl, ⟨by simp, hdigit⟩, hdigit, by simp, by simp, ?_⟩
    rw [Binary64.ofDecimal, if_pos (.inl rfl)]
    have := Binary64.ofMagnitude_self hx.le
    rwa [hzero] at this
  · next hzero =>
    rw [if_neg hx.ne]
    have hround := Binary64.ofDecimal_shortest hx hzero
    have hbounds := Binary64.leading_shortest hx
    dsimp only
    split
    · next hsmall =>
      exact spells_positional hround (Binary64.coefficient_shortest_ne_zero hx hzero) hsmall.1
        hsmall.2
    · exact spells_scientific hround hbounds.1 hbounds.2

/-- Digits are none of the words for infinities and NaN. -/
theorem float_eq_decimal (negative : Bool) {ds : List Char} (h : IsDigits ds) (rest : List Char) :
    float (signText negative ++ (ds ++ rest)) = decimal (signText negative ++ (ds ++ rest)) := by
  obtain ⟨c, cs, rfl, hc⟩ := h.exists_cons
  have hne : ∀ d : Char, d.isDigit = false → ∀ tail, Ends (· == d) (c :: tail) := by
    intro d hd tail
    refine ends_cons (Bool.eq_false_iff.2 fun h => ?_) tail
    rw [eq_of_beq h, hd] at hc
    cases hc
  cases negative with
  | false =>
    change float (c :: (cs ++ rest)) = decimal (c :: (cs ++ rest))
    rw [float, either_of_error (bind_of_error (word_error (d := 'N') rfl (hne 'N' rfl _))),
      either_of_error (bind_of_error (word_error (d := 'i') rfl (hne 'i' rfl _))),
      either_of_error (bind_of_error (word_error (d := '-') rfl (hne '-' rfl _)))]
  | true =>
    change float ('-' :: c :: (cs ++ rest)) = decimal ('-' :: c :: (cs ++ rest))
    have hword : word "-inf" ('-' :: c :: (cs ++ rest)) =
        .error ⟨'-' :: c :: (cs ++ rest), .unexpected⟩ := by
      have hi : ('i' == c) = false := BEq.comm.trans (hne 'i' rfl [] c rfl)
      have hw : "-inf".toList = ['-', 'i', 'n', 'f'] := rfl
      rw [word, hw, isPrefixOf?_cons, isPrefixOf?_cons, hi]
      rfl
    rw [float, either_of_error (bind_of_error (word_error (d := 'N') rfl (ends_cons rfl _))),
      either_of_error (bind_of_error (word_error (d := 'i') rfl (ends_cons rfl _))),
      either_of_error (bind_of_error hword)]

/-- The text of a number is read as this number, up to the bits of a NaN. -/
theorem float_append (x : Binary64) (hrest : Ends isNameChar rest) :
    float (x.text ++ rest) = .ok (x.reread, rest) := by
  unfold Binary64.text Binary64.reread
  split
  · exact either_of_ok (bind_of_ok (a := ()) (r := rest) rfl)
  · next hnan =>
    have hle : x.magnitude ≤ Binary64.infinityBits := by
      simpa [Binary64.isNaN] using hnan
    rcases Nat.lt_or_eq_of_le hle with hlt | heq
    · obtain ⟨whole, ds, e?, htext, hspells⟩ := exists_spells hlt
      have hread :=
        decimal_append x.negative hspells.leading hspells.fraction hspells.marked hspells.small
        hrest
      rw [hspells.value] at hread
      have hsign : (if x.negative = true then '-' :: x.sizeText else x.sizeText) ++ rest =
          signText x.negative ++ (whole ++ (fractionText ds ++ (exponentText e? ++ rest))) := by
        rw [htext]
        unfold signText
        split <;> simp
      rw [hsign]
      rw [float_eq_decimal _ hspells.leading]
      exact hread
    · have hself := Binary64.ofMagnitude_self hle
      rw [heq] at hself
      have hsize : x.sizeText = ['i', 'n', 'f'] := by
        rw [Binary64.sizeText, if_neg (by rw [heq]; decide), if_pos heq]
      rw [hsize]
      cases hneg : x.negative with
      | false =>
        rw [hneg] at hself
        rw [← hself]
        rfl
      | true =>
        rw [hneg] at hself
        rw [← hself]
        rfl

/-- Digits are no floating-point number if a literal ends behind them. -/
theorem float_error (negative : Bool) {ds : List Char} (h : IsDigits ds)
    (hrest : Ends isLiteralChar rest) :
      ∃ stop, float (signText negative ++ (ds ++ rest)) = .error stop := by
  have hminus := optional_minus negative h rest
  have hfraction : fraction rest = .error ⟨rest, .unexpected⟩ :=
    bind_of_error (word_error (d := '.') rfl (hrest.mono fun c hc => by
      simp [isLiteralChar, eq_of_beq hc]))
  refine ⟨⟨rest, .unexpected⟩, ?_⟩
  rw [float_eq_decimal negative h, decimal, bind_of_ok hminus,
    bind_of_ok (many1_digits h hrest.isNameChar.isDigit)]
  exact bind_of_error
    ((either_of_error hfraction).trans (bind_of_error (exponent_error hrest.isNameChar)))

/-- The text of an integer is no floating-point number. -/
theorem float_intText (i : Int) (hrest : Ends isLiteralChar rest) :
    ∃ stop, float (intText i ++ rest) = .error stop := by
  rw [intText_eq, List.append_assoc]
  exact float_error _ (isDigits_natText i.natAbs) hrest

end Scan

/-- An integer fits 64 bits. -/
def Constant.Fits : Constant → Prop
  | int i => Scan.Fits i
  | float _ => True

/-- What the text of a lane begins with. -/
theorem Constant.exists_text_cons (lane : Constant) :
    ∃ c cs, lane.text = c :: cs ∧ (Scan.isNameChar c = true ∨ c = '-') := by
  have hdigits : ∀ {ds : List Char} (rest : List Char), Scan.IsDigits ds →
      ∃ c cs, ds ++ rest = c :: cs ∧ (Scan.isNameChar c = true ∨ c = '-') := by
    intro ds rest h
    obtain ⟨c, cs, rfl, hc⟩ := h.exists_cons
    exact ⟨c, cs ++ rest, rfl, .inl (by simp [Scan.isNameChar, Char.isAlphanum, hc])⟩
  cases lane with
  | int i =>
    change ∃ c cs, intText i = c :: cs ∧ _
    unfold intText
    split
    · exact ⟨'-', _, rfl, .inr rfl⟩
    · simpa using hdigits [] (Scan.isDigits_natText i.natAbs)
  | float x =>
    change ∃ c cs, x.text = c :: cs ∧ _
    unfold Binary64.text
    split
    · exact ⟨'N', _, rfl, .inl rfl⟩
    · next hnan =>
      split
      · exact ⟨'-', _, rfl, .inr rfl⟩
      · have hle : x.magnitude ≤ Binary64.infinityBits := by
          simpa [Binary64.isNaN] using hnan
        rcases Nat.lt_or_eq_of_le hle with hlt | heq
        · obtain ⟨whole, ds, e?, htext, hspells⟩ := Scan.exists_spells hlt
          rw [htext]
          exact hdigits _ hspells.leading
        · rw [Binary64.sizeText, if_neg (by rw [heq]; decide), if_pos heq]
          exact ⟨'i', _, rfl, .inl rfl⟩

theorem Constant.solid_text (lane : Constant) (rest : List Char) :
    Scan.Solid (lane.text ++ rest) := by
  obtain ⟨c, cs, hcs, hc⟩ := lane.exists_text_cons
  rw [hcs]
  rcases hc with hc | rfl
  · obtain ⟨hblank, hslash⟩ := Scan.isBlank_of_isNameChar hc
    exact Scan.solid_cons hblank hslash _
  · exact Scan.solid_cons rfl (by decide) _

theorem Constant.ends_text (lane : Constant) (rest : List Char) :
    Scan.Ends (· == '[') (lane.text ++ rest) := by
  obtain ⟨c, cs, hcs, hc⟩ := lane.exists_text_cons
  rw [hcs]
  refine Scan.ends_cons (Bool.eq_false_iff.2 fun h => ?_) _
  obtain rfl := eq_of_beq h
  rcases hc with hc | hc <;> cases hc

/-- The text of a lane is read as this lane. -/
theorem Scan.constant_append {lane : Constant} (h : lane.Fits) {rest : List Char}
    (hrest : Ends isLiteralChar rest) : constant (lane.text ++ rest) = .ok (lane.reread, rest) := by
  cases lane with
  | float x => exact either_of_ok (bind_of_ok (float_append x hrest.isNameChar))
  | int i =>
    obtain ⟨stop, hstop⟩ := float_intText i hrest
    exact (either_of_error (bind_of_error hstop)).trans
      (bind_of_ok (integer_append h hrest.isNameChar.isDigit))

end KernelIR
