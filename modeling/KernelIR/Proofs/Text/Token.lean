import KernelIR.Proofs.Text.Lexeme
import KernelIR.Proofs.Text.Piece

/-!
# Tokens

`tokens` takes any text apart, be it a kernel or not : outside of comments it consists of names, of
numbers and of single characters. A name or a number is as long as it can be. In front of a text
that does not go on with it, a token is taken as a whole (`Token.IsToken.tokens_append`), and layout
is none (`tokens_dropLayout`).

What the grammar reads as one name or as one literal is one token (`Token.isLiteral_of_isConstant`).
-/

namespace KernelIR

open Scan (Ends isBlank isNameChar isLiteralChar dropLayout)

namespace Token

/-- Numbers begin with a digit or with a minus sign. -/
def beginsNumber (c : Char) : Bool :=
  c.isDigit || c == '-'

/-- Names may have a sign in front. -/
def beginsName (c : Char) : Bool :=
  c == '%' || c == '@' || isNameChar c

/-- The token ends in the letter of an exponent, behind which there may be a sign. -/
def awaitsSign (token : List Char) : Bool :=
  token.getLast?.any fun c => c == 'e' || c == 'E'

/-- Whether a token goes on with the character. -/
def goesOn : List Char → Char → Bool
  | [], _ => false
  | first :: token, c =>
    if beginsNumber first then
      isLiteralChar c || (c == '+' || c == '-') && awaitsSign (first :: token)
    else beginsName first && isNameChar c

/-- The token goes on with all of the characters. -/
def RunsOn (token : List Char) : List Char → Prop
  | [] => True
  | c :: cs => goesOn token c = true ∧ RunsOn (token ++ [c]) cs

/-- The characters are one token. -/
def IsToken : List Char → Prop
  | [] => False
  | c :: cs => isBlank c = false ∧ c ≠ '/' ∧ RunsOn [c] cs

/-- What has been taken for a token so far, if there is something. -/
def emit (token : List Char) : List (List Char) :=
  if token = [] then [] else [token]

end Token

open Token

/-- The tokens of a text, behind the beginning of one. The flag tells whether the text begins inside
a comment. -/
def tokensFrom : Bool → List Char → List Char → List (List Char)
  | _, token, [] => emit token
  | true, token, c :: text => tokensFrom (c != '\n') token text
  | false, token, '/' :: '/' :: text => emit token ++ tokensFrom true [] text
  | false, token, c :: text =>
    if goesOn token c then tokensFrom false (token ++ [c]) text
    else emit token ++ tokensFrom false (if isBlank c then [] else [c]) text

/-- The tokens of a text. -/
def tokens (text : List Char) : List (List Char) :=
  tokensFrom false [] text

example : tokens "%s[ 1]// x 2\n-1e-5:f32x4".toList =
    ["%s".toList, ['['], ['1'], [']'], "-1e-5".toList, [':'], "f32x4".toList] := by
  decide

namespace Token

variable {token cs ds text rest : List Char} {c d : Char}

/-! ## Taking tokens -/

/-- No token goes on with a slash, so a comment ends the token in front of it. -/
theorem goesOn_slash (token : List Char) : goesOn token '/' = false := by
  cases token with
  | nil => rfl
  | cons first token =>
    rw [goesOn]
    split
    · rfl
    · exact Bool.and_false _

theorem tokensFrom_cons (h : goesOn token c = true) (text : List Char) :
    tokensFrom false token (c :: text) = tokensFrom false (token ++ [c]) text := by
  rw [tokensFrom, if_pos h]
  rintro _ rfl
  rw [goesOn_slash] at h
  cases h

/-- What a token runs on with becomes part of it. -/
theorem tokensFrom_append (h : RunsOn token cs) (rest : List Char) :
    tokensFrom false token (cs ++ rest) = tokensFrom false (token ++ cs) rest := by
  induction cs generalizing token with
  | nil => rw [List.nil_append, List.append_nil]
  | cons c cs ih =>
    rw [List.cons_append, tokensFrom_cons h.1, ih h.2, List.append_assoc]
    rfl

/-- A token ends where the text does not go on with it. -/
theorem tokensFrom_of_ends (h : Ends (goesOn token) text) :
    tokensFrom false token text = emit token ++ tokens text := by
  cases text with
  | nil => exact (List.append_nil _).symm
  | cons c text =>
    have hc : goesOn token c ≠ true := Bool.eq_false_iff.1 (h c rfl)
    unfold tokens
    by_cases hcomment : ∃ rest, c = '/' ∧ text = '/' :: rest
    · obtain ⟨rest, rfl, rfl⟩ := hcomment
      rfl
    · have hno : ∀ rest, c = '/' → text = '/' :: rest → False := fun rest hc htext =>
        hcomment ⟨rest, hc, htext⟩
      rw [tokensFrom, if_neg hc, tokensFrom]
      · rfl
      · exact hno
      · exact hno

theorem IsToken.tokens_append (h : IsToken token) (hends : Ends (goesOn token) rest) :
    tokens (token ++ rest) = token :: tokens rest := by
  cases token with
  | nil => exact h.elim
  | cons c cs =>
    obtain ⟨hblank, hslash, hruns⟩ := h
    have hfirst : tokens (c :: (cs ++ rest)) = tokensFrom false [c] (cs ++ rest) := by
      rw [tokens, tokensFrom, hblank]
      · rfl
      · exact fun _ heq => absurd heq hslash
    rw [List.cons_append, hfirst, tokensFrom_append hruns]
    exact tokensFrom_of_ends hends

end Token

/-- Layout is no token, also where the text begins inside a comment. -/
theorem tokensFrom_dropLayout (inside : Bool) (text : List Char) :
    tokensFrom inside [] text = tokens (dropLayout inside text) := by
  fun_induction dropLayout inside text with
  | case1 inside => cases inside <;> rfl
  | case2 c rest ih => exact ih
  | case3 rest ih => exact ih
  | case4 c rest hcomment hblank ih =>
    rw [tokensFrom, hblank]
    · exact ih
    · exact hcomment
  | case5 => rfl

/-- Layout has no tokens. -/
theorem tokens_dropLayout (text : List Char) : tokens (dropLayout false text) = tokens text :=
  (tokensFrom_dropLayout false text).symm

namespace Token

variable {token cs ds text rest : List Char} {c d : Char}

theorem runsOn_append : RunsOn token (cs ++ ds) ↔ RunsOn token cs ∧ RunsOn (token ++ cs) ds := by
  induction cs generalizing token with
  | nil => simp [RunsOn]
  | cons c cs ih => simp [RunsOn, ih, and_assoc]

/-! ## Names -/

/-- A name goes on with the characters of names. -/
theorem goesOn_name (hname : beginsName c = true) (hnumber : beginsNumber c = false)
    (cs : List Char) (d : Char) : goesOn (c :: cs) d = isNameChar d := by
  rw [goesOn, hnumber, hname]
  rfl

theorem isToken_name (hname : beginsName c = true) (hnumber : beginsNumber c = false)
    (hcs : ∀ d ∈ cs, isNameChar d = true) : IsToken (c :: cs) := by
  have hsolid : isBlank c = false ∧ c ≠ '/' := by
    simp only [beginsName, Bool.or_eq_true, beq_iff_eq] at hname
    rcases hname with (rfl | rfl) | hname
    · decide
    · decide
    · exact Scan.isBlank_of_isNameChar hname
  have hruns : ∀ ds cs, (∀ d ∈ cs, isNameChar d = true) → RunsOn (c :: ds) cs := by
    intro ds cs hcs
    induction cs generalizing ds with
    | nil => trivial
    | cons d cs ih =>
      obtain ⟨hd, hcs⟩ := List.forall_mem_cons.1 hcs
      exact ⟨(goesOn_name hname hnumber ds d).trans hd, ih (ds ++ [d]) hcs⟩
  exact ⟨hsolid.1, hsolid.2, hruns [] cs hcs⟩

/-- The digits come before the letters. -/
theorem not_isDigit_of_isAlpha (h : c.isAlpha = true) : c.isDigit = false := by
  have hletter : 'A'.toNat ≤ c.toNat := by
    obtain hupper | hlower := Bool.or_eq_true_iff.1 h
    · exact (of_decide_eq_true hupper).1
    · have : 'a'.toNat ≤ c.toNat := of_decide_eq_true (Bool.and_eq_true_iff.1 hlower).1
      exact Nat.le_trans (by decide) this
  exact Bool.eq_false_iff.2 fun hdigit =>
    absurd (Nat.le_trans hletter (Char.isDigit_iff_toNat.1 hdigit).2) (by decide)

theorem begins_of_isWord (h : Scan.IsWord (c :: cs)) :
    beginsName c = true ∧ beginsNumber c = false := by
  have hc := h.2 c rfl
  constructor
  · rw [beginsName, h.1.2 c List.mem_cons_self, Bool.or_true]
  · refine Bool.eq_false_iff.2 fun hnumber => ?_
    simp only [beginsNumber, Bool.or_eq_true, beq_iff_eq] at hc hnumber
    rcases hc with hc | rfl
    · rcases hnumber with h | rfl
      · cases (not_isDigit_of_isAlpha hc).symm.trans h
      · cases hc
    · rcases hnumber with h | h <;> cases h

/-! ## Numbers -/

/-- The text ends in a digit. -/
def EndsInDigit (cs : List Char) : Prop :=
  ∃ ds d, cs = ds ++ [d] ∧ d.isDigit = true

theorem endsInDigit_of_isDigits (h : Scan.IsDigits ds) : EndsInDigit ds := by
  obtain ⟨es, d, rfl⟩ := (List.eq_nil_or_concat ds).resolve_left h.1
  exact ⟨es, d, by simp, h.2 d (by simp)⟩

theorem EndsInDigit.append (h : EndsInDigit cs) (ds : List Char) : EndsInDigit (ds ++ cs) := by
  obtain ⟨es, d, rfl, hd⟩ := h
  exact ⟨ds ++ es, d, by simp, hd⟩

theorem EndsInDigit.awaitsSign_eq (h : EndsInDigit cs) : awaitsSign cs = false := by
  obtain ⟨es, d, rfl, hd⟩ := h
  have hne : ∀ e : Char, e.isDigit = false → (d == e) = false := by
    rintro e he
    refine beq_eq_false_iff_ne.2 fun heq => ?_
    rw [heq, he] at hd
    cases hd
  simp [awaitsSign, hne]

/-- The token has begun as a number. -/
def IsNumber (token : List Char) : Prop :=
  ∃ c cs, token = c :: cs ∧ beginsNumber c = true

theorem IsNumber.append (h : IsNumber token) (cs : List Char) : IsNumber (token ++ cs) := by
  obtain ⟨c, ds, rfl, hc⟩ := h
  exact ⟨c, ds ++ cs, rfl, hc⟩

theorem IsNumber.goesOn_eq (h : IsNumber token) (d : Char) :
    goesOn token d = (isLiteralChar d || (d == '+' || d == '-') && awaitsSign token) := by
  obtain ⟨c, cs, rfl, hc⟩ := h
  rw [goesOn, if_pos hc]

theorem IsNumber.runsOn (h : IsNumber token) (hcs : ∀ d ∈ cs, isLiteralChar d = true) :
    RunsOn token cs := by
  induction cs generalizing token with
  | nil => trivial
  | cons d cs ih =>
    obtain ⟨hd, hcs⟩ := List.forall_mem_cons.1 hcs
    exact ⟨by rw [h.goesOn_eq, hd, Bool.true_or], ih (h.append [d]) hcs⟩

/-- A number that ends in a digit goes on with the characters of literals. -/
theorem IsNumber.goesOn_of_endsInDigit (h : IsNumber token) (hdigit : EndsInDigit token)
    (d : Char) :
    goesOn token d = isLiteralChar d := by
  rw [h.goesOn_eq, hdigit.awaitsSign_eq, Bool.and_false, Bool.or_false]

theorem isLiteralChar_of_isDigit (h : d.isDigit = true) : isLiteralChar d = true := by
  simp [isLiteralChar, isNameChar, Char.isAlphanum, h]

theorem exists_cons_of_signed (negative : Bool) (h : Scan.IsDigits ds) :
    ∃ c cs, Scan.signText negative ++ ds = c :: cs ∧ beginsNumber c = true ∧
      (isBlank c = false ∧ c ≠ '/') ∧ ∀ d ∈ cs, d.isDigit = true := by
  cases negative with
  | true => exact ⟨'-', ds, rfl, rfl, by decide, h.2⟩
  | false =>
    obtain ⟨c, cs, rfl, hc⟩ := h.exists_cons
    exact ⟨c, cs, rfl, by rw [beginsNumber, hc, Bool.true_or],
      Scan.isBlank_of_isNameChar (by simp [isNameChar, Char.isAlphanum, hc]),
      fun d hd => h.2 d (List.mem_cons_of_mem c hd)⟩

/-- Digits are a number, with a sign or without one. -/
theorem isNumber_signed (negative : Bool) (h : Scan.IsDigits ds) :
    IsNumber (Scan.signText negative ++ ds) := by
  obtain ⟨c, cs, heq, hc, -⟩ := exists_cons_of_signed negative h
  exact ⟨c, cs, heq, hc⟩

/-- Digits, perhaps with a minus sign, and what a number goes on with behind them. -/
theorem isToken_signed (negative : Bool) (h : Scan.IsDigits ds)
    (hcs : RunsOn (Scan.signText negative ++ ds) cs) :
      IsToken (Scan.signText negative ++ ds ++ cs) := by
  obtain ⟨c, es, heq, hc, hsolid, hes⟩ := exists_cons_of_signed negative h
  rw [heq] at hcs ⊢
  refine ⟨hsolid.1, hsolid.2, runsOn_append.2 ⟨?_, hcs⟩⟩
  exact IsNumber.runsOn ⟨c, [], rfl, hc⟩ fun d hd => isLiteralChar_of_isDigit (hes d hd)

/-! ## Literals -/

theorem IsNumber.runsOn_digits (h : IsNumber token) (hds : Scan.IsDigits ds) : RunsOn token ds :=
  h.runsOn fun d hd => isLiteralChar_of_isDigit (hds.2 d hd)

/-- Behind the letter of an exponent a number goes on with a sign. -/
theorem IsNumber.runsOn_exponent (h : IsNumber token) (hcs : Scan.IsExponent cs) :
    EndsInDigit cs ∧ RunsOn token cs := by
  have hletter : ∀ {c : Char}, (c == 'e' || c == 'E') = true → goesOn token c = true := by
    intro c hc
    rw [h.goesOn_eq]
    rcases Bool.or_eq_true_iff.1 hc with h | h <;> obtain rfl := eq_of_beq h <;> rfl
  cases hcs with
  | unsigned hc hds =>
    exact ⟨(endsInDigit_of_isDigits hds).append [_], hletter hc, (h.append _).runsOn_digits hds⟩
  | @signed c s ds hc hs hds =>
    have hawaits : awaitsSign (token ++ [c]) = true := by simpa [awaitsSign] using hc
    have hsign : goesOn (token ++ [c]) s = true := by
      rw [(h.append [c]).goesOn_eq, hawaits, hs, Bool.and_true, Bool.or_true]
    have hdigits := ((h.append [c]).append [s]).runsOn_digits hds
    exact ⟨(endsInDigit_of_isDigits hds).append [c, s], hletter hc, hsign, hdigits⟩

/-- A number runs on with a fraction and an exponent, and ends in a digit again. -/
theorem IsNumber.runsOn_scale (h : IsNumber token) (hcs : Scan.IsScale cs) :
    EndsInDigit cs ∧ RunsOn token cs := by
  have hfraction : ∀ {ds}, Scan.IsDigits ds → RunsOn token ('.' :: ds) := fun hds =>
    h.runsOn (List.forall_mem_cons.2 ⟨rfl, fun d hd => isLiteralChar_of_isDigit (hds.2 d hd)⟩)
  cases hcs with
  | fraction hds => exact ⟨(endsInDigit_of_isDigits hds).append ['.'], hfraction hds⟩
  | @both ds cs hds hcs =>
    obtain ⟨hdigit, hruns⟩ := (h.append ('.' :: ds)).runsOn_exponent hcs
    exact ⟨hdigit.append ('.' :: ds), runsOn_append.2 ⟨hfraction hds, hruns⟩⟩
  | exponent hcs => exact h.runsOn_exponent hcs

/-- What is read as a literal is one token, and goes on with characters of literals only. -/
structure IsLiteral (cs : List Char) : Prop where
  isToken : IsToken cs
  goesOn : ∀ d, Token.goesOn cs d = true → isLiteralChar d = true

theorem isLiteral_name (hname : beginsName c = true) (hnumber : beginsNumber c = false)
    (hcs : ∀ d ∈ cs, isNameChar d = true) : IsLiteral (c :: cs) where
  isToken := isToken_name hname hnumber hcs
  goesOn d hd := by
    rw [goesOn_name hname hnumber] at hd
    rw [isLiteralChar, hd, Bool.true_or]

theorem isLiteral_signed (negative : Bool) (h : Scan.IsDigits ds)
    (hcs : RunsOn (Scan.signText negative ++ ds) cs)
    (hdigit : EndsInDigit (Scan.signText negative ++ ds ++ cs)) :
    IsLiteral (Scan.signText negative ++ ds ++ cs) where
  isToken := isToken_signed negative h hcs
  goesOn d hd := by
    rwa [((isNumber_signed negative h).append cs).goesOn_of_endsInDigit hdigit] at hd

theorem isLiteral_digits (negative : Bool) (h : Scan.IsDigits ds) :
    IsLiteral (Scan.signText negative ++ ds) := by
  have hruns : RunsOn (Scan.signText negative ++ ds) [] := trivial
  have hliteral := isLiteral_signed negative h hruns
  rw [List.append_nil] at hliteral
  exact hliteral ((endsInDigit_of_isDigits h).append _)

/-- What the grammar reads as one constant is one token. -/
theorem isLiteral_of_isConstant (h : Scan.IsConstant cs) : IsLiteral cs := by
  cases h with
  | nan => exact isLiteral_name (c := 'N') rfl rfl (List.all_eq_true.1 rfl)
  | infinity negative =>
    cases negative with
    | false => exact isLiteral_name (c := 'i') rfl rfl (List.all_eq_true.1 rfl)
    | true =>
      have hnumber : IsNumber ['-'] := ⟨'-', [], rfl, rfl⟩
      refine ⟨⟨rfl, by decide, hnumber.runsOn (List.all_eq_true.1 rfl)⟩, fun d hd => ?_⟩
      have hawaits : awaitsSign (['-'] ++ "inf".toList) = false := rfl
      change goesOn (['-'] ++ "inf".toList) d = true at hd
      rwa [(hnumber.append _).goesOn_eq, hawaits, Bool.and_false, Bool.or_false] at hd
  | integer negative hds => exact isLiteral_digits negative hds
  | decimal negative hds hcs =>
    obtain ⟨hdigit, hruns⟩ := (isNumber_signed negative hds).runsOn_scale hcs
    rw [← List.append_assoc]
    exact isLiteral_signed negative hds hruns (hdigit.append _)

end Token

end KernelIR
