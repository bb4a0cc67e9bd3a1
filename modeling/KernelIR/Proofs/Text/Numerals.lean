import Mathlib.Data.List.TakeWhile
import KernelIR.Proofs.Text.Spelled
import KernelIR.Proofs.Text.Token

/-!
# The numerals of a text

`numerals` finds the numerals of any text, be it a kernel or not : the integers, what stands where
the number of an argument or of a lane belongs, and the numbers of lanes in the names of types. It
looks at tokens only, and takes each numeral with all of its digits. The name of a type without a
number counts as one lane, so there is a number for each name of a type, which ends a statement.

In a spelling of a lawful draft all of them fit, and they stand for the numbers of the draft, one by
one (`numerals_of_neat`). For a part of a spelling `Shows` says this of the numerals in it, whatever
is behind it, and also what the tokens of the part make of a number behind them.
-/

namespace KernelIR

open Scan (Ends ends_cons isBlank isNameChar isLiteralChar IsDigits signText)
open Spelling Token

/-- A numeral of a text. -/
inductive Numeral where
  | integer (negative : Bool) (digits : List Char)
  /-- What stands where the number of an argument or of a lane belongs. -/
  | index (token : List Char)
  /-- The digits of a number of lanes, in the name of a type. -/
  | width (digits : List Char)
  /-- The name of a type without a number of lanes. -/
  | scalar
deriving DecidableEq

/-- A number, and what it is the number of. -/
inductive Quantity where
  | integer (i : Int)
  | index (n : Nat)
  | width (n : Nat)
deriving DecidableEq

namespace Numeral

/-- What the numeral stands for, with all of its digits. -/
def quantity : Numeral → Quantity
  | integer negative digits =>
    .integer (if negative then -(ofDigits digits : Int) else ofDigits digits)
  | index token => .index (ofDigits token)
  | width digits => .width (ofDigits digits)
  | scalar => .width 1

/-- The numeral is in its range. -/
def Fits : Numeral → Prop
  | integer negative digits =>
    if negative then ofDigits digits ≤ 2 ^ 63 else ofDigits digits < 2 ^ 63
  | index token =>
    IsDigits token ∧ (token.head? = some '0' → token = ['0']) ∧ ofDigits token < 2 ^ 32
  | width digits => 1 ≤ ofDigits digits ∧ ofDigits digits ≤ 64
  | scalar => True

/-- The numeral is in its range and stands for the number. -/
def Writes (ν : Numeral) (q : Quantity) : Prop :=
  ν.Fits ∧ ν.quantity = q

end Numeral

instance (ds : List Char) : Decidable (IsDigits ds) :=
  decidable_of_iff (ds ≠ [] ∧ ds.all Char.isDigit = true) <| by
    simp [IsDigits]

/-! ## Finding numerals -/

namespace Numeral

/-- An integer, if the token is one. -/
def integer? : List Char → Option Numeral
  | '-' :: digits => if IsDigits digits then some (.integer true digits) else none
  | digits => if IsDigits digits then some (.integer false digits) else none

/-- What a token gives where a number of an argument or of a lane belongs. -/
def index? (token : List Char) : Option Numeral :=
  if token.head?.any beginsNumber then some (.index token) else none

/-- What the token gives for a number of lanes, if it is a name. -/
def width? (token : List Char) : Option Numeral :=
  match token.dropWhile (· != 'x') with
  | [] => if token.head?.any beginsName then some .scalar else none
  | _ :: digits => if IsDigits digits then some (.width digits) else none

end Numeral

/-- What the tokens in front make of a number. -/
inductive Expect where
  | any
  /-- Behind a value, which may be a slot. -/
  | slot
  /-- The number of an argument or of a lane. -/
  | index
  /-- The name of a type. -/
  | width
deriving DecidableEq

namespace Expect

/-- What the tokens make of a number, with one token more. -/
def next (e : Expect) (token : List Char) : Expect :=
  match token with
  | '%' :: _ => slot
  | [':'] => width
  | ['['] => if e = slot then index else any
  | _ => if token = "arg".toList then index else any

/-- The numeral in a token. -/
def numeral? : Expect → List Char → Option Numeral
  | any, token | slot, token => Numeral.integer? token
  | index, token => Numeral.index? token
  | width, token => Numeral.width? token

end Expect

/-- The numerals in tokens. -/
def numeralsIn : Expect → List (List Char) → List Numeral
  | _, [] => []
  | e, token :: tokens => (e.numeral? token).toList ++ numeralsIn (e.next token) tokens

/-- The numerals of a text. -/
def numerals (text : List Char) : List Numeral :=
  numeralsIn .any (tokens text)

example : numerals "%c = const [-1, 1.5] : f32x2 %l = local_load [%s[007]] : i32 // 8".toList =
    [.integer true ['1'], .width ['2'], .index "007".toList, .scalar] := by
  decide +kernel

/-- The numerals of what is left of a text. -/
def numeralsBehind (e : Expect) (text : List Char) : List Numeral :=
  numeralsIn e (tokens text)

theorem Token.IsToken.numeralsBehind_append {token rest : List Char} (h : IsToken token)
    (hends : Ends (goesOn token) rest) (e : Expect) : numeralsBehind e (token ++ rest) =
      (e.numeral? token).toList ++ numeralsBehind (e.next token) rest := by
  rw [numeralsBehind, h.tokens_append hends]
  rfl

/-! ## The numbers of a draft -/

/-- The number that a literal gives. -/
def Constant.written : Constant → List Quantity
  | int i => [.integer i]
  | float _ => []

def Form.written : Form → List Quantity
  | splat lane => lane.written
  | lanes l => l.flatMap Constant.written
  | arg index => [.index index]
  | loadLanes l => l.map fun lane => .index lane.2
  | _ => []

/-- The number of lanes that the name of a type gives. -/
def writtenWidth (name : List Char) : List Quantity :=
  (ValueType.ofName? name).toList.map fun type => .width type.width

def Head.written (head : Head) : List Quantity :=
  head.form.written ++ head.annotation?.toList.flatMap writtenWidth

/-- The numbers of a draft, as they are written. -/
def Draft.written : Draft → List Quantity
  | nil => []
  | cons head first second rest =>
    head.written ++ (first.written ++ (second.written ++ rest.written))

/-! ## What a spelling shows -/

/-- Behind these tokens, what is spelled so has numerals that fit and stand for the given
numbers. -/
def Shows (E : Expect → Prop) (L : Spelling) (F : List Char → Prop) (l : List Quantity)
    (E' : Expect → Prop) : Prop :=
  ∀ ps : List Piece, ps.map Piece.shape ∈ L → ∀ qs, Neat (ps ++ qs) → F (lead qs) → ∀ e, E e →
    ∃ ms e', numeralsBehind e (flatten (ps ++ qs)) = ms ++ numeralsBehind e' (flatten qs) ∧
      List.Forall₂ Numeral.Writes ms l ∧ E' e'

/-- An integer behind these tokens is a constant. -/
def Calm (e : Expect) : Prop :=
  e = .any ∨ e = .slot

namespace Shows

variable {E E' E₁ : Expect → Prop} {L M : Spelling} {F G : List Char → Prop} {l l' : List Quantity}

theorem one (h : ∀ e, E e → E' e) : Shows E 1 F [] E' := by
  intro ps hps qs _ _ e he
  obtain rfl := eq_nil_of_mem_one hps
  exact ⟨[], e, rfl, .nil, h e he⟩

theorem mul (hL : Shows E L G l E₁) (hstart : Starts M F G) (hM : Shows E₁ M F l' E') :
    Shows E (L * M) F (l ++ l') E' := by
  intro ps hps qs hneat hF e he
  obtain ⟨ps₁, ps₂, rfl, h₁, h₂⟩ := exists_of_mem_mul hps
  rw [List.append_assoc] at hneat ⊢
  obtain ⟨ms, e₁, heq, hms, he₁⟩ :=
    hL ps₁ h₁ (ps₂ ++ qs) hneat (hstart ps₂ h₂ qs hneat.right hF) e he
  obtain ⟨ms', e', heq', hms', he'⟩ := hM ps₂ h₂ qs hneat.right hF e₁ he₁
  exact ⟨ms ++ ms', e', by rw [heq, heq', List.append_assoc], List.rel_append hms hms', he'⟩

/-- Behind a part without numerals. -/
theorem skip (hL : Shows E L G [] E₁) (hstart : Starts M F G) (hM : Shows E₁ M F l E') :
    Shows E (L * M) F l E' :=
  hL.mul hstart hM

theorem seq (hL : Shows E L Always [] E₁) (hM : Shows E₁ M F l E') : Shows E (L * M) F l E' :=
  hL.mul .always hM

/-- In front of a part without numerals. -/
theorem close (hL : Shows E L G l E₁) (hstart : Starts M F G) (hM : Shows E₁ M F [] E') :
    Shows E (L * M) F l E' :=
  List.append_nil l ▸ hL.mul hstart hM

theorem of_mul_one (h : Shows E (L * 1) F l E') : Shows E L F l E' := by
  rwa [mul_one] at h

theorem given_mul {p : Prop} (h : p → Shows E L F l E') : Shows E (given p * L) F l E' := by
  by_cases hp : p
  · rw [Scan.given_mul hp]
    exact h hp
  · rw [Scan.given_eq_zero hp, zero_mul]
    exact fun _ hps => absurd hps (Language.notMem_zero _)

theorem mono (h : Shows E L F l E') (hE : ∀ e, E₁ e → E e) (hF : ∀ text, G text → F text) :
    Shows E₁ L G l E' :=
  fun ps hps qs hneat hG e he => h ps hps qs hneat (hF _ hG) e (hE e he)

theorem gap : Shows E gap F [] E := by
  intro ps hps qs hneat _ e he
  obtain ⟨run, rfl⟩ := exists_of_mem_gap hps
  refine ⟨[], e, ?_, .nil, he⟩
  have hskip : tokens (flatten ([.layout run] ++ qs)) = tokens (flatten qs) := by
    rw [← tokens_dropLayout, ← tokens_dropLayout (flatten qs)]
    exact congrArg tokens (lead_layout hneat)
  rw [numeralsBehind, hskip]
  rfl

/-- A piece that is one token. -/
theorem of_token (h : ∀ ps ∈ L, ∃ p : Piece, ps = [p] ∧ (∀ run, p ≠ .layout run) ∧ IsToken p.text ∧
    (∀ rest, p.Meets rest → F (Scan.dropLayout false rest) → Ends (goesOn p.text) rest) ∧
    ∀ e, E e → List.Forall₂ Numeral.Writes (e.numeral? p.text).toList l ∧ E' (e.next p.text)) :
    Shows E L F l E' := by
  intro ps hps qs hneat hF e he
  obtain ⟨p, hp, hpiece, htoken, hends, hshows⟩ := h _ hps
  obtain rfl := eq_of_map_shape hp hpiece
  have hmeets := hneat.1
  rw [List.append_nil] at hmeets
  refine ⟨(e.numeral? p.text).toList, e.next p.text, ?_, hshows e he⟩
  exact htoken.numeralsBehind_append (hends _ hmeets hF) e

end Shows

/-! ## Tokens without numerals -/

namespace Numeral

/-- The integers among the tokens are the runs of digits, with a sign or without one. -/
theorem integer?_eq_some_iff {token : List Char} {ν : Numeral} : integer? token = some ν ↔
    ∃ negative ds, token = signText negative ++ ds ∧ IsDigits ds ∧ ν = .integer negative ds := by
  have hplain : ∀ {ds : List Char}, IsDigits ds → (∀ es, ds ≠ '-' :: es) := by
    rintro ds hds es rfl
    cases hds.2 '-' List.mem_cons_self
  fun_cases integer? token with
  | case1 ds hds =>
    constructor
    · rintro ⟨⟩
      exact ⟨true, ds, rfl, hds, rfl⟩
    · rintro ⟨negative, es, heq, hes, rfl⟩
      cases negative with
      | true => exact (List.cons.inj heq).2 ▸ rfl
      | false => exact absurd heq.symm (hplain hes ds)
  | case2 ds hds =>
    refine iff_of_false nofun ?_
    rintro ⟨negative, es, heq, hes, -⟩
    cases negative with
    | true => exact hds ((List.cons.inj heq).2 ▸ hes)
    | false => exact hplain hes ds heq.symm
  | case3 token hminus hds =>
    constructor
    · rintro ⟨⟩
      exact ⟨false, token, rfl, hds, rfl⟩
    · rintro ⟨negative, es, rfl, hes, rfl⟩
      cases negative with
      | true => exact absurd rfl (hminus es)
      | false => rfl
  | case4 token hminus hds =>
    refine iff_of_false nofun ?_
    rintro ⟨negative, es, rfl, hes, -⟩
    cases negative with
    | true => exact hminus es rfl
    | false => exact hds hes

/-- What does not begin as a number is no integer. -/
theorem integer?_eq_none {c : Char} (hc : beginsNumber c = false) (cs : List Char) :
    integer? (c :: cs) = none := by
  refine Option.eq_none_iff_forall_ne_some.2 fun ν h => ?_
  obtain ⟨negative, ds, heq, hds, -⟩ := integer?_eq_some_iff.1 h
  obtain ⟨d, es, hcons, hd, -⟩ := exists_cons_of_signed negative hds
  obtain ⟨rfl, -⟩ := List.cons.inj (heq.trans hcons)
  cases hc.symm.trans hd

end Numeral

namespace Expect

/-- Where nothing special is expected only integers count. -/
theorem numeral?_of_calm {e : Expect} (h : Calm e) (token : List Char) :
    e.numeral? token = Numeral.integer? token := by
  rcases h with rfl | rfl <;> rfl

theorem next_eq_any {c : Char} {cs : List Char} (hc : c ≠ '%' ∧ c ≠ ':' ∧ c ≠ '[')
    (harg : c :: cs ≠ "arg".toList) (e : Expect) : e.next (c :: cs) = .any := by
  unfold next
  split
  · next heq => exact absurd (List.cons.inj heq).1 hc.1
  · next heq => exact absurd (List.cons.inj heq).1 hc.2.1
  · next heq => exact absurd (List.cons.inj heq).1 hc.2.2
  · exact if_neg harg

theorem next_of_beginsNumber {c : Char} (hc : beginsNumber c = true) (cs : List Char) (e : Expect) :
    e.next (c :: cs) = .any := by
  refine next_eq_any ⟨?_, ?_, ?_⟩ (fun heq => ?_) e
  · rintro rfl
    cases hc
  · rintro rfl
    cases hc
  · rintro rfl
    cases hc
  · rw [(List.cons.inj heq).1] at hc
    cases hc

end Expect

/-- A sign that is a token of its own. -/
def isSign (c : Char) : Bool :=
  !(beginsNumber c || beginsName c || isBlank c || c == '/')

theorem isToken_sign {c : Char} (h : isSign c = true) :
    IsToken [c] ∧ (∀ d, goesOn [c] d = false) ∧ ∀ e : Expect, e.numeral? [c] = none := by
  simp only [isSign, Bool.not_eq_true', Bool.or_eq_false_iff, beq_eq_false_iff_ne] at h
  obtain ⟨⟨⟨hnumber, hname⟩, hblank⟩, hslash⟩ := h
  refine ⟨⟨hblank, hslash, trivial⟩, fun d => by rw [goesOn, hnumber, hname]; rfl, fun e => ?_⟩
  cases e with
  | any | slot => exact Numeral.integer?_eq_none hnumber []
  | index => exact if_neg (by simp [hnumber])
  | width =>
    have hx : (c != 'x') = true := bne_iff_ne.2 fun heq => by
      rw [heq] at hname
      cases hname
    simp [Expect.numeral?, Numeral.width?, hx, hname]

section Units

variable {E E' : Expect → Prop} {F : List Char → Prop} {name : List Char}

/-- A sign, whatever it makes of what is behind it. -/
theorem shows_mark {w : String} {c : Char} (hw : w.toList = [c]) (hc : isSign c = true)
    (h : ∀ e, E e → E' (e.next [c])) : Shows E (sign w) F [] E' := by
  obtain ⟨htoken, hends, hnone⟩ := isToken_sign hc
  refine .of_token fun ps hps => ⟨.sign w, hps, nofun, ?_⟩
  simp only [Piece.text, hw]
  exact ⟨htoken, fun _ _ _ d _ => hends d, fun e he => ⟨by rw [hnone e]; exact .nil, h e he⟩⟩

theorem shows_sign {w : String} {c : Char} (hw : w.toList = [c]) (hc : isSign c = true)
    (hother : c ≠ ':' ∧ c ≠ '[') : Shows E (sign w) F [] Calm := by
  refine shows_mark hw hc fun e _ => .inl (e.next_eq_any ⟨?_, hother⟩ (by simp))
  rintro rfl
  cases hc

/-- A name of any sort. -/
theorem shows_name {L : Spelling} (h : ∀ ps ∈ L, ∃ p : Piece, ps = [p] ∧ (∀ run, p ≠ .layout run) ∧
    (∃ c cs, p.text = c :: cs ∧ beginsName c = true ∧ beginsNumber c = false ∧
      ∀ d ∈ cs, isNameChar d = true) ∧
    (∀ rest, p.Meets rest → F (Scan.dropLayout false rest) → Ends isNameChar rest) ∧
    ∀ e, Calm e → E' (e.next p.text)) : Shows Calm L F [] E' := by
  refine .of_token fun ps hps => ?_
  obtain ⟨p, hp, hpiece, ⟨c, cs, htext, hname, hnumber, hcs⟩, hends, hnext⟩ := h ps hps
  refine ⟨p, hp, hpiece, htext ▸ isToken_name hname hnumber hcs, fun rest hmeets hF => ?_,
    fun e he => ⟨?_, hnext e he⟩⟩
  · rw [htext]
    exact (hends rest hmeets hF).mono fun d hd => (goesOn_name hname hnumber cs d).symm.trans hd
  · rw [Expect.numeral?_of_calm he, htext, Numeral.integer?_eq_none hnumber]
    exact .nil

theorem shows_slot : Shows Calm (value name) F [] (· = .slot) :=
  shows_name fun _ hps => ⟨.value name, hps.2, nofun, ⟨'%', name, rfl, rfl, rfl, hps.1.2⟩,
    fun _ h _ => h, fun _ _ => rfl⟩

theorem shows_value : Shows Calm (value name) F [] Calm :=
  shows_name fun _ hps => ⟨.value name, hps.2, nofun, ⟨'%', name, rfl, rfl, rfl, hps.1.2⟩,
    fun _ h _ => h, fun _ _ => .inr rfl⟩

theorem shows_symbol : Shows Calm (Spelling.symbol name) F [] Calm :=
  shows_name fun _ hps => ⟨.word ('@' :: name), hps.2, nofun, ⟨'@', name, rfl, rfl, rfl, hps.1.2⟩,
    fun _ h _ => h.2, fun e _ => .inl (e.next_eq_any (by decide) (by simp))⟩

theorem exists_cons_of_isWord (h : Scan.IsWord name) : ∃ c cs, name = c :: cs ∧
    beginsName c = true ∧ beginsNumber c = false ∧ ∀ d ∈ cs, isNameChar d = true := by
  cases name with
  | nil => exact absurd rfl h.1.1
  | cons c cs =>
    obtain ⟨hname, hnumber⟩ := begins_of_isWord h
    exact ⟨c, cs, rfl, hname, hnumber, fun d hd => h.1.2 d (List.mem_cons_of_mem c hd)⟩

/-- What a keyword makes of a number behind it. -/
def Expect.behind (keyword : List Char) : Expect :=
  if keyword = "arg".toList then .index else .any

theorem Expect.next_of_isWord (h : Scan.IsWord name) (e : Expect) : e.next name = .behind name := by
  unfold next behind
  split
  · cases h.1.2 '%' List.mem_cons_self
  · cases h.1.2 ':' List.mem_cons_self
  · cases h.1.2 '[' List.mem_cons_self
  · rfl

theorem shows_keyword : Shows Calm (ident name) F [] (· = .behind name) :=
  shows_name fun _ hps => ⟨.word name, hps.2, nofun, exists_cons_of_isWord hps.1, fun _ h _ => h.2,
    fun e _ => e.next_of_isWord hps.1⟩

/-- A word of the grammar. -/
theorem shows_word {w : String} (hword : Scan.IsWord w.toList) (harg : w.toList ≠ "arg".toList) :
    Shows Calm (sign w) (Ends isNameChar) [] Calm :=
  shows_name fun _ hps => ⟨.sign w, hps, nofun, exists_cons_of_isWord hword,
    fun _ _ h => Scan.ends_of_dropLayout (fun _ => Scan.not_isNameChar_of_isBlank) rfl h,
    fun e _ => .inl ((e.next_of_isWord hword).trans (if_neg harg))⟩

/-- Two points are two tokens. -/
theorem shows_range : Shows Calm (sign "..") F [] Calm := by
  intro ps hps qs hneat hF e he
  obtain rfl := eq_of_map_shape hps nofun
  obtain ⟨htoken, hends, hnone⟩ := isToken_sign (c := '.') rfl
  have hstep : ∀ (e : Expect) rest, numeralsBehind e ('.' :: rest) = numeralsBehind .any rest := by
    intro e rest
    have hpoint : Ends (goesOn ['.']) rest := fun d _ => hends d
    have happend := htoken.numeralsBehind_append hpoint e
    rw [hnone e] at happend
    exact happend
  exact ⟨[], .any, (hstep e _).trans (hstep .any _), .nil, .inl rfl⟩

/-! ## Literals -/

theorem Numeral.writes_integer {negative : Bool} {ds : List Char}
    (h : Scan.Fits (Scan.signedValue negative ds)) :
    (integer negative ds).Writes (.integer (Scan.signedValue negative ds)) :=
  ⟨Scan.fits_signedValue_iff.1 h, rfl⟩

theorem Numeral.writes_index {ds : List Char} (h : IsDigits ds) (hzero : Scan.LeadsAlone ds)
    (hlt : ofDigits ds < Scan.indexBound) : (index ds).Writes (.index (ofDigits ds)) :=
  ⟨⟨h, hzero, hlt⟩, rfl⟩

/-- A literal begins with none of the signs that are looked for. -/
theorem next_of_isConstant {cs : List Char} (h : Scan.IsConstant cs) (e : Expect) :
    e.next cs = .any := by
  cases h with
  | nan => rfl
  | infinity negative => cases negative <;> rfl
  | integer negative hds =>
    obtain ⟨c, cs, heq, hc, -⟩ := exists_cons_of_signed negative hds
    rw [heq]
    exact e.next_of_beginsNumber hc cs
  | decimal negative hds =>
    obtain ⟨c, cs, heq, hc, -⟩ := exists_cons_of_signed negative hds
    rw [← List.append_assoc, heq]
    exact e.next_of_beginsNumber hc _

/-- A literal of any sort. -/
theorem shows_literal {α : Type} {x : Scan α} {a : α} {l : List Quantity}
    (h : ∀ cs, x cs = .ok (a, []) → IsLiteral cs ∧ ∀ e, E e →
      List.Forall₂ Numeral.Writes (e.numeral? cs).toList l ∧ E' (e.next cs)) :
    Shows E (literal x a) (Ends isLiteralChar) l E' := by
  refine .of_token fun ps hps => ?_
  obtain ⟨cs, hread, rfl⟩ := hps
  have hself : x cs = .ok (a, []) := by
    simpa using hread [] Scan.ends_nil
  obtain ⟨hliteral, hshows⟩ := h cs hself
  refine ⟨.literal cs, rfl, nofun, hliteral.isToken, fun rest _ hF => ?_, hshows⟩
  exact (Scan.ends_of_dropLayout (fun _ => Scan.isLiteralChar_of_isBlank) rfl hF).mono
    hliteral.goesOn

theorem shows_constant {lane : Constant} :
    Shows Calm (literal Scan.constant lane) (Ends isLiteralChar) lane.written Calm := by
  refine shows_literal fun cs hself => ?_
  obtain ⟨cs', htext, hconstant, -⟩ := Scan.exists_of_constant hself
  obtain rfl : cs = cs' := by simpa using htext
  refine ⟨isLiteral_of_isConstant hconstant,
    fun e he => ⟨?_, .inl (next_of_isConstant hconstant e)⟩⟩
  rw [Expect.numeral?_of_calm he]
  rcases Scan.ok_or_of_either hself with h | h
  · obtain ⟨x, mid, hfloat, hpure⟩ := Scan.exists_of_bind h
    obtain ⟨rfl, rfl⟩ := Prod.mk.inj (Except.ok.inj hpure)
    -- digits alone are no floating-point number
    have hnone : Numeral.integer? cs = none := by
      refine Option.eq_none_iff_forall_ne_some.2 fun ν hν => ?_
      obtain ⟨negative, ds, rfl, hdigits, -⟩ := Numeral.integer?_eq_some_iff.1 hν
      have hnil : Ends isLiteralChar [] := Scan.ends_nil
      obtain ⟨stop, hstop⟩ := Scan.float_error negative hdigits hnil
      rw [List.append_nil] at hstop
      cases hstop.symm.trans hfloat
    exact hnone ▸ .nil
  · obtain ⟨i, mid, hint, hpure⟩ := Scan.exists_of_bind h
    obtain ⟨rfl, rfl⟩ := Prod.mk.inj (Except.ok.inj hpure)
    obtain ⟨negative, ds, rfl, hdigits, rfl, hfits⟩ := Scan.exists_of_integer hint
    rw [List.append_nil, Numeral.integer?_eq_some_iff.2 ⟨negative, ds, rfl, hdigits, rfl⟩]
    exact .cons (Numeral.writes_integer hfits) .nil

theorem shows_index {n : Nat} :
    Shows (· = .index) (literal Scan.index n) (Ends isLiteralChar) [.index n] Calm := by
  refine shows_literal fun cs hself => ?_
  obtain ⟨ds, htext, hdigits, hzero, rfl, hlt⟩ := Scan.exists_of_index hself
  obtain rfl : cs = ds := by simpa using htext
  refine ⟨isLiteral_digits false hdigits, ?_⟩
  rintro _ rfl
  have hwrites := Numeral.writes_index hdigits hzero hlt
  obtain ⟨c, cs, rfl, hc⟩ := hdigits.exists_cons
  have hnumber : beginsNumber c = true := by rw [beginsNumber, hc, Bool.true_or]
  have hsome : Expect.index.numeral? (c :: cs) = some (.index (c :: cs)) :=
    if_pos (by simpa using hnumber)
  exact ⟨hsome ▸ .cons hwrites .nil, .inl (Expect.next_of_beginsNumber hnumber cs _)⟩

/-! ## The names of types -/

theorem ScalarType.x_notMem_name (t : ScalarType) : 'x' ∉ t.name.toList := by
  cases t <;> decide

/-- Behind the base of a type name the number of lanes is the digits that follow the letter. -/
theorem Numeral.width?_append {base : List Char} (h : 'x' ∉ base) (digits : List Char) :
    width? (base ++ 'x' :: digits) = if IsDigits digits then some (.width digits) else none := by
  have hbase : ∀ c ∈ base, (c != 'x') = true := fun c hc => bne_iff_ne.2 fun heq => h (heq ▸ hc)
  rw [width?, List.dropWhile_append_of_pos hbase]
  rfl

theorem Numeral.width?_eq_scalar {c : Char} {cs : List Char} (hname : beginsName c = true)
    (h : 'x' ∉ c :: cs) : width? (c :: cs) = some .scalar := by
  have hdrop : (c :: cs).dropWhile (· != 'x') = [] :=
    List.dropWhile_eq_nil_iff.2 fun d hd => bne_iff_ne.2 fun heq => h (heq ▸ hd)
  rw [width?, hdrop]
  exact if_pos (by simpa using hname)

/-- The digits of a number of lanes, if there is no sign in front of them. -/
theorem writes_of_width?_eq_some {digits : List Char} {n : Nat}
    (h : ValueType.width? digits = some n) (hname : ∀ c ∈ digits, isNameChar c = true) :
    IsDigits digits ∧ (Numeral.width digits).Writes (.width n) := by
  unfold ValueType.width? at h
  split at h
  · next rest =>
    cases hname '+' List.mem_cons_self
  · simp only [Option.ite_none_right_eq_some, Option.some.injEq] at h
    obtain ⟨⟨hne, hdigits, hlow, hhigh⟩, rfl⟩ := h
    exact ⟨⟨hne, List.all_eq_true.1 hdigits⟩, ⟨hlow, hhigh⟩, rfl⟩

/-- The name of a type shows its number of lanes. -/
theorem writes_width? {type : ValueType} (hword : Scan.IsWord name)
    (htype : ValueType.ofName? name = some type) :
    List.Forall₂ Numeral.Writes (Numeral.width? name).toList (writtenWidth name) := by
  have hx := type.element.x_notMem_name
  rw [writtenWidth, htype]
  rcases ValueType.eq_or_exists_of_ofName? htype with ⟨rfl, hone⟩ | ⟨digits, rfl, hwidth⟩
  · obtain ⟨c, cs, hcons, hname, -⟩ := exists_cons_of_isWord hword
    rw [hcons] at hx ⊢
    rw [Numeral.width?_eq_scalar hname hx]
    exact .cons ⟨trivial, congrArg Quantity.width hone.symm⟩ .nil
  · obtain ⟨hdigits, hwrites⟩ := writes_of_width?_eq_some hwidth fun c hc =>
      hword.1.2 c (by simp [hc])
    rw [Numeral.width?_append hx, if_pos hdigits]
    exact .cons hwrites .nil

theorem shows_type {type : ValueType} (htype : ValueType.ofName? name = some type) :
    Shows (· = .width) (ident name) F (writtenWidth name) Calm := by
  refine .of_token fun ps hps => ?_
  obtain ⟨hword, rfl⟩ := hps
  obtain ⟨c, cs, rfl, hname, hnumber, hcs⟩ := exists_cons_of_isWord hword
  refine ⟨.word (c :: cs), rfl, nofun, isToken_name hname hnumber hcs, fun rest hmeets _ => ?_, ?_⟩
  · exact hmeets.2.mono fun d hd => (goesOn_name hname hnumber cs d).symm.trans hd
  · rintro _ rfl
    refine ⟨writes_width? hword htype, .inl ((Expect.next_of_isWord hword _).trans (if_neg ?_))⟩
    intro harg
    rw [harg] at htype
    cases htype

theorem shows_annotation {type : ValueType} (htype : ValueType.ofName? name = some type) :
    Shows Calm (Spelling.annotation name) F (writtenWidth name) Calm := by
  simp only [Spelling.annotation, mul_assoc]
  exact .seq .gap (.seq (shows_mark rfl rfl fun _ _ => rfl) (.seq .gap (shows_type htype)))

end Units

/-! ## Parts of statements -/

section Parts

variable {α : Type} {F G : List Char → Prop} {K : α → Spelling} {g : α → List Quantity} {l : List α}

theorem shows_followers (h : ∀ a, Shows Calm (K a) G (g a) Calm) (hcomma : ∀ rest, G (',' :: rest))
    (hF : ∀ text, F text → G text) : Shows Calm (followers K l) F (l.flatMap g) Calm := by
  induction l with
  | nil => exact .one fun _ => id
  | cons a l ih =>
    rw [followers, mul_assoc, List.flatMap_cons]
    exact .seq (shows_sign rfl rfl (by decide)) (.mul (h a) (Scan.starts_followers hcomma hF) ih)

theorem shows_list (h : ∀ a, Shows Calm (K a) G (g a) Calm) (hcomma : ∀ rest, G (',' :: rest))
    (hF : ∀ text, F text → G text) : Shows Calm (list K l) F (l.flatMap g) Calm := by
  cases l with
  | nil =>
    intro ps hps
    cases hps
  | cons a l =>
    rw [list, List.flatMap_cons]
    exact .mul (h a) (Scan.starts_followers hcomma hF) (shows_followers h hcomma hF)

theorem Shows.spaced (h : ∀ a, Shows Calm (K a) F (g a) Calm) (a : α) :
    Shows Calm (Spelling.spaced K a) F (g a) Calm := by
  simp only [Spelling.spaced, mul_assoc]
  exact .seq .gap (.close (h a) (.of_mul_one (.gap_mul (.one fun _ => id))) .gap)

theorem shows_result (name : ValueName) : Shows Calm (Spelling.result name) F [] Calm := by
  simp only [Spelling.result, mul_assoc]
  exact .seq shows_value (.seq .gap (.seq (shows_sign rfl rfl (by decide)) .gap))

theorem shows_pair (a b : ValueName) : Shows Calm (Spelling.pair a b) F [] Calm := by
  simp only [Spelling.pair, mul_assoc]
  exact .seq shows_value (.seq .gap (.seq (shows_sign rfl rfl (by decide)) (.seq .gap shows_value)))

theorem shows_slotLane (lane : ValueName × Nat) :
    Shows Calm (Spelling.slotLane lane) F [.index lane.2] Calm := by
  simp only [Spelling.slotLane, mul_assoc]
  refine .seq .gap (.seq shows_slot (.seq (shows_mark rfl rfl fun _ he => ?_) (.seq .gap
    (.close shows_index (.gap_mul (.sign_mul fun _ => ends_cons rfl _))
      (.seq .gap (.seq (shows_sign rfl rfl (by decide)) .gap))))))
  exact he ▸ rfl

theorem shows_mask {w : String} (hword : Scan.IsWord w.toList) (harg : w.toList ≠ "arg".toList)
    (v : ValueName) : Shows Calm (Spelling.mask w v) F [] Calm := by
  simp only [Spelling.mask, mul_assoc]
  exact .seq .gap (.skip (shows_word hword harg) (.gap_mul (.sign_mul fun _ => ends_cons rfl _))
    (.seq .gap (.seq (shows_sign rfl rfl (by decide)) (.seq .gap (.seq shows_value
      (.seq .gap (shows_sign rfl rfl (by decide))))))))

end Parts

/-! ## Statements -/

section Statements

variable {F : List Char → Prop} {keyword : List Char} {form : Form} {L L₁ L₂ : Spelling}
  {l l₁ l₂ : List Quantity}

theorem shows_braces (h : Shows Calm L Scan.Closes l Calm) : Shows Calm (braces L) F l Calm := by
  simp only [braces, mul_assoc]
  exact .seq (shows_sign rfl rfl (by decide)) (.close h
    (.of_mul_one (.sign_mul fun rest => ⟨rest, rfl⟩)) (shows_sign rfl rfl (by decide)))

theorem Shows.behind {E' : Expect → Prop} (h : Shows Calm L F l E')
    (hk : Expect.behind keyword = .any) : Shows (· = .behind keyword) L F l E' :=
  h.mono (fun _ he => .inl (he.trans hk)) fun _ => id

theorem Expect.behind_of_known (hknown : form.KnownOperation keyword)
    (hnone : form.keyword? = none) :
    Expect.behind keyword = .any := by
  cases form with
  | binary =>
    obtain ⟨op, rfl⟩ := hknown
    cases op <;> rfl
  | atomic =>
    obtain ⟨op, rfl⟩ := hknown
    cases op <;> rfl
  | alloca | splat | lanes | arg | loadSlot | loadLanes | store | print | branch | loop | leave
    | rangeFor | structFor => cases hnone

/-- Behind the keyword of a form without blocks. -/
theorem shows_leaf (hsuits : form.Suits keyword) (hknown : form.KnownOperation keyword)
    (hleaf : form.hasFirst = false) :
    Shows (· = .behind keyword) (form.spelling L₁ L₂) (Scan.Stops form) form.written Calm := by
  cases form with
  | alloca =>
    obtain rfl := hsuits _ rfl
    exact .one fun _ he => .inl he
  | splat lane =>
    obtain rfl := hsuits _ rfl
    exact (shows_constant.mono (fun _ => id) fun _ => id).behind rfl
  | lanes l =>
    obtain rfl := hsuits _ rfl
    simp only [Form.spelling, mul_assoc]
    refine .seq (shows_mark rfl rfl fun _ he => .inl (he ▸ rfl)) (.seq .gap (.close
      (shows_list (F := Ends isLiteralChar) (.spaced fun _ => shows_constant)
        (fun _ => ends_cons rfl _) fun _ => id)
      (.gap_mul (.of_mul_one (.sign_mul fun _ => ends_cons rfl _)))
      (.seq .gap (shows_sign rfl rfl (by decide)))))
  | arg index =>
    obtain rfl := hsuits _ rfl
    exact shows_index.mono (fun _ => id) fun _ => id
  | loadSlot slot =>
    obtain rfl := hsuits _ rfl
    exact shows_value.behind rfl
  | loadLanes l =>
    obtain rfl := hsuits _ rfl
    simp only [Form.spelling, mul_assoc]
    rw [Form.written, List.map_eq_flatMap]
    exact .seq (shows_mark rfl rfl fun _ he => .inl (he ▸ rfl)) (.close
      (shows_list (G := Always) shows_slotLane (fun _ => trivial) fun _ _ => trivial) .always
      (shows_sign rfl rfl (by decide)))
  | binary a b | atomic a b => exact (shows_pair a b).behind (Expect.behind_of_known hknown rfl)
  | store slot value =>
    obtain rfl := hsuits _ rfl
    exact (shows_pair slot value).behind rfl
  | print v | leave v =>
    obtain rfl := hsuits _ rfl
    exact shows_value.behind rfl
  | branch | loop | rangeFor | structFor => cases hleaf

theorem shows_optional {α : Type} {item : α → Spelling} {E : Expect → Prop}
    (h : ∀ a, Shows E (item a) F [] E) (a? : Option α) :
    Shows E (Spelling.optional item a?) F [] E := by
  cases a? with
  | none => exact .one fun _ => id
  | some a => exact h a

/-- Behind the keyword of a form with blocks. -/
theorem shows_nested (hsuits : form.Suits keyword) (hnested : form.hasFirst = true)
    (hsecond : form.hasSecond = false → l₂ = []) (h₁ : Shows Calm (braces L₁) Always l₁ Calm)
    (h₂ : Shows Calm (braces L₂) Always l₂ Calm) :
    Shows (· = .behind keyword) (form.spelling (braces L₁) (braces L₂)) (Scan.Stops form) (l₁ ++ l₂)
      Calm := by
  have hfirst : ∀ {F}, Shows Calm (braces L₁) F l₁ Calm := h₁.mono (fun _ => id) fun _ _ => trivial
  cases form with
  | branch cond trueMask falseMask otherwise =>
    obtain rfl := hsuits _ rfl
    refine Shows.behind ?_ rfl
    simp only [Form.spelling, mul_assoc]
    have hmask : ∀ {w : String}, Scan.IsWord w.toList → w.toList ≠ "arg".toList → ∀ m?,
        Shows Calm (Spelling.optional (Spelling.mask w) m?) Always [] Calm :=
      fun hword harg => shows_optional (shows_mask hword harg)
    refine .seq shows_value (.seq (hmask (by decide) (by decide) trueMask)
      (.seq (hmask (by decide) (by decide) falseMask) (.seq .gap (.mul hfirst .always ?_))))
    cases otherwise with
    | true =>
      simp only [Spelling.otherwise, if_true, mul_assoc]
      exact .seq .gap (.skip (shows_word (by decide) (by decide))
        (.gap_mul (.of_mul_one (Scan.starts_braces fun _ => ends_cons rfl _)))
        (.seq .gap (h₂.mono (fun _ => id) fun _ _ => trivial)))
    | false =>
      obtain rfl := hsecond rfl
      exact .one fun _ => id
  | loop mask =>
    obtain rfl := hsuits _ rfl
    obtain rfl := hsecond rfl
    refine Shows.behind ?_ rfl
    simp only [Form.spelling, mul_assoc, List.append_nil]
    exact .seq (shows_optional (shows_mask (by decide) (by decide)) mask) (.seq .gap hfirst)
  | rangeFor counter lower upper =>
    obtain rfl := hsuits _ rfl
    obtain rfl := hsecond rfl
    refine Shows.behind ?_ rfl
    simp only [Form.spelling, mul_assoc, List.append_nil]
    exact .seq shows_value (.seq .gap (.skip (shows_word (by decide) (by decide))
      (.gap_mul (.value_mul fun _ => ends_cons rfl _)) (.seq .gap (.seq shows_value
        (.seq shows_range (.seq shows_value (.seq .gap hfirst)))))))
  | structFor counters snode =>
    obtain rfl := hsuits _ rfl
    obtain rfl := hsecond rfl
    refine Shows.behind ?_ rfl
    simp only [Form.spelling, mul_assoc, List.append_nil]
    have hcounters : Shows Calm (list (spaced value) counters) Always
        (counters.flatMap fun _ => []) Calm :=
      shows_list (G := Always) (.spaced fun _ => shows_value) (fun _ => trivial) fun _ _ => trivial
    rw [List.flatMap_eq_nil_iff.2 fun _ _ => rfl] at hcounters
    refine .seq hcounters (.skip (shows_word (by decide) (by decide)) (.gap_mul
      (.symbol_mul fun _ => ends_cons rfl _)) (.seq .gap (.seq shows_symbol (.seq .gap hfirst))))
  | alloca | splat | lanes | arg | binary | loadSlot | loadLanes | store | atomic | print | leave =>
    cases hnested

variable {head : Head} {visible : ValueName → Prop}

/-- The type of a lawful statement, if it has one. -/
theorem shows_optional_annotation (hlaw : head.Lawful visible) :
    Shows Calm (Spelling.optional Spelling.annotation head.annotation?) F
      (head.annotation?.toList.flatMap writtenWidth) Calm := by
  cases hann : head.annotation? with
  | none => exact .one fun _ => id
  | some name =>
    have hvalue : head.form.hasValue = true := by
      refine Bool.not_eq_false _ ▸ fun hvalue => ?_
      cases hann.symm.trans (hlaw.effect hvalue).2
    have htyped := (hlaw.produces hvalue).2
    rw [Head.annotated?, hann] at htyped
    obtain ⟨type, htype⟩ := Option.isSome_iff_exists.1 htyped
    rw [Option.toList_some, List.flatMap_singleton]
    exact shows_annotation htype

/-- A form with blocks has neither a value nor numbers of its own. -/
theorem Form.effect_of_hasFirst (h : form.hasFirst = true) :
    form.hasValue = false ∧ form.written = [] := by
  cases form <;> first | exact ⟨rfl, rfl⟩ | cases h

theorem Form.hasSecond_of_hasFirst (h : form.hasFirst = false) : form.hasSecond = false := by
  cases form <;> first | rfl | cases h

/-- A statement shows the numerals of its form, of its type and then of its blocks. -/
theorem shows_head (hlaw : head.Lawful visible) (hfirst : head.form.hasFirst = false → l₁ = [])
    (hsecond : head.form.hasSecond = false → l₂ = []) (h₁ : Shows Calm (braces L₁) Always l₁ Calm)
    (h₂ : Shows Calm (braces L₂) Always l₂ Calm) :
    Shows Calm (head.spelling (braces L₁) (braces L₂)) Scan.Apart
      (head.written ++ (l₁ ++ l₂)) Calm := by
  simp only [Head.spelling, mul_assoc]
  refine .given_mul fun hsuits => .seq (shows_optional shows_result head.result?)
    (.seq shows_keyword (.seq .gap ?_))
  have htype := shows_optional_annotation (F := Scan.Apart) hlaw
  cases hform : head.form.hasFirst with
  | false =>
    obtain rfl := hfirst hform
    obtain rfl := hsecond (Form.hasSecond_of_hasFirst hform)
    rw [List.append_nil, List.append_nil, Head.written]
    exact .mul (shows_leaf hsuits hlaw.operation hform) (.of_mul_one (Scan.starts_type hlaw)) htype
  | true =>
    obtain ⟨heffect, hwritten⟩ := Form.effect_of_hasFirst hform
    have hnone := (hlaw.effect heffect).2
    have hhead : head.written = [] := by rw [Head.written, hwritten, hnone]; rfl
    rw [hnone] at htype
    rw [hhead, hnone, List.nil_append]
    refine .close (shows_nested hsuits hform hsecond h₁ h₂) ?_ htype
    rw [← hnone]
    exact .of_mul_one (Scan.starts_type hlaw)

/-- The numerals of a lawful draft fit, and stand for its numbers. -/
theorem shows_draft {draft : Draft} {outer : ValueName → Prop} (hlaw : draft.LawfulIn outer)
    (howned : draft.Owned) : Shows Calm draft.spelling Scan.Closes draft.written Calm := by
  induction draft generalizing outer with
  | nil => exact .gap
  | cons head first second rest ih₁ ih₂ ih₃ =>
    obtain ⟨hhead, hlaw₁, hlaw₂, hlaw₃⟩ := Draft.lawfulIn_cons_iff.1 hlaw
    obtain ⟨⟨hfirst, hsecond⟩, ho₁, ho₂, ho₃⟩ := howned
    have hstatement := shows_head hhead (fun h => hfirst h ▸ rfl) (fun h => hsecond h ▸ rfl)
      (shows_braces (ih₁ hlaw₁ ho₁)) (shows_braces (ih₂ hlaw₂ ho₂))
    have hnumbers : (Draft.cons head first second rest).written =
        head.written ++ (first.written ++ second.written) ++ rest.written := by
      simp [Draft.written]
    rw [hnumbers]
    simp only [Draft.spelling, mul_assoc]
    exact .seq .gap (.mul hstatement (Scan.starts_draft hlaw₃) (ih₃ hlaw₃ ho₃))

end Statements

/-- In a spelling of a lawful draft, the numerals fit and stand for the numbers of the draft. -/
theorem numerals_of_neat {name : List Char} {draft : Draft} (hlaw : draft.Lawful)
    (howned : draft.Owned)
    {ps : List Piece} (hps : ps.map Piece.shape ∈ Spelling.kernel name draft) (hneat : Neat ps) :
    List.Forall₂ Numeral.Writes (numerals (flatten ps)) draft.written := by
  have hshows : Shows Calm (Spelling.kernel name draft) Always draft.written Calm := by
    simp only [Spelling.kernel, mul_assoc]
    refine .seq .gap (.skip (shows_word (by decide) (by decide)) (.gap_mul
      (.symbol_mul fun _ => ends_cons rfl _)) (.seq .gap (.seq shows_symbol (.seq .gap
        (.close (shows_braces (shows_draft (Draft.lawful_iff_lawfulIn.1 hlaw) howned)) .always
          .gap)))))
  have hneat' : Neat (ps ++ []) := by rwa [List.append_nil]
  obtain ⟨ms, e, heq, hms, -⟩ := hshows ps hps [] hneat' trivial .any (.inl rfl)
  have hnil : numeralsBehind e (flatten []) = [] := rfl
  rw [List.append_nil, hnil, List.append_nil] at heq
  rw [numerals, ← numeralsBehind, heq]
  exact hms

end KernelIR
