import Mathlib.Computability.Language
import KernelIR.Proofs.Text.Lexeme
import KernelIR.Proofs.Text.Piece

/-!
# How drafts are spelled

The spellings of a draft are the texts, in pieces, that the grammar has for it, with a gap at each
place where layout is skipped. The definitions follow the draft and do not read anything. A text
that the grammar reads is cut into such a spelling of what is read (`exists_of_readKernel`) : each
gap holds the run of layout that was skipped there.

`Scan.Cuts` says this of one part of the grammar, behind what has been read before it. The
spelling of a sequence is the product of the spellings of its parts.
-/

namespace KernelIR

/-- Sequences of pieces, in which all layout is left empty. -/
abbrev Spelling :=
  Language Piece

namespace Spelling

variable {α : Type}

/-- A place where layout is skipped. -/
def gap : Spelling :=
  {[.layout []]}

def sign (text : String) : Spelling :=
  {[.sign text]}

def value (name : ValueName) : Spelling :=
  {ps | Scan.IsName name ∧ ps = [.value name]}

/-- The name of a kernel or of a structure. -/
def symbol (name : List Char) : Spelling :=
  {ps | Scan.IsName name ∧ ps = [.word ('@' :: name)]}

/-- A keyword or the name of a type. -/
def ident (name : List Char) : Spelling :=
  {ps | Scan.IsWord name ∧ ps = [.word name]}

def literal (x : Scan α) (a : α) : Spelling :=
  {ps | ∃ cs, Scan.IsLexeme x cs a ∧ ps = [.literal cs]}

/-- Nothing, where the condition holds. -/
def given (p : Prop) : Spelling :=
  {ps | p ∧ ps = []}

def optional (item : α → Spelling) : Option α → Spelling
  | none => 1
  | some a => item a

/-- Items that each follow a comma. -/
def followers (item : α → Spelling) : List α → Spelling
  | [] => 1
  | a :: l => sign "," * item a * followers item l

/-- One item or more, with commas between them. -/
def list (item : α → Spelling) : List α → Spelling
  | [] => 0
  | a :: l => item a * followers item l

/-- An item with layout around it. -/
def spaced (item : α → Spelling) (a : α) : Spelling :=
  gap * item a * gap

/-- The name of a result and the sign of definition. -/
def result (name : ValueName) : Spelling :=
  value name * gap * sign "=" * gap

def pair (a b : ValueName) : Spelling :=
  value a * gap * sign "," * gap * value b

/-- One lane of a load. -/
def slotLane (lane : ValueName × Nat) : Spelling :=
  gap * value lane.1 * sign "[" * gap * literal Scan.index lane.2 * gap * sign "]" * gap

def mask (name : String) (value : ValueName) : Spelling :=
  gap * sign name * gap * sign "(" * gap * Spelling.value value * gap * sign ")"

def annotation (type : List Char) : Spelling :=
  gap * sign ":" * gap * ident type

/-- Statements in braces. -/
def braces (body : Spelling) : Spelling :=
  sign "\x7b" * body * sign "\x7d"

/-- A block behind `else`. -/
def otherwise (block : Spelling) : Spelling :=
  gap * sign "else" * gap * block

end Spelling

open Spelling

namespace Form

/-- The keyword of the form, unless it names an operation. -/
def keyword? : Form → Option String
  | alloca => some "alloca"
  | splat _ | lanes _ => some "const"
  | arg _ => some "arg"
  | loadSlot _ | loadLanes _ => some "local_load"
  | store _ _ => some "local_store"
  | print _ => some "print"
  | branch _ _ _ _ => some "if"
  | loop _ => some "while"
  | leave _ => some "while_control"
  | rangeFor _ _ _ => some "range_for"
  | structFor _ _ => some "struct_for"
  | binary _ _ | atomic _ _ => none

/-- The keyword is that of the form. -/
def Suits (form : Form) (keyword : List Char) : Prop :=
  ∀ w, form.keyword? = some w → keyword = w.toList

/-- What stands behind the keyword, with the given spellings of the blocks. -/
def spelling (first second : Spelling) : Form → Spelling
  | alloca => 1
  | splat lane => literal Scan.constant lane
  | lanes l => sign "[" * gap * list (spaced (literal Scan.constant)) l * gap * sign "]"
  | arg index => literal Scan.index index
  | loadSlot slot => value slot
  | loadLanes l => sign "[" * list slotLane l * sign "]"
  | binary a b | store a b | atomic a b => pair a b
  | print v | leave v => value v
  | branch cond trueMask falseMask otherwise =>
    value cond * optional (mask "true_mask") trueMask * optional
      (mask "false_mask") falseMask * gap *
      first * (if otherwise then Spelling.otherwise second else 1)
  | loop mask => optional (Spelling.mask "mask") mask * gap * first
  | rangeFor counter lower upper =>
    value counter * gap * sign "in" * gap * value lower * sign ".." * value upper * gap * first
  | structFor counters snode =>
    list (spaced value) counters * sign "in" * gap * symbol snode * gap * first

end Form

/-- The spelling of a statement, with those of its blocks. -/
def Head.spelling (head : Head) (first second : Spelling) : Spelling :=
  given (head.form.Suits head.keyword) *
    (optional result head.result? * ident head.keyword * gap * head.form.spelling first second *
      optional annotation head.annotation?)

/-- The spelling of statements. Behind the last one layout is skipped once more. -/
def Draft.spelling : Draft → Spelling
  | nil => gap
  | cons head first second rest =>
    gap * head.spelling (braces first.spelling) (braces second.spelling) * rest.spelling

/-- The spelling of a kernel and the layout behind it. -/
def Spelling.kernel (name : List Char) (draft : Draft) : Spelling :=
  gap * sign "kernel" * gap * symbol name * gap * braces draft.spelling * gap

namespace Scan

variable {α β : Type} {x y : Scan α} {f : α → Scan β} {before : Spelling} {K : α → Spelling}

/-! ## Cutting what is read -/

/-- Behind pieces of the first kind, what is read is cut into pieces that make up one of the
second. -/
def Cuts (before : Spelling) (x : Scan α) (after : α → Spelling) : Prop :=
  ∀ ps ∈ before, ∀ text a rest, x text = .ok (a, rest) → ∃ qs : List Piece,
    ps ++ qs.map Piece.shape ∈ after a ∧ text = flatten qs ++ rest ∧ Joined Piece.IsCut qs rest

namespace Cuts

theorem pure {a : α} (h : before = K a) : Cuts before (Pure.pure a) K := by
  intro ps hps text b rest hread
  obtain ⟨rfl, rfl⟩ := Prod.mk.inj (Except.ok.inj hread)
  exact ⟨[], by rw [List.map_nil, List.append_nil, ← h]; exact hps, rfl, trivial⟩

/-- The pieces of two parts stand one behind the other. -/
theorem bind {after : β → Spelling} (hx : Cuts 1 x K) (hf : ∀ a, Cuts (before * K a) (f a) after) :
    Cuts before (x >>= f) after := by
  intro ps hps text b rest hread
  obtain ⟨a, mid, ha, hb⟩ := exists_of_bind hread
  obtain ⟨qs, hqs, rfl, hcut⟩ := hx [] Language.nil_mem_one _ _ _ ha
  obtain ⟨qs', hqs', rfl, hcut'⟩ := hf a _ (Language.append_mem_mul hps hqs) _ _ _ hb
  exact ⟨qs ++ qs', by simpa using hqs', by simp, joined_append.2 ⟨hcut, hcut'⟩⟩

/-- The last part of a sequence. -/
theorem last {after : α → Spelling} (hx : Cuts 1 x K) (h : ∀ a, before * K a = after a) :
    Cuts before x after := by
  intro ps hps text a rest hread
  obtain ⟨qs, hqs, htext, hcut⟩ := hx [] Language.nil_mem_one _ _ _ hread
  exact ⟨qs, h a ▸ Language.append_mem_mul hps hqs, htext, hcut⟩

/-- A part that may be left out has its pieces or none. -/
theorem optional (hx : Cuts 1 x K) : Cuts 1 (optional x) (Spelling.optional K) := by
  intro ps hps text a? rest hread
  cases h : x text with
  | error stop =>
    obtain ⟨rfl, rfl⟩ := Prod.mk.inj (Except.ok.inj ((optional_of_error h).symm.trans hread))
    exact ⟨[], by rw [List.map_nil, List.append_nil]; exact hps, rfl, trivial⟩
  | ok p =>
    obtain ⟨rfl, rfl⟩ := Prod.mk.inj (Except.ok.inj ((optional_of_ok h).symm.trans hread))
    exact hx ps hps text p.1 p.2 h

/-- One of two ways has the pieces of the way that is taken. -/
theorem either (hx : Cuts before x K) (hy : Cuts before y K) : Cuts before (either x y) K := by
  intro ps hps text a rest hread
  rcases ok_or_of_either hread with h | h
  · exact hx ps hps text a rest h
  · exact hy ps hps text a rest h

/-- A part that reads one piece. -/
theorem of_piece (h : ∀ {text a rest}, x text = .ok (a, rest) →
    ∃ p : Piece, [p.shape] ∈ K a ∧ text = p.text ++ rest ∧ p.IsCut rest) : Cuts 1 x K := by
  intro ps hps text a rest hread
  obtain rfl := Language.mem_one _ |>.1 hps
  obtain ⟨p, hp, htext, hcut⟩ := h hread
  exact ⟨[p], by simpa using hp, by simpa using htext, by simpa [Joined] using hcut⟩

end Cuts

/-- A piece that is no layout is cut if it meets what follows. -/
theorem isCut_of_meets {p : Piece} {next : List Char} (h : p.Meets next)
    (hp : ∀ run, p ≠ .layout run) : p.IsCut next :=
  ⟨h, fun run hrun => absurd hrun (hp run)⟩

/-- Layout is a gap. -/
theorem cuts_layout : Cuts 1 layout fun _ => gap :=
  .of_piece fun {text a rest} h => by
    obtain ⟨-, rfl⟩ := Prod.mk.inj (Except.ok.inj h)
    obtain ⟨run, hrun⟩ := dropLayout_suffix false text
    refine ⟨.layout run, rfl, hrun.symm, ?_, fun _ _ => dropLayout_dropLayout false text⟩
    exact (congrArg (dropLayout false) hrun).trans (dropLayout_dropLayout false text).symm

/-- A word is a sign. -/
theorem cuts_word {w : String} (hw : Solid w.toList) : Cuts 1 (word w) fun _ => sign w :=
  .of_piece fun h => ⟨.sign w, rfl, (append_of_word h).symm, isCut_of_meets hw nofun⟩

theorem cuts_valueRef : Cuts 1 valueRef value :=
  .of_piece fun h =>
    have ⟨htext, hname, hends⟩ := append_of_valueRef h
    ⟨.value _, ⟨hname, rfl⟩, htext, isCut_of_meets hends nofun⟩

theorem cuts_symbol : Cuts 1 Scan.symbol Spelling.symbol :=
  .of_piece fun h =>
    have ⟨htext, hname, hends⟩ := append_of_symbol h
    ⟨.word ('@' :: _), ⟨hname, rfl⟩, htext,
      isCut_of_meets ⟨solid_cons rfl (by decide) _, hends⟩ nofun⟩

theorem cuts_ident : Cuts 1 Scan.ident Spelling.ident :=
  .of_piece fun h =>
    have ⟨htext, hname, hends⟩ := append_of_ident h
    ⟨.word _, ⟨hname, rfl⟩, htext, isCut_of_meets ⟨by simpa using hname.1.solid [], hends⟩ nofun⟩

theorem cuts_constant : Cuts 1 constant (literal constant) :=
  .of_piece fun h =>
    have ⟨cs, htext, hcs, hread⟩ := exists_of_constant h
    ⟨.literal cs, ⟨cs, hread, rfl⟩, htext, isCut_of_meets hcs.solid nofun⟩

theorem cuts_index : Cuts 1 index (literal index) :=
  .of_piece fun h =>
    have ⟨ds, htext, hdigits, hzero, hvalue, hlt⟩ := exists_of_index h
    have hread := hvalue ▸ isLexeme_index hdigits hzero (hvalue ▸ hlt)
    have hsolid : Solid ds := by simpa using hdigits.solid []
    ⟨.literal ds, ⟨ds, hread, rfl⟩, htext, isCut_of_meets hsolid nofun⟩

theorem cuts_get : Cuts 1 (get : Scan (List Char)) fun _ => 1 := by
  intro ps hps text a rest hread
  obtain ⟨rfl, rfl⟩ := Prod.mk.inj (Except.ok.inj hread)
  exact ⟨[], by rw [List.map_nil, List.append_nil]; exact hps, rfl, trivial⟩

/-- A condition that holds is left out. -/
theorem given_mul {p : Prop} (h : p) (L : Spelling) : given p * L = L := by
  have hgiven : given p = 1 := by
    ext ps
    exact and_iff_right h
  rw [hgiven, one_mul]

/-- With a condition that does not hold, nothing is spelled so. -/
theorem given_eq_zero {p : Prop} (h : ¬p) : given p = 0 := by
  ext ps
  exact iff_of_false (fun hps => h hps.1) (Language.notMem_zero ps)

/-- A condition can be moved to the front. -/
theorem mul_given_mul (p : Prop) (L L' : Spelling) : L * (given p * L') = given p * (L * L') := by
  by_cases h : p
  · rw [given_mul h, given_mul h]
  · rw [given_eq_zero h, zero_mul, zero_mul, mul_zero]

theorem eq_given_mul {p : Prop} (h : p) {L L' : Spelling} (heq : L = L') : L = given p * L' := by
  rwa [given_mul h]

theorem cuts_sign {w : String} {c : Char} (hw : w.toList = [c]) (hc : isBlank c = false ∧ c ≠ '/') :
    Cuts 1 (word w) fun _ => sign w :=
  cuts_word (hw ▸ solid_cons hc.1 hc.2 [])

/-! ## Lists -/

/-- Items that follow are spelled with commas in front of them. -/
theorem Cuts.followers (h : Cuts 1 x K) (n : Nat) :
    Cuts 1 (followers x n) (Spelling.followers K) := by
  induction n with
  | zero => exact .pure rfl
  | succ n ih =>
    have hitem : Cuts 1 (do word ","; x : Scan α) fun a => sign "," * K a :=
      .bind (cuts_sign rfl (by decide)) fun _ => h.last fun a => by rw [one_mul]
    refine .bind (.optional hitem) fun a? => ?_
    cases a? with
    | none => exact .pure (by simp [Spelling.optional, Spelling.followers])
    | some a => exact .bind ih fun l => .pure (by simp [Spelling.optional, Spelling.followers])

/-- A list is spelled by its items and commas. -/
theorem Cuts.list (h : Cuts 1 x K) : Cuts 1 (list x) (Spelling.list K) :=
  .bind h fun a => .bind (K := fun _ => 1) cuts_get fun text => .bind (h.followers _) fun l =>
    .pure (by simp [Spelling.list])

theorem Cuts.spaced (h : Cuts 1 x K) : Cuts 1 (spaced x) (Spelling.spaced K) :=
  .bind cuts_layout fun _ => .bind h fun _ => .bind cuts_layout fun _ =>
    .pure (by simp [Spelling.spaced])

/-! ## Statements -/

theorem cuts_result : Cuts 1 Scan.result Spelling.result :=
  .bind cuts_valueRef fun _ => .bind cuts_layout fun _ => .bind (cuts_sign rfl (by decide)) fun _ =>
    .bind cuts_layout fun _ => .pure (by simp [Spelling.result])

theorem cuts_pair : Cuts 1 Scan.pair fun p => Spelling.pair p.1 p.2 :=
  .bind cuts_valueRef fun _ => .bind cuts_layout fun _ => .bind (cuts_sign rfl (by decide)) fun _ =>
    .bind cuts_layout fun _ => .bind cuts_valueRef fun _ => .pure (by simp [Spelling.pair])

/-- A lane of a slot is its name and its number in brackets. -/
theorem cuts_slotLane : Cuts 1 Scan.slotLane Spelling.slotLane :=
  .bind cuts_layout fun _ => .bind cuts_valueRef fun _ => .bind (cuts_sign rfl (by decide)) fun _ =>
    .bind cuts_layout fun _ => .bind cuts_index fun _ => .bind cuts_layout fun _ =>
      .bind (cuts_sign rfl (by decide)) fun _ => .bind cuts_layout fun _ =>
        .pure (by simp [Spelling.slotLane])

/-- A mask is its word and its name. -/
theorem cuts_mask {w : String} (hw : Solid w.toList) : Cuts 1 (Scan.mask w) (Spelling.mask w) :=
  .bind cuts_layout fun _ => .bind (cuts_word hw) fun _ => .bind cuts_layout fun _ =>
    .bind (cuts_sign rfl (by decide)) fun _ => .bind cuts_layout fun _ =>
      .bind cuts_valueRef fun _ => .bind cuts_layout fun _ =>
        .bind (cuts_sign rfl (by decide)) fun _ => .pure (by simp [Spelling.mask])

theorem cuts_annotation : Cuts 1 Scan.annotation Spelling.annotation :=
  .bind cuts_layout fun _ => .bind (cuts_sign rfl (by decide)) fun _ => .bind cuts_layout fun _ =>
    cuts_ident.last fun _ => by simp [Spelling.annotation]

section Keyword

variable {keyword : List Char} {block : Scan Draft}

/-- A form suits the keyword that it is read behind. -/
theorem suits_of_eq {form : Form} {w : String} (hform : form.keyword? = some w)
    (hkeyword : String.ofList keyword = w) : form.Suits keyword := by
  intro w' hw'
  obtain rfl := Option.some.inj (hform.symm.trans hw')
  rw [← hkeyword, String.toList_ofList]

/-- Behind its keyword, a constant is a literal or a list of literals. -/
theorem cuts_constForm (hk : String.ofList keyword = "const") (first second : Spelling) :
    Cuts 1 Scan.constForm fun form => given (form.Suits keyword) * form.spelling first second :=
  .either
    (.bind (cuts_sign rfl (by decide)) fun _ => .bind cuts_layout fun _ =>
      .bind (.list (.spaced cuts_constant)) fun _ => .bind cuts_layout fun _ =>
        .bind (cuts_sign rfl (by decide)) fun _ =>
          .pure (eq_given_mul (suits_of_eq rfl hk) (by simp [Form.spelling])))
    (.bind cuts_constant fun _ =>
      .pure (eq_given_mul (suits_of_eq rfl hk) (by simp [Form.spelling])))

/-- Behind its keyword, a load has a slot or a list of lanes. -/
theorem cuts_loadForm (hk : String.ofList keyword = "local_load") (first second : Spelling) :
    Cuts 1 Scan.loadForm fun form => given (form.Suits keyword) * form.spelling first second :=
  .either
    (.bind (cuts_sign rfl (by decide)) fun _ => .bind (.list cuts_slotLane) fun _ =>
      .bind (cuts_sign rfl (by decide)) fun _ =>
        .pure (eq_given_mul (suits_of_eq rfl hk) (by simp [Form.spelling])))
    (.bind cuts_valueRef fun _ =>
      .pure (eq_given_mul (suits_of_eq rfl hk) (by simp [Form.spelling])))

/-- The second block of a branch may be left out. -/
theorem cuts_otherwise (h : Cuts 1 block fun d => braces d.spelling) :
    Cuts 1 (Scan.otherwise block) fun d => Spelling.otherwise (braces d.spelling) :=
  .bind cuts_layout fun _ => .bind (cuts_word (solid_cons rfl (by decide) _)) fun _ =>
    .bind cuts_layout fun _ => h.last fun _ => by rw [one_mul]; rfl

/-- What follows a keyword, with the blocks. -/
theorem cuts_form (h : Cuts 1 block fun d => braces d.spelling) :
    Cuts 1 (form block keyword) fun r => given (r.1.Suits keyword) *
      r.1.spelling (braces r.2.1.spelling) (braces r.2.2.spelling) := by
  unfold form
  split
  · next hk => exact .pure (eq_given_mul (suits_of_eq rfl hk) (by simp [Form.spelling]))
  · next hk => exact .bind (cuts_constForm hk (braces gap) (braces gap)) fun _ => .pure (one_mul _)
  · next hk =>
    exact .bind cuts_index fun _ =>
      .pure (eq_given_mul (suits_of_eq rfl hk) (by simp [Form.spelling]))
  · next hk => exact .bind (cuts_loadForm hk (braces gap) (braces gap)) fun _ => .pure (one_mul _)
  · next hk =>
    exact .bind cuts_pair fun _ =>
      .pure (eq_given_mul (suits_of_eq rfl hk) (by simp [Form.spelling]))
  · next hk =>
    exact .bind cuts_valueRef fun _ =>
      .pure (eq_given_mul (suits_of_eq rfl hk) (by simp [Form.spelling]))
  · next hk =>
    exact .bind cuts_valueRef fun _ =>
      .pure (eq_given_mul (suits_of_eq rfl hk) (by simp [Form.spelling]))
  · next hk =>
    refine .bind cuts_valueRef fun cond =>
      .bind (.optional (cuts_mask (solid_cons rfl (by decide) _)))
      fun trueMask => .bind (.optional (cuts_mask (solid_cons rfl (by decide) _))) fun falseMask =>
        .bind cuts_layout fun _ => .bind h fun first => .bind (.optional (cuts_otherwise h))
          fun second? => .pure ?_
    cases second? with
    | none => exact eq_given_mul (suits_of_eq rfl hk) (by simp [Form.spelling, Spelling.optional])
    | some second =>
      exact eq_given_mul (suits_of_eq rfl hk) (by simp [Form.spelling, Spelling.optional])
  · next hk =>
    exact .bind (.optional (cuts_mask (solid_cons rfl (by decide) _))) fun mask =>
      .bind cuts_layout fun _ => .bind h fun body =>
        .pure (eq_given_mul (suits_of_eq rfl hk) (by simp [Form.spelling]))
  · next hk =>
    exact .bind cuts_valueRef fun counter => .bind cuts_layout fun _ =>
      .bind (cuts_word (solid_cons rfl (by decide) _)) fun _ => .bind cuts_layout fun _ =>
        .bind cuts_valueRef fun lower => .bind (cuts_word (solid_cons rfl (by decide) _)) fun _ =>
          .bind cuts_valueRef fun upper => .bind cuts_layout fun _ => .bind h fun body =>
            .pure (eq_given_mul (suits_of_eq rfl hk) (by simp [Form.spelling]))
  · next hk =>
    exact .bind (.list (.spaced cuts_valueRef)) fun counters =>
      .bind (cuts_word (solid_cons rfl (by decide) _)) fun _ => .bind cuts_layout fun _ =>
        .bind cuts_symbol fun snode => .bind cuts_layout fun _ => .bind h fun body =>
          .pure (eq_given_mul (suits_of_eq rfl hk) (by simp [Form.spelling]))
  · have hsuits : ∀ {form : Form}, form.keyword? = none → form.Suits keyword := by
      intro form hform w hw
      cases hform.symm.trans hw
    refine .bind cuts_pair fun p => .pure ?_
    split
    · exact eq_given_mul (hsuits rfl) (by simp [Form.spelling])
    · exact eq_given_mul (hsuits rfl) (by simp [Form.spelling])

/-- The spelling of a statement with its blocks. -/
theorem cuts_statement (h : Cuts 1 block fun d => braces d.spelling) :
    Cuts 1 (statement block) fun r =>
      r.1.spelling (braces r.2.1.spelling) (braces r.2.2.spelling) :=
  .bind (.optional cuts_result) fun _ => .bind cuts_ident fun _ => .bind cuts_layout fun _ =>
    .bind (cuts_form h) fun _ => .bind (.optional cuts_annotation) fun _ =>
      .pure (by simp [Head.spelling, mul_assoc, mul_given_mul])

/-- The statements of a block are spelled one behind the other. -/
theorem cuts_statements (h : Cuts 1 block fun d => braces d.spelling) (bound : Nat) :
    Cuts 1 (statements (statement block) bound) Draft.spelling := by
  induction bound with
  | zero =>
    intro ps hps text a rest hread
    cases hread
  | succ bound ih =>
    refine .bind cuts_layout fun _ => .bind cuts_get fun text => ?_
    split
    · exact .pure (by simp [Draft.spelling])
    · exact .pure (by simp [Draft.spelling])
    · exact .bind (cuts_statement h) fun _ => .bind ih fun _ => .pure (by simp [Draft.spelling])

end Keyword

/-- A block is spelled in braces, to whatever depth it is read. -/
theorem cuts_block (depth : Nat) : Cuts 1 (block depth) fun d => braces d.spelling := by
  induction depth with
  | zero =>
    intro ps hps text a rest hread
    cases hread
  | succ depth ih =>
    exact .bind (cuts_sign rfl (by decide)) fun _ => .bind cuts_get fun _ =>
      .bind (cuts_statements ih _) fun _ => .bind (cuts_sign rfl (by decide)) fun _ =>
        .pure (by simp [braces])

/-- A kernel is its word, its name and a block. -/
theorem cuts_kernel (depth : Nat) : Cuts 1 (kernel depth) fun r =>
    gap * sign "kernel" * gap * Spelling.symbol r.1 * gap * braces r.2.spelling :=
  .bind cuts_layout fun _ => .bind (cuts_word (solid_cons rfl (by decide) _)) fun _ =>
    .bind cuts_layout fun _ => .bind cuts_symbol fun _ => .bind cuts_layout fun _ =>
      .bind (cuts_block depth) fun _ => .pure (by simp)

end Scan

/-- A text that the grammar reads is cut into a spelling of what is read. -/
theorem exists_of_readKernel {text name : List Char} {draft : Draft}
    (h : readKernel text = .ok (name, draft)) :
    ∃ ps, flatten ps = text ∧ IsCut ps ∧ ps.map Piece.shape ∈ Spelling.kernel name draft := by
  unfold readKernel at h
  split at h
  · cases h
  · next r rest hkernel =>
    split at h
    · next hrest =>
      obtain rfl := Except.ok.inj h
      obtain ⟨ps, hps, rfl, hcut⟩ :=
        Scan.cuts_kernel _ [] Language.nil_mem_one _ _ _ hkernel
      refine ⟨ps ++ [.layout rest], by simp [Piece.text], ?_, ?_⟩
      · refine joined_append.2 ⟨by simpa [Piece.text] using hcut, ⟨?_, fun _ _ => rfl⟩, trivial⟩
        simpa [Piece.Meets, Scan.dropLayout] using hrest
      · rw [List.map_append]
        exact Language.append_mem_mul hps rfl
    · cases h

end KernelIR
