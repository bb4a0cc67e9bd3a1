import KernelIR.Proofs.Resolution
import KernelIR.Proofs.Text.Spelling

/-!
# Spellings are read

Every spelling of a lawful draft whose pieces meet is read as this draft, whatever layout is in the
gaps (`readKernel_of_neat`). What can go wrong is that a part which may be absent is taken for
present because of what follows, or that something goes on behind its end. So `Scan.Reads` has a
condition on what follows, layout apart, and `Starts` says that a spelling fulfils the condition of
what is in front of it.

A draft has to be lawful for two reasons. Behind a literal there is a colon then, and the word
`else` does not begin a statement.
-/

namespace KernelIR

open Spelling

variable {α β : Type}

/-- The text behind its layout. -/
def lead (ps : List Piece) : List Char :=
  Scan.dropLayout false (flatten ps)

/-- What is left of a text are these pieces, perhaps without the layout in front. -/
def Leaves (ps : List Piece) (text : List Char) : Prop :=
  text = flatten ps ∨ text = lead ps

/-- A text left by pieces begins, behind its layout, with the first solid piece. -/
theorem Leaves.dropLayout_eq {ps : List Piece} {text : List Char} (h : Leaves ps text) :
    Scan.dropLayout false text = lead ps := by
  rcases h with rfl | rfl
  · rfl
  · exact Scan.dropLayout_dropLayout false _

theorem Neat.tail {p : Piece} {ps : List Piece} (h : Neat (p :: ps)) : Neat ps :=
  h.2

theorem Neat.right {ps qs : List Piece} (h : Neat (ps ++ qs)) : Neat qs :=
  (joined_append.1 h).2

/-- In neat pieces no layout swallows what stands behind it. -/
theorem lead_layout {run : List Char} {ps : List Piece} (h : Neat (.layout run :: ps)) :
    lead (.layout run :: ps) = lead ps := by
  have hrun := h.1
  rwa [List.append_nil] at hrun

theorem lead_cons {p : Piece} {ps : List Piece} (h : Neat (p :: ps)) (hp : ∀ run, p ≠ .layout run) :
    lead (p :: ps) = p.text ++ flatten ps := by
  have hsolid := h.1.solid hp
  rw [List.append_nil] at hsolid
  exact Scan.dropLayout_of_solid hsolid

/-- In front of a piece that is no layout, nothing is skipped. -/
theorem Leaves.eq_of_cons {p : Piece} {ps : List Piece} {text : List Char}
    (h : Leaves (p :: ps) text)
    (hneat : Neat (p :: ps)) (hp : ∀ run, p ≠ .layout run) : text = p.text ++ flatten ps := by
  rcases h with rfl | rfl
  · rfl
  · exact lead_cons hneat hp

/-! ## How a spelling starts -/

/-- What is spelled so starts as `G` says, layout apart, if what follows it starts as `F` says. -/
def Starts (L : Spelling) (F G : List Char → Prop) : Prop :=
  ∀ ps : List Piece, ps.map Piece.shape ∈ L → ∀ qs, Neat (ps ++ qs) → F (lead qs) →
    G (lead (ps ++ qs))

/-- No condition on what follows. -/
def Always (_ : List Char) : Prop :=
  True

section Spelled

variable {ps : List Piece} {L M : Spelling} {F G : List Char → Prop}

/-- Pieces that make up one spelling behind another. -/
theorem exists_of_mem_mul (h : ps.map Piece.shape ∈ L * M) :
    ∃ ps₁ ps₂, ps = ps₁ ++ ps₂ ∧ ps₁.map Piece.shape ∈ L ∧ ps₂.map Piece.shape ∈ M := by
  obtain ⟨s₁, h₁, s₂, h₂, hs⟩ := Language.mem_mul.1 h
  obtain ⟨ps₁, ps₂, rfl, rfl, rfl⟩ := List.map_eq_append_iff.1 hs.symm
  exact ⟨ps₁, ps₂, rfl, h₁, h₂⟩

theorem eq_nil_of_mem_one (h : ps.map Piece.shape ∈ (1 : Spelling)) : ps = [] :=
  List.map_eq_nil_iff.1 ((Language.mem_one _).1 h)

/-- A gap is one piece of layout. -/
theorem exists_of_mem_gap (h : ps.map Piece.shape ∈ gap) : ∃ run, ps = [.layout run] := by
  obtain ⟨p, rfl, hp⟩ := List.map_eq_singleton_iff.1 h
  cases p with
  | layout run => exact ⟨run, rfl⟩
  | value | word | sign | literal => cases hp

/-- A piece that is no layout is determined by its shape. -/
theorem eq_of_map_shape {p : Piece} (h : ps.map Piece.shape = [p]) (hp : ∀ run, p ≠ .layout run) :
    ps = [p] := by
  obtain ⟨q, rfl, hq⟩ := List.map_eq_singleton_iff.1 h
  cases q with
  | layout run => exact absurd hq.symm (hp [])
  | value | word | sign | literal => exact congrArg (fun p => [p]) hq

namespace Starts

/-- Nothing is asked of how the text begins. -/
theorem always : Starts L F Always :=
  fun _ _ _ _ _ => trivial

theorem one (h : ∀ text, F text → G text) : Starts 1 F G := by
  intro ps hps qs _ hF
  obtain rfl := eq_nil_of_mem_one hps
  exact h _ hF

/-- Layout in front does not count for how a text begins. -/
theorem gap_mul (h : Starts M F G) : Starts (gap * M) F G := by
  intro ps hps qs hneat hF
  obtain ⟨_, ps₂, rfl, h₁, h₂⟩ := exists_of_mem_mul hps
  obtain ⟨run, rfl⟩ := exists_of_mem_gap h₁
  exact (lead_layout hneat).symm ▸ h ps₂ h₂ qs hneat.tail hF

/-- The first piece decides. -/
theorem piece_mul {N : Spelling} (hN : ∀ ps ∈ N, ∃ p : Piece, ps = [p] ∧ (∀ run, p ≠ .layout run) ∧
    ∀ rest, G (p.text ++ rest)) : Starts (N * M) F G := by
  intro ps hps qs hneat _
  obtain ⟨ps₁, ps₂, rfl, h₁, -⟩ := exists_of_mem_mul hps
  obtain ⟨p, hp, htoken, hG⟩ := hN _ h₁
  obtain rfl := eq_of_map_shape hp htoken
  exact (lead_cons hneat htoken).symm ▸ hG _

theorem sign_mul {w : String} (h : ∀ rest, G (w.toList ++ rest)) : Starts (sign w * M) F G :=
  piece_mul fun _ hps => ⟨.sign w, hps, nofun, h⟩

theorem value_mul {name : ValueName} (h : ∀ rest, G ('%' :: rest)) : Starts (value name * M) F G :=
  piece_mul fun _ hps => ⟨.value name, hps.2, nofun, fun _ => h _⟩

theorem symbol_mul {name : List Char} (h : ∀ rest, G ('@' :: rest)) :
    Starts (Spelling.symbol name * M) F G :=
  piece_mul fun _ hps => ⟨.word ('@' :: name), hps.2, nofun, fun _ => h _⟩

theorem ident_mul {name : List Char} (h : Scan.IsWord name → ∀ rest, G (name ++ rest)) :
    Starts (ident name * M) F G :=
  piece_mul fun _ hps => ⟨.word name, hps.2, nofun, h hps.1⟩

theorem of_mul_one (h : Starts (L * 1) F G) : Starts L F G := by
  rwa [mul_one] at h

/-- A condition of the spelling is at hand when its beginning is looked at. -/
theorem given_mul {p : Prop} (h : p → Starts L F G) : Starts (given p * L) F G := by
  by_cases hp : p
  · rw [Scan.given_mul hp]
    exact h hp
  · rw [Scan.given_eq_zero hp, zero_mul]
    exact fun _ hps => absurd hps (Language.notMem_zero _)

/-- An optional part that is absent leaves the beginning to what follows it. -/
theorem optional_mul {item : α → Spelling} {a? : Option α} (hnone : Starts M F G)
    (hsome : ∀ a, Starts (item a * M) F G) : Starts (Spelling.optional item a? * M) F G := by
  cases a? with
  | none => rwa [Spelling.optional, one_mul]
  | some a => exact hsome a

end Starts

end Spelled

/-! ## Reading a spelling -/

namespace Scan

variable {x y : Scan α} {f : α → Scan β} {a : α} {b : β} {L M : Spelling} {F G : List Char → Prop}
  {text : List Char}

/-- Every spelling in `L` is read as `a`, if what follows starts as `F` says, layout apart. -/
def Reads (x : Scan α) (L : Spelling) (a : α) (F : List Char → Prop) : Prop :=
  ∀ ps : List Piece, ps.map Piece.shape ∈ L → ∀ qs, Neat (ps ++ qs) → F (lead qs) →
    ∀ text, Leaves (ps ++ qs) text → ∃ rest, x text = .ok (a, rest) ∧ Leaves qs rest

namespace Reads

theorem pure : Reads (Pure.pure a) 1 a F := by
  intro ps hps qs _ _ text htext
  obtain rfl := eq_nil_of_mem_one hps
  exact ⟨text, rfl, htext⟩

/-- Two readers in sequence read the spellings in sequence, where the second begins in a way that
lets the first stop. -/
theorem bind (hx : Reads x L a G) (hstart : Starts M F G) (hf : Reads (f a) M b F) :
    Reads (x >>= f) (L * M) b F := by
  intro ps hps qs hneat hF text htext
  obtain ⟨ps₁, ps₂, rfl, h₁, h₂⟩ := exists_of_mem_mul hps
  rw [List.append_assoc] at hneat htext
  obtain ⟨mid, hmid, hleaves⟩ :=
    hx ps₁ h₁ (ps₂ ++ qs) hneat (hstart ps₂ h₂ qs hneat.right hF) text htext
  obtain ⟨rest, hrest, hleaves'⟩ := hf ps₂ h₂ qs hneat.right hF mid hleaves
  exact ⟨rest, (bind_of_ok hmid).trans hrest, hleaves'⟩

theorem seq (hx : Reads x L a Always) (hf : Reads (f a) M b F) : Reads (x >>= f) (L * M) b F :=
  hx.bind .always hf

theorem mono (hx : Reads x L a G) (h : ∀ text, F text → G text) : Reads x L a F :=
  fun ps hps qs hneat hF => hx ps hps qs hneat (h _ hF)

theorem given_mul {p : Prop} (h : p → Reads x L a F) : Reads x (given p * L) a F := by
  by_cases hp : p
  · rw [Scan.given_mul hp]
    exact h hp
  · rw [Scan.given_eq_zero hp, zero_mul]
    exact fun _ hps => absurd hps (Language.notMem_zero _)

theorem present (hx : Reads x L a F) : Reads (Scan.optional x) L (some a) F := by
  intro ps hps qs hneat hF text htext
  obtain ⟨rest, hrest, hleaves⟩ := hx ps hps qs hneat hF text htext
  exact ⟨rest, optional_of_ok hrest, hleaves⟩

/-- An optional part reads as absent where its reader fails on whatever follows. -/
theorem absent (h : ∀ text, F (dropLayout false text) → ∃ stop, x text = .error stop) :
    Reads (Scan.optional x) 1 none F := by
  intro ps hps qs hneat hF text htext
  obtain rfl := eq_nil_of_mem_one hps
  obtain ⟨stop, hstop⟩ := h text (htext.dropLayout_eq ▸ hF)
  exact ⟨text, optional_of_error hstop, htext⟩

theorem optional {K : α → Spelling} (hsome : ∀ a, Reads x (K a) a F)
    (hnone : ∀ text, F (dropLayout false text) → ∃ stop, x text = .error stop) (a? : Option α) :
    Reads (Scan.optional x) (Spelling.optional K a?) a? F := by
  cases a? with
  | some a => exact (hsome a).present
  | none => exact .absent hnone

theorem either_left (hx : Reads x L a F) : Reads (either x y) L a F := by
  intro ps hps qs hneat hF text htext
  obtain ⟨rest, hrest, hleaves⟩ := hx ps hps qs hneat hF text htext
  exact ⟨rest, either_of_ok hrest, hleaves⟩

/-- The second alternative is only reached where the first fails on each of its spellings. -/
theorem either_right (hstart : Starts L F G)
    (hfail : ∀ text, G (dropLayout false text) → ∃ stop, x text = .error stop)
    (hy : Reads y L a F) :
    Reads (either x y) L a F := by
  intro ps hps qs hneat hF text htext
  obtain ⟨rest, hrest, hleaves⟩ := hy ps hps qs hneat hF text htext
  obtain ⟨stop, hstop⟩ := hfail text (htext.dropLayout_eq ▸ hstart ps hps qs hneat hF)
  exact ⟨rest, (either_of_error hstop).trans hrest, hleaves⟩

/-- A part that reads one piece. -/
theorem of_piece (h : ∀ ps ∈ L, ∃ p : Piece, ps = [p] ∧ (∀ run, p ≠ .layout run) ∧
    ∀ rest, p.Meets rest → F (dropLayout false rest) → x (p.text ++ rest) = .ok (a, rest)) :
    Reads x L a F := by
  intro ps hps qs hneat hF text htext
  obtain ⟨p, hp, htoken, hread⟩ := h _ hps
  obtain rfl := eq_of_map_shape hp htoken
  obtain rfl := htext.eq_of_cons hneat htoken
  have hmeets := hneat.1
  rw [List.append_nil] at hmeets
  exact ⟨flatten qs, hread _ hmeets hF, .inl rfl⟩

end Reads

/-- The reader of layout takes one gap, whatever the gap holds. -/
theorem reads_layout : Reads layout gap () Always := by
  intro ps hps qs hneat _ text htext
  obtain ⟨run, rfl⟩ := exists_of_mem_gap hps
  refine ⟨dropLayout false text, rfl, .inr ?_⟩
  rw [htext.dropLayout_eq]
  exact lead_layout hneat

theorem reads_word {w : String} : Reads (word w) (sign w) () Always :=
  .of_piece fun _ hps => ⟨.sign w, hps, nofun, fun rest _ _ => word_append w rest⟩

theorem reads_valueRef {name : ValueName} : Reads valueRef (value name) name Always :=
  .of_piece fun _ hps => ⟨.value name, hps.2, nofun, fun _ hends _ => valueRef_append hps.1 hends⟩

theorem reads_symbol {name : List Char} : Reads Scan.symbol (Spelling.symbol name) name Always :=
  .of_piece fun _ hps => ⟨.word ('@' :: name), hps.2, nofun, fun _ h _ => symbol_append hps.1 h.2⟩

theorem reads_ident {name : List Char} : Reads Scan.ident (Spelling.ident name) name Always :=
  .of_piece fun _ hps => ⟨.word name, hps.2, nofun, fun _ h _ => ident_append hps.1 h.2⟩

theorem isLiteralChar_of_isBlank {c : Char} (hc : isBlank c = true) : isLiteralChar c = false := by
  have hpoint : (c == '.') = false := Bool.eq_false_iff.2 fun h => by
    obtain rfl := eq_of_beq h
    cases hc
  rw [isLiteralChar, not_isNameChar_of_isBlank hc, hpoint]
  rfl

/-- A literal reads back where no further character of it follows. -/
theorem reads_literal : Reads x (literal x a) a (Ends isLiteralChar) :=
  .of_piece fun _ hps =>
    have ⟨cs, hread, hps⟩ := hps
    ⟨.literal cs, hps, nofun, fun rest _ hends =>
      hread rest (ends_of_dropLayout (fun _ => isLiteralChar_of_isBlank) rfl hends)⟩

/-! ## What is absent -/

theorem ends_beq_of_dropLayout {d : Char} (hd : isBlank d = false ∧ d ≠ '/')
    (h : Ends (· == d) (dropLayout false text)) : Ends (· == d) text := by
  have hblank : ∀ c, isBlank c = true → (c == d) = false := by
    intro c hc
    refine beq_eq_false_iff_ne.2 fun heq => ?_
    rw [heq, hd.1] at hc
    cases hc
  exact ends_of_dropLayout hblank (beq_eq_false_iff_ne.2 hd.2.symm) h

/-- A word is refused in front of any text that begins with another character than the word does. -/
theorem word_fails {w : String} {d : Char} {ds : List Char} (hw : w.toList = d :: ds)
    (hd : isBlank d = false ∧ d ≠ '/') {f : Unit → Scan α}
    (h : Ends (· == d) (dropLayout false text)) :
    ∃ stop, (word w >>= f) text = .error stop :=
  ⟨_, bind_of_error (word_error hw (ends_beq_of_dropLayout hd h))⟩

/-- Layout and a word are refused wherever the text behind the layout does not begin with the word.
-/
theorem layout_word_fails {w : String} {d : Char} {ds : List Char} (hw : w.toList = d :: ds)
    {f : Unit → Scan α} (h : Ends (· == d) (dropLayout false text)) :
    ∃ stop, (layout >>= fun _ => word w >>= f) text = .error stop :=
  ⟨_, (bind_of_ok (x := layout) rfl).trans (bind_of_error (word_error hw h))⟩

/-! ## Lists -/

section Lists

variable {item : Scan α} {K : α → Spelling} {l : List α}

/-- The further items of a list begin with a comma, or the list is over. -/
theorem starts_followers (hcomma : ∀ rest, G (',' :: rest)) (hF : ∀ text, F text → G text) :
    Starts (Spelling.followers K l) F G := by
  cases l with
  | nil => exact .one hF
  | cons a l =>
    rw [Spelling.followers, mul_assoc]
    exact .sign_mul hcomma

/-- Items end where something else than a comma follows. -/
theorem reads_followers (hitem : Forward item) (h : ∀ a, Reads item (K a) a G)
    (hcomma : ∀ rest, G (',' :: rest)) (hF : ∀ text, F text → G text)
    (hend : ∀ text, F text → Ends (· == ',') text) :
    Reads (fun text => followers item text.length text) (Spelling.followers K l) l F := by
  induction l with
  | nil =>
    intro ps hps qs hneat hlead text htext
    obtain rfl := eq_nil_of_mem_one hps
    refine ⟨text, ?_, htext⟩
    cases text with
    | nil => rfl
    | cons c text =>
      obtain ⟨stop, hstop⟩ := word_fails (w := ",") (f := fun _ => item) rfl (by decide)
        (htext.dropLayout_eq ▸ hend _ hlead)
      exact bind_of_ok (optional_of_error hstop)
  | cons a l ih =>
    intro ps hps qs hneat hlead text htext
    obtain ⟨ps₁, ps₂, rfl, h₁, h₂⟩ := exists_of_mem_mul hps
    rw [List.append_assoc] at hneat htext
    have hcommaItem : Reads (do word ","; item : Scan α) (sign "," * K a) a G :=
      .seq reads_word (h a)
    obtain ⟨mid, hmid, hleaves⟩ := hcommaItem ps₁ h₁ (ps₂ ++ qs) hneat
      (starts_followers hcomma hF ps₂ h₂ qs hneat.right hlead) text htext
    obtain ⟨rest, hrest, hleaves'⟩ := ih ps₂ h₂ qs hneat.right hlead mid hleaves
    have hlt : mid.length < text.length :=
      Consumes.bind (consumes_word (w := ",") (by decide)) (fun _ => hitem) _ _ _ hmid
    obtain ⟨n, hn⟩ := Nat.exists_eq_succ_of_ne_zero (Nat.ne_zero_of_lt hlt)
    refine ⟨rest, ?_, hleaves'⟩
    dsimp only at hrest ⊢
    rw [followers_eq_of_length_le hitem (Nat.le_refl _) (Nat.le_of_lt_succ (hn ▸ hlt))] at hrest
    rw [hn]
    exact (bind_of_ok (optional_of_ok hmid)).trans ((bind_of_ok hrest).trans rfl)

/-- The list of items as its first item and the followers of it, read one after the other. -/
theorem list_eq : list item = do
    let first ← item
    let rest ← (fun text => followers item text.length text : Scan (List α))
    return first :: rest :=
  rfl

/-- A list with commas reads back where an item ends at a comma and no comma follows the list. -/
theorem reads_list (hitem : Forward item) (h : ∀ a, Reads item (K a) a G)
    (hcomma : ∀ rest, G (',' :: rest)) (hF : ∀ text, F text → G text)
    (hend : ∀ text, F text → Ends (· == ',') text) :
    Reads (list item) (Spelling.list K l) l F := by
  cases l with
  | nil =>
    intro ps hps
    cases hps
  | cons a l =>
    rw [Spelling.list, list_eq, ← mul_one (Spelling.followers K l)]
    refine .bind (h a) ?_ (.bind (reads_followers hitem h hcomma hF hend) (.one fun _ => id) .pure)
    rw [mul_one]
    exact starts_followers hcomma hF

end Lists

/-! ## Parts of statements -/

theorem Reads.of_mul_one (h : Reads x (L * 1) a F) : Reads x L a F := by
  rwa [mul_one] at h

theorem Reads.spaced {K : α → Spelling} (h : ∀ a, Reads x (K a) a F) (a : α) :
    Reads (spaced x) (Spelling.spaced K a) a F := by
  refine .of_mul_one ?_
  simp only [Spelling.spaced, mul_assoc]
  exact .seq reads_layout (.bind (h a) (.gap_mul (.one fun _ => id)) (.seq reads_layout .pure))

theorem reads_result (name : ValueName) : Reads result (Spelling.result name) name F := by
  refine .of_mul_one ?_
  simp only [Spelling.result, mul_assoc]
  exact .seq reads_valueRef (.seq reads_layout (.seq reads_word (.seq reads_layout .pure)))

theorem reads_pair (p : ValueName × ValueName) : Reads pair (Spelling.pair p.1 p.2) p F := by
  refine .of_mul_one ?_
  simp only [Spelling.pair, mul_assoc]
  exact .seq reads_valueRef (.seq reads_layout (.seq reads_word (.seq reads_layout
    (.seq reads_valueRef .pure))))

theorem reads_slotLane (lane : ValueName × Nat) :
    Reads slotLane (Spelling.slotLane lane) lane F := by
  refine .of_mul_one ?_
  simp only [Spelling.slotLane, mul_assoc]
  exact .seq reads_layout (.seq reads_valueRef (.seq reads_word (.seq reads_layout
    (.bind reads_literal (.gap_mul (.sign_mul fun _ => ends_cons rfl _))
      (.seq reads_layout (.seq reads_word (.seq reads_layout .pure)))))))

theorem reads_mask (w : String) (v : ValueName) : Reads (mask w) (Spelling.mask w v) v F := by
  refine .of_mul_one ?_
  simp only [Spelling.mask, mul_assoc]
  exact .seq reads_layout (.seq reads_word (.seq reads_layout (.seq reads_word (.seq reads_layout
    (.seq reads_valueRef (.seq reads_layout (.seq reads_word .pure)))))))

theorem reads_annotation (type : List Char) :
    Reads annotation (Spelling.annotation type) type F := by
  simp only [Spelling.annotation, mul_assoc]
  exact .seq reads_layout
    (.seq reads_word (.seq reads_layout (reads_ident.mono fun _ _ => trivial)))

/-! ## What follows a keyword -/

theorem ends_of_isLexeme {cs : List Char} {lane : Constant} (h : IsLexeme constant cs lane)
    (rest : List Char) : Ends (· == '[') (cs ++ rest) := by
  have hread := h [] nofun
  cases cs with
  | nil => cases hread
  | cons c cs =>
    refine ends_cons (Bool.eq_false_iff.2 fun hc => ?_) _
    obtain rfl := eq_of_beq hc
    cases hread

/-- What must not follow a statement of the form without its type. -/
def Stops (form : Form) (text : List Char) : Prop :=
  if form.hasValue then Ends isLiteralChar text else Ends (· == 'e') text

theorem starts_braces {L : Spelling} (h : ∀ rest, G ('\x7b' :: rest)) :
    Starts (braces L * M) F G := by
  simp only [braces, mul_assoc]
  exact .sign_mul h

/-- The word `else` and the block behind it. -/
theorem reads_otherwise {block : Scan Draft} {second : Draft} (h : Reads block L second Always) :
    Reads (otherwise block) (Spelling.otherwise L) second F := by
  simp only [Spelling.otherwise, mul_assoc]
  exact .seq reads_layout (.seq reads_word (.seq reads_layout (h.mono fun _ _ => trivial)))

/-- The block behind `else`, if there is one. -/
theorem reads_second {block : Scan Draft} {second : Draft} (h : Reads block L second Always)
    (present : Bool) {f : Option Draft → Scan β} {b : β}
    (hf : f (if present then some second else none) = pure b) :
    Reads (Scan.optional (otherwise block) >>= f)
      (if present then Spelling.otherwise L else 1) b (Ends (· == 'e')) := by
  refine .of_mul_one ?_
  cases present with
  | true => exact .seq (reads_otherwise h).present (hf ▸ .pure)
  | false =>
    exact .bind (.absent fun _ hlead => layout_word_fails rfl hlead) (.one fun _ => id) (hf ▸ .pure)

section Form

variable {block : Scan Draft} {first second : Draft} {L₁ L₂ : Spelling} {keyword : List Char}

theorem reads_lanes (l : List Constant) :
    Reads constForm ((Form.lanes l).spelling L₁ L₂) (.lanes l) F := by
  refine .either_left (.of_mul_one ?_)
  simp only [Form.spelling, mul_assoc]
  exact .seq reads_word (.seq reads_layout (.bind
    (reads_list (F := fun text => Ends isLiteralChar text ∧ Ends (· == ',') text)
      (forward_spaced forward_constant) (.spaced fun _ => reads_literal) (fun _ => ends_cons rfl _)
      (fun _ h => h.1) fun _ h => h.2)
    (.gap_mul (.sign_mul fun _ => ⟨ends_cons rfl _, ends_cons rfl _⟩))
    (.seq reads_layout (.seq reads_word .pure))))

/-- A scalar constant ends where no literal character follows. -/
theorem reads_splat (lane : Constant) :
    Reads constForm ((Form.splat lane).spelling L₁ L₂) (.splat lane) (Ends isLiteralChar) := by
  refine .of_mul_one (.either_right (G := Ends (· == '[')) ?_ ?_ ?_)
  · exact .piece_mul fun _ hps =>
      have ⟨cs, hread, hps⟩ := hps
      ⟨.literal cs, hps, nofun, ends_of_isLexeme hread⟩
  · exact fun text h => word_fails rfl (by decide) h
  · exact .bind reads_literal (.one fun _ => id) .pure

theorem reads_loadLanes (l : List (ValueName × Nat)) :
    Reads loadForm ((Form.loadLanes l).spelling L₁ L₂) (.loadLanes l) F := by
  refine .either_left (.of_mul_one ?_)
  simp only [Form.spelling, mul_assoc]
  exact .seq reads_word (.bind
    (reads_list (F := Ends (· == ',')) forward_slotLane reads_slotLane (fun _ => trivial)
      (fun _ _ => trivial) fun _ => id)
    (.sign_mul fun _ => ends_cons rfl _) (.seq reads_word .pure))

/-- A load of one lane is read by the second alternative, since a value never begins like a list. -/
theorem reads_loadSlot (slot : ValueName) :
    Reads loadForm ((Form.loadSlot slot).spelling L₁ L₂) (.loadSlot slot) F := by
  refine .of_mul_one (.either_right (G := Ends (· == '[')) ?_ ?_ ?_)
  · exact .value_mul fun _ => ends_cons rfl _
  · exact fun text h => word_fails rfl (by decide) h
  · exact .seq reads_valueRef .pure

/-- Behind the keyword of a form without blocks. -/
theorem reads_leaf {form : Form} (hsuits : form.Suits keyword)
    (hknown : form.KnownOperation keyword) (hleaf : form.hasFirst = false) :
    Reads (Scan.form block keyword) (form.spelling L₁ L₂) (form, .nil, .nil) (Stops form) := by
  refine .of_mul_one ?_
  cases form with
  | alloca =>
    obtain rfl := hsuits _ rfl
    rw [Form.spelling, one_mul]
    exact .pure
  | splat lane =>
    obtain rfl := hsuits _ rfl
    exact .bind (reads_splat lane) (.one fun _ => id) .pure
  | lanes l =>
    obtain rfl := hsuits _ rfl
    exact .seq (reads_lanes l) .pure
  | arg index =>
    obtain rfl := hsuits _ rfl
    exact .bind reads_literal (.one fun _ => id) .pure
  | loadSlot slot =>
    obtain rfl := hsuits _ rfl
    exact .seq (reads_loadSlot slot) .pure
  | loadLanes l =>
    obtain rfl := hsuits _ rfl
    exact .seq (reads_loadLanes l) .pure
  | binary a b =>
    obtain ⟨op, rfl⟩ := hknown
    rw [form_binary]
    exact .seq (reads_pair (a, b)) .pure
  | atomic slot value =>
    obtain ⟨op, rfl⟩ := hknown
    rw [form_atomic]
    exact .seq (reads_pair (slot, value)) .pure
  | store slot value =>
    obtain rfl := hsuits _ rfl
    exact .seq (reads_pair (slot, value)) .pure
  | print v | leave v =>
    obtain rfl := hsuits _ rfl
    exact .seq reads_valueRef .pure
  | branch | loop | rangeFor | structFor => cases hleaf

/-- Behind the keyword of a form with blocks. -/
theorem reads_nested {form : Form} (hsuits : form.Suits keyword) (hnested : form.hasFirst = true)
    (hsecond : form.hasSecond = false → second = .nil) (h₁ : Reads block (braces L₁) first Always)
    (h₂ : Reads block (braces L₂) second Always) :
    Reads (Scan.form block keyword) (form.spelling (braces L₁) (braces L₂)) (form, first, second)
      (Stops form) := by
  cases form with
  | branch cond trueMask falseMask otherwise =>
    obtain rfl := hsuits _ rfl
    simp only [Form.spelling, mul_assoc]
    refine .seq reads_valueRef
      (.bind (.optional (reads_mask "true_mask") (fun _ => layout_word_fails rfl)
        trueMask) ?_
      (.bind (.optional (reads_mask "false_mask") (fun _ => layout_word_fails rfl) falseMask)
        (.gap_mul (starts_braces fun _ => ends_cons rfl _))
        (.seq reads_layout (.seq h₁ (reads_second h₂ otherwise ?_)))))
    · refine .optional_mul (.gap_mul (starts_braces fun _ => ends_cons rfl _)) fun m => ?_
      simp only [Spelling.mask, mul_assoc]
      exact .gap_mul (.sign_mul fun _ => ends_cons rfl _)
    · cases otherwise with
      | true => rfl
      | false => rw [hsecond rfl]; rfl
  | loop mask =>
    obtain rfl := hsuits _ rfl
    obtain rfl := hsecond rfl
    refine .of_mul_one ?_
    simp only [Form.spelling, mul_assoc]
    exact .bind (.optional (reads_mask "mask") (fun _ => layout_word_fails rfl) mask)
      (.gap_mul (starts_braces fun _ => ends_cons rfl _)) (.seq reads_layout (.seq h₁ .pure))
  | rangeFor counter lower upper =>
    obtain rfl := hsuits _ rfl
    obtain rfl := hsecond rfl
    refine .of_mul_one ?_
    simp only [Form.spelling, mul_assoc]
    exact .seq reads_valueRef (.seq reads_layout (.seq reads_word (.seq reads_layout
      (.seq reads_valueRef (.seq reads_word (.seq reads_valueRef (.seq reads_layout
        (.seq h₁ .pure))))))))
  | structFor counters snode =>
    obtain rfl := hsuits _ rfl
    obtain rfl := hsecond rfl
    refine .of_mul_one ?_
    simp only [Form.spelling, mul_assoc]
    exact .bind (reads_list (F := Ends (· == ',')) (forward_spaced forward_valueRef)
        (.spaced fun _ => reads_valueRef) (fun _ => trivial) (fun _ _ => trivial) fun _ => id)
      (.sign_mul fun _ => ends_cons rfl _) (.seq reads_word (.seq reads_layout (.seq reads_symbol
        (.seq reads_layout (.seq h₁ .pure)))))
  | alloca | splat | lanes | arg | binary | loadSlot | loadLanes | store | atomic | print | leave =>
    cases hnested

/-- What stands behind the keyword of a form is read as the form and its blocks. -/
theorem reads_form {form : Form} (hsuits : form.Suits keyword)
    (hknown : form.KnownOperation keyword) (hfirst : form.hasFirst = false → first = .nil)
    (hsecond : form.hasSecond = false → second = .nil)
    (h₁ : Reads block (braces L₁) first Always) (h₂ : Reads block (braces L₂) second Always) :
    Reads (Scan.form block keyword) (form.spelling (braces L₁) (braces L₂)) (form, first, second)
      (Stops form) := by
  cases hleaf : form.hasFirst with
  | true => exact reads_nested hsuits hleaf hsecond h₁ h₂
  | false =>
    have hnone : form.hasSecond = false := by
      cases form <;> first | rfl | cases hleaf
    obtain rfl := hfirst hleaf
    obtain rfl := hsecond hnone
    exact reads_leaf hsuits hknown hleaf

/-! ## Statements -/

/-- The keyword of a statement in order is one of those that are printed. -/
theorem exists_keyword {form : Form} (hsuits : form.Suits keyword)
    (hknown : form.KnownOperation keyword) : ∃ kind : Kind, keyword = kind.keyword := by
  cases form with
  | alloca => exact ⟨.alloca, hsuits _ rfl⟩
  | splat | lanes => exact ⟨.const [], hsuits _ rfl⟩
  | arg => exact ⟨.arg 0, hsuits _ rfl⟩
  | loadSlot | loadLanes => exact ⟨.load [], hsuits _ rfl⟩
  | store => exact ⟨.store ⟨0⟩ ⟨0⟩, hsuits _ rfl⟩
  | print => exact ⟨.print ⟨0⟩, hsuits _ rfl⟩
  | branch => exact ⟨.branch ⟨0⟩ none none none none, hsuits _ rfl⟩
  | loop => exact ⟨.loop none ⟨0⟩, hsuits _ rfl⟩
  | leave => exact ⟨.leave ⟨0⟩, hsuits _ rfl⟩
  | rangeFor => exact ⟨.rangeFor ⟨0⟩ ⟨0⟩ ⟨0⟩ ⟨0⟩, hsuits _ rfl⟩
  | structFor => exact ⟨.structFor [] "" ⟨0⟩, hsuits _ rfl⟩
  | binary =>
    obtain ⟨op, rfl⟩ := hknown
    exact ⟨.binary op ⟨0⟩ ⟨0⟩, rfl⟩
  | atomic =>
    obtain ⟨op, rfl⟩ := hknown
    exact ⟨.atomic op ⟨0⟩ ⟨0⟩, rfl⟩

theorem ends_of_isWord {name : List Char} (h : IsWord name) {d : Char} (hd : isNameChar d = false)
    (rest : List Char) : Ends (· == d) (name ++ rest) := by
  obtain ⟨⟨hne, hall⟩, -⟩ := h
  cases name with
  | nil => exact absurd rfl hne
  | cons c cs =>
    refine ends_cons (Bool.eq_false_iff.2 fun hc => ?_) _
    have hname := hall c List.mem_cons_self
    rw [eq_of_beq hc, hd] at hname
    cases hname

/-- A statement begins here. It cannot be taken for an annotation, for `else` or for the end. -/
def Begins (text : List Char) : Prop :=
  ∃ c cs, text = c :: cs ∧ c ≠ '\x7d' ∧ c ≠ ':' ∧ c ≠ 'e'

/-- Here the statements of a block end. -/
def Closes (text : List Char) : Prop :=
  ∃ cs, text = '\x7d' :: cs

/-- What goes on here belongs to no statement in front. -/
def Apart (text : List Char) : Prop :=
  Ends (fun c => c == ':' || c == 'e') text

theorem Begins.apart {text : List Char} (h : Begins text) : Apart text := by
  obtain ⟨c, cs, rfl, -, hcolon, he⟩ := h
  exact ends_cons (by simp [hcolon, he]) cs

theorem Closes.apart {text : List Char} (h : Closes text) : Apart text := by
  obtain ⟨cs, rfl⟩ := h
  exact ends_cons rfl cs

variable {head : Head} {visible : ValueName → Prop}

/-- A statement begins with its result or its keyword, and neither is taken for an annotation, for
`else` or for the end of a block. -/
theorem starts_head (hlaw : head.Lawful visible) :
    Starts (head.spelling L₁ L₂ * M) F Begins := by
  simp only [Head.spelling, mul_assoc]
  refine .given_mul fun hsuits => .optional_mul (.ident_mul fun _ rest => ?_) fun name => ?_
  · obtain ⟨kind, hkind⟩ := exists_keyword hsuits hlaw.operation
    obtain ⟨⟨⟨hne, -⟩, halpha⟩, he⟩ := kind.isWord_keyword
    rw [hkind]
    cases hkeyword : kind.keyword with
    | nil => exact absurd hkeyword hne
    | cons c cs =>
      rw [hkeyword] at halpha he
      have hc := halpha c rfl
      refine ⟨c, cs ++ rest, rfl, ?_, ?_, fun hce => he (congrArg some hce)⟩
      · rintro rfl
        cases hc
      · rintro rfl
        cases hc
  · simp only [Spelling.result, mul_assoc]
    exact .value_mul fun rest => ⟨'%', rest, rfl, by decide⟩

/-- What stands behind a form, its annotation or text apart from it, is nothing the form goes on
with. -/
theorem starts_type (hlaw : head.Lawful visible) :
    Starts (Spelling.optional Spelling.annotation head.annotation? * 1) Apart
      (Stops head.form) := by
  cases hann : head.annotation? with
  | some type =>
    simp only [Spelling.optional, Spelling.annotation, mul_assoc]
    refine .gap_mul (.sign_mul fun rest => ?_)
    unfold Stops
    split <;> exact ends_cons rfl _
  | none =>
    have hvalue : head.form.hasValue = false := by
      refine Bool.eq_false_iff.2 fun hvalue => ?_
      have htyped := (hlaw.produces hvalue).2
      rw [Head.annotated?, hann] at htyped
      cases htyped
    rw [Spelling.optional, one_mul]
    refine .one fun text h => ?_
    rw [Stops, hvalue]
    exact h.mono fun c hc => by simp [hc]

/-- A statement in order is read with its blocks. -/
theorem reads_statement (hlaw : head.Lawful visible)
    (hfirst : head.form.hasFirst = false → first = .nil)
    (hsecond : head.form.hasSecond = false → second = .nil)
    (h₁ : Reads block (braces L₁) first Always) (h₂ : Reads block (braces L₂) second Always) :
    Reads (statement block) (head.spelling (braces L₁) (braces L₂))
      (head, first, second) Apart := by
  refine .of_mul_one ?_
  simp only [Head.spelling, mul_assoc]
  refine .given_mul fun hsuits => .bind (G := Ends (· == '%'))
    (.optional reads_result (fun text h => ?_) head.result?) (.ident_mul fun hword rest => ?_)
    (.seq reads_ident (.seq reads_layout (.bind
      (reads_form hsuits hlaw.operation hfirst hsecond h₁ h₂) (starts_type hlaw)
      (.bind (.optional reads_annotation (fun text h => ?_) head.annotation?)
        (.one fun _ => id) .pure))))
  · exact ⟨_, bind_of_error (bind_of_error (word_error rfl (ends_beq_of_dropLayout (by decide) h)))⟩
  · exact ends_of_isWord hword rfl rest
  · exact layout_word_fails (d := ':') rfl (h.mono fun c hc => by simp [hc])

end Form

/-- Reads statements, as many as there are. -/
def body (depth : Nat) : Scan Draft := fun text =>
  statements (statement (block depth)) (text.length + 1) text

/-- The reader of blocks with one more level of nesting reads the braces around a draft. -/
theorem reads_block {draft : Draft} {depth : Nat}
    (h : Reads (body depth) draft.spelling draft Closes) :
    Reads (block (depth + 1)) (braces draft.spelling) draft Always := by
  have heq : block (depth + 1) = (do word "\x7b"; let d ← body depth; word "\x7d"; return d) := rfl
  refine .of_mul_one ?_
  simp only [braces, mul_assoc, heq]
  exact .seq reads_word (.bind h (.sign_mul fun rest => ⟨rest, rfl⟩) (.seq reads_word .pure))

/-- A draft begins apart from the text in front of it, with a statement or at the end of the block.
-/
theorem starts_draft {draft : Draft} {outer : ValueName → Prop} (hlaw : draft.LawfulIn outer) :
    Starts draft.spelling Closes Apart := by
  refine .of_mul_one ?_
  cases draft with
  | nil => exact .gap_mul (.one fun _ h => h.apart)
  | cons head first second rest =>
    simp only [Draft.spelling, mul_assoc]
    refine .gap_mul fun ps hps qs hneat hF => ?_
    exact (starts_head (Draft.lawfulIn_cons_iff.1 hlaw).1 ps hps qs hneat hF).apart

/-- The statements of a lawful draft are read, down to any depth that is not less than its size. -/
theorem reads_body {draft : Draft} {outer : ValueName → Prop} (hlaw : draft.LawfulIn outer)
    (howned : draft.Owned) {depth : Nat} (hdepth : sizeOf draft ≤ depth) :
    Reads (body depth) draft.spelling draft Closes := by
  induction draft generalizing outer depth with
  | nil =>
    rintro ps hps qs hneat ⟨tail, htail⟩ text htext
    obtain ⟨run, rfl⟩ := exists_of_mem_gap hps
    have hline : dropLayout false text = '\x7d' :: tail :=
      htext.dropLayout_eq.trans ((lead_layout hneat).trans htail)
    exact ⟨_, statements_nil hline, .inr htail.symm⟩
  | cons head first second rest ih₁ ih₂ ih₃ =>
    obtain ⟨hhead, hlaw₁, hlaw₂, hlaw₃⟩ := Draft.lawfulIn_cons_iff.1 hlaw
    obtain ⟨⟨hfirst, hsecond⟩, ho₁, ho₂, ho₃⟩ := howned
    simp only [Draft.cons.sizeOf_spec] at hdepth
    obtain ⟨depth, rfl⟩ := Nat.exists_eq_succ_of_ne_zero (n := depth) (by omega)
    have hblock₁ : Reads (block (depth + 1)) (braces first.spelling) first Always :=
      reads_block (ih₁ hlaw₁ ho₁ (by omega))
    have hblock₂ : Reads (block (depth + 1)) (braces second.spelling) second Always :=
      reads_block (ih₂ hlaw₂ ho₂ (by omega))
    have hrest : Reads (body (depth + 1)) rest.spelling rest Closes := ih₃ hlaw₃ ho₃ (by omega)
    intro ps hps qs hneat hcloses text htext
    rw [Draft.spelling, mul_assoc] at hps
    obtain ⟨_, ps, rfl, hgap, hhere⟩ := exists_of_mem_mul hps
    obtain ⟨run, rfl⟩ := exists_of_mem_gap hgap
    obtain ⟨c, cs, hcs, hbrace, -⟩ := starts_head hhead ps hhere qs hneat.tail hcloses
    have hline : dropLayout false text = c :: cs :=
      htext.dropLayout_eq.trans ((lead_layout hneat).trans hcs)
    obtain ⟨ps₁, ps₂, rfl, h₁, h₂⟩ := exists_of_mem_mul hhere
    have hneat' : Neat (ps₁ ++ (ps₂ ++ qs)) := List.append_assoc ps₁ ps₂ qs ▸ hneat.tail
    rw [List.append_assoc] at hcs
    obtain ⟨mid, hmid, hleaves⟩ := reads_statement hhead hfirst hsecond hblock₁ hblock₂ ps₁ h₁
      (ps₂ ++ qs) hneat' (starts_draft hlaw₃ ps₂ h₂ qs hneat'.right hcloses) (c :: cs)
        (.inr hcs.symm)
    obtain ⟨left, hleft, hleaves'⟩ := hrest ps₂ h₂ qs hneat'.right hcloses mid hleaves
    have hconsumes := consumes_statement (forward_block (depth + 1))
    have hshort : mid.length < text.length :=
      Nat.lt_of_lt_of_le (hconsumes _ _ _ hmid) (hline ▸ dropLayout_suffix false text).length_le
    have htail : statements (statement (block (depth + 1))) text.length mid = .ok (rest, left) :=
      (statements_eq_of_length_lt hconsumes hshort (Nat.lt_succ_self _)).trans hleft
    exact ⟨left,
      (statements_cons hline hbrace).trans ((bind_of_ok hmid).trans ((bind_of_ok htail).trans rfl)),
      hleaves'⟩

/-- The text of a kernel reads as its name and the draft of its body. -/
theorem reads_kernel {name : List Char} {draft : Draft} {depth : Nat}
    (h : Reads (block depth) (braces draft.spelling) draft Always) :
    Reads (kernel depth)
      (gap * sign "kernel" * gap * Spelling.symbol name * gap * braces draft.spelling)
      (name, draft) Always := by
  refine .of_mul_one ?_
  simp only [mul_assoc]
  exact .seq reads_layout (.seq reads_word (.seq reads_layout (.seq reads_symbol (.seq reads_layout
    (.seq h .pure)))))

end Scan

/-- A spelling of a lawful draft is read as this draft, if its pieces meet. -/
theorem readKernel_of_neat {name : List Char} {draft : Draft} (hlaw : draft.Lawful)
    (howned : draft.Owned)
    {ps : List Piece} (hps : ps.map Piece.shape ∈ Spelling.kernel name draft) (hneat : Neat ps) :
    readKernel (flatten ps) = .ok (name, draft) := by
  obtain ⟨ps, ps', rfl, hkernel, hgap⟩ := exists_of_mem_mul hps
  obtain ⟨run, rfl⟩ := exists_of_mem_gap hgap
  -- deep enough for the draft, and deeper than the text is long
  let text := flatten (ps ++ [.layout run])
  let depth := sizeOf draft + text.length
  have hread : Scan.Reads (Scan.kernel (depth + 1)) _ (name, draft) Always :=
    Scan.reads_kernel (Scan.reads_block
      (Scan.reads_body (Draft.lawful_iff_lawfulIn.1 hlaw) howned (Nat.le_add_right _ _)))
  obtain ⟨rest, hrest, hleaves⟩ := hread ps hkernel [.layout run] hneat trivial text (.inl rfl)
  have hbound : Scan.kernel (text.length + 1) text = Scan.kernel (depth + 1) text :=
    Scan.kernel_eq_of_length_lt (Nat.lt_succ_self _) (Nat.lt_succ_of_le (Nat.le_add_left _ _))
  have hend : Scan.dropLayout false rest = [] :=
    hleaves.dropLayout_eq.trans (lead_layout hneat.right)
  rw [readKernel, hbound.trans hrest]
  dsimp only
  rw [hend]

end KernelIR
