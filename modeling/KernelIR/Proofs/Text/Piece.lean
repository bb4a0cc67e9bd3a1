import Mathlib.Data.List.Forall2
import KernelIR.Proofs.Text.Scan
import KernelIR.Text.Draft

/-!
# Texts in pieces

The text of a kernel consists of names, signs and literals, with runs of layout at the places where
the grammar skips layout. A run may be empty. How the pieces of a text meet decides whether reading
finds them again : nothing may go on where a name ends, and a run has to be skipped (`Neat`).
Reading cuts a text where its runs are all the layout that there is (`IsCut`).

If runs of a text that is cut like this are replaced by layout that is not empty, the pieces still
meet (`IsCut.neat`) : blanks and slashes end every name, and a comment ends with its line.
-/

namespace KernelIR

open Scan (Ends Solid dropLayout isBlank isNameChar)

namespace Scan

instance (test : Char → Bool) (text : List Char) : Decidable (Ends test text) :=
  decidable_of_iff (text.head?.all fun c => !test c) <| by
    simp [Ends, Option.all_eq_true]

instance (name : List Char) : Decidable (IsName name) :=
  decidable_of_iff (name ≠ [] ∧ name.all isNameChar = true) <| by
    simp [IsName]

instance (text : List Char) : Decidable (Solid text) :=
  decidable_of_iff (text.head?.any fun c => !isBlank c && c != '/') <| by
    cases text <;> simp [Solid]

end Scan

/-! ## Layout -/

/-- Whitespace, and comments that end with a line. -/
inductive IsLayout : List Char → Prop where
  | nil : IsLayout []
  | blank {c : Char} {run : List Char} (hc : isBlank c = true) (h : IsLayout run) :
    IsLayout (c :: run)
  | comment {line run : List Char} (hline : '\n' ∉ line) (h : IsLayout run) :
      IsLayout ('/' :: '/' :: (line ++ '\n' :: run))

namespace Scan

variable {run rest : List Char}

theorem dropLayout_blank_cons {c : Char} (hc : isBlank c = true) (rest : List Char) :
    dropLayout false (c :: rest) = dropLayout false rest := by
  rw [dropLayout, if_pos hc]
  rintro _ rfl
  cases hc

/-- A comment ends with its line. -/
theorem dropLayout_line {line : List Char} (h : '\n' ∉ line) (rest : List Char) :
    dropLayout true (line ++ '\n' :: rest) = dropLayout false rest := by
  induction line with
  | nil => rfl
  | cons c line ih =>
    obtain ⟨hc, hline⟩ := not_or.1 (List.mem_cons.not.1 h)
    have hne : (c != '\n') = true := bne_iff_ne.2 (Ne.symm hc)
    rw [List.cons_append, dropLayout, hne]
    exact ih hline

theorem not_isNameChar_of_isBlank {c : Char} (hc : isBlank c = true) : isNameChar c = false := by
  refine Bool.eq_false_iff.2 fun hname => ?_
  rw [(isBlank_of_isNameChar hname).1] at hc
  cases hc

/-- Where a test on the first character that is no layout fails, it fails on the first character. -/
theorem ends_of_dropLayout {test : Char → Bool} (hblank : ∀ c, isBlank c = true → test c = false)
    (hslash : test '/' = false) {text : List Char} (h : Ends test (dropLayout false text)) :
    Ends test text := by
  cases text with
  | nil => exact h
  | cons c text =>
    by_cases hc : isBlank c = true
    · exact ends_cons (hblank c hc) text
    · by_cases hs : c = '/'
      · exact ends_cons (hs ▸ hslash) text
      · rwa [dropLayout_of_solid (solid_cons (Bool.not_eq_true _ ▸ hc) hs text)] at h

end Scan

open Scan

namespace IsLayout

variable {run : List Char}

/-- Layout in front of a text is dropped before the layout of the text itself. -/
theorem dropLayout_append (h : IsLayout run) (rest : List Char) :
    dropLayout false (run ++ rest) = dropLayout false rest := by
  induction h with
  | nil => rfl
  | blank hc _ ih => exact (dropLayout_blank_cons hc _).trans ih
  | @comment line run hline _ ih =>
    have htext : '/' :: '/' :: (line ++ '\n' :: run) ++ rest =
        '/' :: '/' :: (line ++ '\n' :: (run ++ rest)) := by simp
    rw [htext]
    exact (dropLayout_line hline _).trans ih

/-- A comment that ends inside layout leaves layout. -/
theorem dropLayout_eq_nil (h : IsLayout run) (inside : Bool) : dropLayout inside run = [] := by
  induction h generalizing inside with
  | nil => cases inside <;> rfl
  | @blank c run hc _ ih =>
    cases inside with
    | false => exact (dropLayout_blank_cons hc run).trans (ih false)
    | true => exact ih _
  | @comment line run hline _ ih =>
    cases inside with
    | false => exact (dropLayout_line hline run).trans (ih false)
    | true => exact (dropLayout_line hline run).trans (ih false)

theorem append {run' : List Char} (h : IsLayout run) (h' : IsLayout run') :
    IsLayout (run ++ run') := by
  induction h with
  | nil => exact h'
  | blank hc _ ih => exact .blank hc ih
  | @comment line run hline _ ih =>
    have htext : '/' :: '/' :: (line ++ '\n' :: run) ++ run' =
        '/' :: '/' :: (line ++ '\n' :: (run ++ run')) := by simp
    rw [htext]
    exact .comment hline ih

theorem exists_cons (h : IsLayout run) (hne : run ≠ []) :
    ∃ c cs, run = c :: cs ∧ (isBlank c = true ∨ c = '/') := by
  cases h with
  | nil => exact absurd rfl hne
  | blank hc _ => exact ⟨_, _, rfl, .inl hc⟩
  | comment => exact ⟨_, _, rfl, .inr rfl⟩

end IsLayout

/-- What is skipped in front of something is layout, or in a comment the rest of a line and
layout. -/
theorem isLayout_of_dropLayout {inside : Bool} {run rest : List Char}
    (h : dropLayout inside (run ++ rest) = rest) (hne : rest ≠ []) :
    if inside then ∃ line run', '\n' ∉ line ∧ run = line ++ '\n' :: run' ∧ IsLayout run'
      else IsLayout run := by
  have hlonger : ∀ inside (c : Char) text, dropLayout inside text ≠ c :: text := by
    intro inside c text h
    have hle := (dropLayout_suffix inside text).length_le
    rw [h] at hle
    exact absurd hle (Nat.not_succ_le_self _)
  generalize htext : run ++ rest = text at h
  fun_induction dropLayout inside text generalizing run with
  | case1 => exact absurd h.symm hne
  | case2 c text ih =>
    cases run with
    | nil => exact absurd (h.trans htext) (hlonger _ c text)
    | cons d run =>
      obtain ⟨rfl, htail⟩ := List.cons.inj htext
      have hrun := ih htail h
      by_cases hd : d = '\n'
      · subst hd
        exact ⟨[], run, by simp, rfl, hrun⟩
      · rw [if_pos (bne_iff_ne.2 hd)] at hrun
        obtain ⟨line, run', hline, rfl, hlayout⟩ := hrun
        exact ⟨d :: line, run', by simp [hline, Ne.symm hd], rfl, hlayout⟩
  | case3 text ih =>
    cases run with
    | nil => exact .nil
    | cons d run =>
      obtain ⟨rfl, htail⟩ := List.cons.inj htext
      cases run with
      | nil => exact absurd (h.trans htail) (hlonger _ _ text)
      | cons d run =>
        obtain ⟨rfl, htail'⟩ := List.cons.inj htail
        obtain ⟨line, run', hline, rfl, hlayout⟩ := ih htail' h
        exact .comment hline hlayout
  | case4 c text hcomment hblank ih =>
    cases run with
    | nil => exact .nil
    | cons d run =>
      obtain ⟨rfl, htail⟩ := List.cons.inj htext
      exact .blank hblank (ih htail h)
  | case5 c text hcomment hblank =>
    obtain rfl : run = [] := List.append_left_eq_self.1 (htext.trans h)
    exact .nil

/-- Layout is what is skipped in front of a point. -/
theorem isLayout_iff {run : List Char} : IsLayout run ↔ dropLayout false (run ++ ['.']) = ['.'] :=
  ⟨fun h => h.dropLayout_append ['.'], fun h => isLayout_of_dropLayout h (List.cons_ne_nil _ _)⟩

instance (run : List Char) : Decidable (IsLayout run) :=
  decidable_of_iff _ isLayout_iff.symm

theorem dropLayout_append_eq_nil {inside : Bool} {run run' : List Char}
    (h : dropLayout inside run = []) (h' : IsLayout run') :
      dropLayout inside (run ++ run') = [] := by
  fun_induction dropLayout inside run with
  | case1 inside => exact h'.dropLayout_eq_nil inside
  | case2 c rest ih => exact ih h
  | case3 rest ih => exact ih h
  | case4 c rest hcomment hblank ih => exact (dropLayout_blank_cons hblank _).trans (ih h)
  | case5 => cases h

/-! ## Pieces -/

/-- A piece of the text of a kernel. -/
inductive Piece where
  /-- What stands where layout is skipped. -/
  | layout (run : List Char)
  /-- A percent sign and the name of a value. -/
  | value (name : ValueName)
  /-- A keyword, the name of a type, or a sign and the name of a kernel or of a structure. -/
  | word (text : List Char)
  | sign (text : String)
  | literal (text : List Char)
deriving DecidableEq

namespace Piece

def text : Piece → List Char
  | layout run => run
  | value name => '%' :: name
  | word text => text
  | sign text => text.toList
  | literal text => text

/-- The piece, whatever its layout is. -/
def shape : Piece → Piece
  | layout _ => layout []
  | p => p

/-- Reading finds the end of the piece in front of what follows : a run is skipped, and the name
ends. -/
def Meets : Piece → List Char → Prop
  | layout run, next => dropLayout false (run ++ next) = dropLayout false next
  | value _, next => Ends isNameChar next
  | word text, next => Solid text ∧ Ends isNameChar next
  | sign text, _ => Solid text.toList
  | literal text, _ => Solid text

/-- The piece is what is read in front of what follows : a run is all the layout that is there. -/
def IsCut (p : Piece) (next : List Char) : Prop :=
  p.Meets next ∧ ∀ run, p = layout run → dropLayout false next = next

instance (p : Piece) (next : List Char) : Decidable (p.Meets next) :=
  match p with
  | layout run =>
    inferInstanceAs (Decidable (dropLayout false (run ++ next) = dropLayout false next))
  | value _ => inferInstanceAs (Decidable (Ends isNameChar next))
  | word text => inferInstanceAs (Decidable (Solid text ∧ Ends isNameChar next))
  | sign text => inferInstanceAs (Decidable (Solid text.toList))
  | literal text => inferInstanceAs (Decidable (Solid text))

/-- A piece is cut off where it may end and, for empty layout, where no layout follows. -/
theorem isCut_iff {p : Piece} {next : List Char} : p.IsCut next ↔
    p.Meets next ∧ (p.shape = layout [] → dropLayout false next = next) := by
  cases p <;> simp [IsCut, shape]

instance (p : Piece) (next : List Char) : Decidable (p.IsCut next) :=
  decidable_of_iff _ isCut_iff.symm

/-- The second piece is the first, or both are layout and the second is not empty. -/
inductive Relaid : Piece → Piece → Prop where
  | same (p : Piece) : Relaid p p
  | layout (run : List Char) {run' : List Char} (hne : run' ≠ []) (h : IsLayout run') :
      Relaid (layout run) (layout run')

theorem Relaid.shape_eq {p p' : Piece} (h : p.Relaid p') : p'.shape = p.shape := by
  cases h <;> rfl

theorem Meets.solid {p : Piece} {next : List Char} (h : p.Meets next) (hp : ∀ run, p ≠ layout run) :
    Solid (p.text ++ next) := by
  have happend : ∀ {cs : List Char}, Solid cs → Solid (cs ++ next) := by
    rintro _ ⟨c, cs, rfl, hc⟩
    exact ⟨c, cs ++ next, rfl, hc⟩
  cases p with
  | layout run => exact absurd rfl (hp run)
  | value name => exact solid_cons rfl (by decide) _
  | word text => exact happend h.1
  | sign text => exact happend h
  | literal text => exact happend h

end Piece

/-- The text of pieces in order. -/
def flatten (ps : List Piece) : List Char :=
  ps.flatMap Piece.text

@[simp] theorem flatten_nil : flatten [] = [] :=
  rfl

@[simp] theorem flatten_cons (p : Piece) (ps : List Piece) :
    flatten (p :: ps) = p.text ++ flatten ps :=
  rfl

@[simp] theorem flatten_append (ps qs : List Piece) :
    flatten (ps ++ qs) = flatten ps ++ flatten qs :=
  List.flatMap_append

/-- Every piece is as `P` says in front of what follows it, up to the given rest. -/
def Joined (P : Piece → List Char → Prop) : List Piece → List Char → Prop
  | [], _ => True
  | p :: ps, rest => P p (flatten ps ++ rest) ∧ Joined P ps rest

/-- Two lists of pieces are joined where each is, the first in front of the text of the second. -/
theorem joined_append {P : Piece → List Char → Prop} {ps qs : List Piece} {rest : List Char} :
    Joined P (ps ++ qs) rest ↔ Joined P ps (flatten qs ++ rest) ∧ Joined P qs rest := by
  induction ps with
  | nil => simp [Joined]
  | cons p ps ih =>
    simp only [List.cons_append, Joined, ih, flatten_append, List.append_assoc, and_assoc]

instance decidableJoined {P : Piece → List Char → Prop} [∀ p next, Decidable (P p next)] :
    ∀ ps rest, Decidable (Joined P ps rest)
  | [], _ => .isTrue trivial
  | p :: ps, rest =>
    have := decidableJoined (P := P) ps rest
    inferInstanceAs (Decidable (P p (flatten ps ++ rest) ∧ Joined P ps rest))

/-- All pieces of a text meet. -/
def Neat (ps : List Piece) : Prop :=
  Joined Piece.Meets ps []

/-- A text is cut where reading cuts it. -/
def IsCut (ps : List Piece) : Prop :=
  Joined Piece.IsCut ps []

instance (ps : List Piece) : Decidable (IsCut ps) :=
  inferInstanceAs (Decidable (Joined Piece.IsCut ps []))

/-- Some runs of layout are replaced by others, which are not empty. -/
def Relaid : List Piece → List Piece → Prop :=
  List.Forall₂ Piece.Relaid

section Relaid

variable {ps ps' : List Piece}

theorem Relaid.map_shape (h : Relaid ps ps') : ps'.map Piece.shape = ps.map Piece.shape := by
  induction h with
  | nil => rfl
  | cons hp _ ih => rw [List.map_cons, List.map_cons, hp.shape_eq, ih]

/-- What does not go on does not go on either where layout is replaced. -/
theorem IsCut.ends {test : Char → Bool} (hblank : ∀ c, isBlank c = true → test c = false)
    (hslash : test '/' = false) (hcut : IsCut ps) (h : Relaid ps ps')
    (hends : Ends test (flatten ps)) :
    Ends test (flatten ps') := by
  induction h with
  | nil => exact hends
  | @cons p p' ps ps' hp _ ih =>
    obtain ⟨⟨hmeets, -⟩, hcut⟩ := hcut
    have hlayout : ∀ {run}, Ends test (run ++ flatten ps) → Ends test (run ++ flatten ps') := by
      intro run hends
      cases run with
      | nil => exact ih hcut hends
      | cons c run => exact hends
    cases hp with
    | layout run hne hrun =>
      obtain ⟨c, cs, rfl, hc⟩ := hrun.exists_cons hne
      exact ends_cons (hc.elim (hblank c) fun h => h ▸ hslash) _
    | same => exact hlayout hends

/-- Pieces of an empty text may only be laid out anew as layout. -/
theorem isLayout_of_flatten_eq_nil (hcut : IsCut ps) (h : Relaid ps ps') (hnil : flatten ps = []) :
    IsLayout (flatten ps') := by
  induction h with
  | nil => exact .nil
  | @cons p p' ps ps' hp _ ih =>
    obtain ⟨⟨hmeets, -⟩, hcut⟩ := hcut
    obtain ⟨hp_nil, hps⟩ := List.append_eq_nil_iff.1 hnil
    have htail := ih hcut hps
    cases hp with
    | layout run hne hrun => exact hrun.append htail
    | same =>
      rw [flatten_cons, hp_nil]
      exact htail

/-- The pieces of a text still meet where layout is replaced by layout that is not empty. -/
theorem IsCut.neat (hcut : IsCut ps) (h : Relaid ps ps') : Neat ps' := by
  induction h with
  | nil => trivial
  | @cons p p' ps ps' hp hps ih =>
    obtain ⟨⟨hmeets, hall⟩, hcut⟩ := hcut
    refine ⟨?_, ih hcut⟩
    rw [List.append_nil] at hmeets hall ⊢
    have hname : Ends isNameChar (flatten ps) → Ends isNameChar (flatten ps') :=
      IsCut.ends (fun _ => not_isNameChar_of_isBlank) rfl hcut hps
    cases hp with
    | layout run hne hrun => exact hrun.dropLayout_append _
    | same =>
      cases p with
      | value name => exact hname hmeets
      | word text => exact ⟨hmeets.1, hname hmeets.2⟩
      | sign text => exact hmeets
      | literal text => exact hmeets
      | layout run =>
        have hrun : dropLayout false (run ++ flatten ps) = flatten ps := hmeets.trans (hall run rfl)
        by_cases hnil : flatten ps = []
        · -- the last run may be a comment that does not end
          have hlayout := isLayout_of_flatten_eq_nil hcut hps hnil
          rw [hnil, List.append_nil] at hrun
          exact (dropLayout_append_eq_nil hrun hlayout).trans (hlayout.dropLayout_eq_nil false).symm
        · exact IsLayout.dropLayout_append (isLayout_of_dropLayout hrun hnil) _

end Relaid

end KernelIR
