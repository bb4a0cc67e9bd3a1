import KernelIR.Proofs.Text.Spelled

/-!
# Layout does not matter

A kernel that is parsed from a text is parsed, with the same numbers, from every text that has other
layout where the grammar skips layout (`parseKernel_relaid`). Reading cuts the text into a spelling
of what it reads, and the gaps of the spelling are the places where layout is skipped
(`exists_of_readKernel`). The spellings have these gaps and no others : were one missing, a text
with layout there would not be spelled, and were there one too many, layout there would not be read.

The new text consists of pieces of the same spelling, and they meet since layout that is not empty
ends every name (`IsCut.neat`), so the grammar reads it as the same draft (`readKernel_of_neat`).
-/

namespace KernelIR

/-- What is parsed into a kernel is a lawful draft. -/
theorem lawful_of_parseKernel {text : List Char} {c c' : Context} {kernel : Kernel}
    (h : parseKernel text c = .ok (.ok kernel, c')) :
    ∃ name draft, readKernel text = .ok (name, draft) ∧ draft.Owned ∧ draft.Lawful := by
  cases hread : readKernel text with
  | error e =>
    rw [parseKernel, hread] at h
    cases h
  | ok p =>
    obtain ⟨name, draft⟩ := p
    have howned := owned_of_readKernel hread
    refine ⟨name, draft, rfl, howned, ?_⟩
    rw [← Draft.exists_build_iff_lawful howned]
    obtain ⟨result, c'', hparse, herror, -⟩ := parseKernel_of_readKernel hread c
    obtain ⟨rfl, rfl⟩ := Prod.mk.inj (Except.ok.inj (hparse.symm.trans h))
    cases hbuild : draft.build [] ⟨c.blocks.size⟩ c.stmts.size (c.blocks.size + 1) with
    | error e => cases herror e hbuild
    | ok v => exact ⟨v, rfl⟩

/-- A text that is parsed is cut into a spelling of what the grammar reads, with a run of layout in
each gap, all of the layout that is skipped there. Whichever runs are replaced by layout that is not
empty, the same kernel is parsed, and the context is the same. -/
theorem parseKernel_relaid {text : List Char} {c c' : Context} {kernel : Kernel}
    (h : parseKernel text c = .ok (.ok kernel, c')) :
    ∃ name draft, readKernel text = .ok (name, draft) ∧
      (∃ ps, flatten ps = text ∧ IsCut ps ∧ ps.map Piece.shape ∈ Spelling.kernel name draft) ∧
      ∀ ps, flatten ps = text → IsCut ps → ps.map Piece.shape ∈ Spelling.kernel name draft →
        ∀ ps', Relaid ps ps' → parseKernel (flatten ps') c = .ok (.ok kernel, c') := by
  obtain ⟨name, draft, hread, howned, hlaw⟩ := lawful_of_parseKernel h
  refine ⟨name, draft, hread, exists_of_readKernel hread, ?_⟩
  rintro ps - hcut hps ps' hrelaid
  have hshape : ps'.map Piece.shape ∈ Spelling.kernel name draft := hrelaid.map_shape ▸ hps
  have hread' := readKernel_of_neat hlaw howned hshape (hcut.neat hrelaid)
  rwa [parseKernel, hread', ← hread, ← parseKernel]

namespace CrampedKernel

open Spelling Language

/-- A kernel with hardly any layout. -/
def text : List Char :=
  "kernel @k\x7b%c=arg 0:i32 if %c\x7b\x7delse\x7b\x7d\x7d".toList

/-- The same kernel with comments. -/
def airy : List Char :=
  "// one\nkernel @k \x7b\n%c = arg 0 // the first\n : i32\n\nif %c \x7b // nothing\n\x7d // or\nelse
    \x7b\x7d\n\x7d\n".toList

/-- What the grammar reads. -/
def draft : Draft :=
  .cons ⟨some ['c'], "arg".toList, .arg 0, some "i32".toList⟩ .nil .nil <|
  .cons ⟨none, "if".toList, .branch ['c'] none none true, none⟩ .nil .nil .nil

/-- The spelling, with these runs in its gaps. -/
def pieces (runs : List String) : List Piece :=
  let gap i := .layout ((runs.getD i "").toList)
  [gap 0, .sign "kernel", gap 1, .word "@k".toList, gap 2, .sign "\x7b",
    gap 3, .value ['c'], gap 4, .sign "=", gap 5, .word "arg".toList, gap 6, .literal ['0'],
    gap 7, .sign ":", gap 8, .word "i32".toList,
    gap 9, .word "if".toList, gap 10, .value ['c'], gap 11, .sign "\x7b", gap 12, .sign "\x7d",
    gap 13, .sign "else", gap 14, .sign "\x7b", gap 15, .sign "\x7d",
    gap 16, .sign "\x7d", gap 17]

def cramped : List Piece :=
  pieces ["", " ", "", "", "", "", " ", "", "", " ", " "]

def spread : List Piece :=
  pieces ["// one\n", " ", " ", "\n", " ", " ", " ", " // the first\n ", " ", "\n\n", " ", " ",
    " // nothing\n", " // or\n", "\n    ", "", "\n", "\n"]

/-- The pieces spell what is read. -/
theorem map_shape_mem : cramped.map Piece.shape ∈ Spelling.kernel ['k'] draft := by
  have hgap : [Piece.layout []] ∈ gap := rfl
  have hsign : ∀ w, [Piece.sign w] ∈ sign w := fun _ => rfl
  have hvalue : [Piece.value ['c']] ∈ value ['c'] := ⟨by decide, rfl⟩
  have hname : [Piece.word "@k".toList] ∈ symbol ['k'] := ⟨by decide, rfl⟩
  have hword : ∀ {w : List Char}, Scan.IsWord w → [Piece.word w] ∈ ident w := fun h => ⟨h, rfl⟩
  have hindex : [Piece.literal ['0']] ∈ literal Scan.index 0 := ⟨['0'], fun _ _ => rfl, rfl⟩
  have hempty : _ ∈ braces gap := append_mem_mul (append_mem_mul (hsign "\x7b") hgap) (hsign "\x7d")
  have hresult : _ ∈ result ['c'] :=
    append_mem_mul (append_mem_mul (append_mem_mul hvalue hgap) (hsign "=")) hgap
  have htype : _ ∈ annotation "i32".toList :=
    append_mem_mul (append_mem_mul (append_mem_mul hgap (hsign ":")) hgap) (hword (by decide))
  have helse : _ ∈ otherwise (braces gap) :=
    append_mem_mul (append_mem_mul (append_mem_mul hgap (hsign "else")) hgap) hempty
  have hdetail : _ ∈ (Form.branch ['c'] none none true).spelling (braces gap) (braces gap) :=
    append_mem_mul (append_mem_mul (append_mem_mul (append_mem_mul (append_mem_mul hvalue
      Language.nil_mem_one) Language.nil_mem_one) hgap) hempty) helse
  have hsuits : ∀ {form : Form} {w : String}, form.keyword? = some w →
      [] ∈ given (form.Suits w.toList) := fun h => ⟨fun w' h' => by
        rw [Option.some.inj (h.symm.trans h')], rfl⟩
  have harg : _ ∈ (Head.mk (some ['c']) "arg".toList (.arg 0) (some "i32".toList)).spelling
      (braces gap) (braces gap) :=
    append_mem_mul (hsuits rfl) (append_mem_mul (append_mem_mul (append_mem_mul (append_mem_mul
      hresult (hword (by decide))) hgap) hindex) htype)
  have hif : _ ∈ (Head.mk none "if".toList (.branch ['c'] none none true) none).spelling
      (braces gap) (braces gap) :=
    append_mem_mul (hsuits rfl) (append_mem_mul (append_mem_mul (append_mem_mul (append_mem_mul
      Language.nil_mem_one (hword (by decide))) hgap) hdetail) Language.nil_mem_one)
  have hbody : _ ∈ draft.spelling :=
    append_mem_mul (append_mem_mul hgap harg) (append_mem_mul (append_mem_mul hgap hif) hgap)
  have hblock : _ ∈ braces draft.spelling :=
    append_mem_mul (append_mem_mul (hsign "\x7b") hbody) (hsign "\x7d")
  exact append_mem_mul
    (append_mem_mul (append_mem_mul (append_mem_mul (append_mem_mul (append_mem_mul
    hgap (hsign "kernel")) hgap) hname) hgap) hblock) hgap

end CrampedKernel

open CrampedKernel in
/-- The text with comments is parsed like the one without. -/
theorem parseKernel_relaid_cramped : flatten cramped = text ∧ flatten spread = airy ∧
    ∃ c', parseKernel text .empty = .ok (.ok ⟨"k", ⟨0⟩⟩, c') ∧
      parseKernel airy .empty = .ok (.ok ⟨"k", ⟨0⟩⟩, c') := by
  have hread : readKernel text = .ok (['k'], draft) := by decide +kernel
  have hcramped : flatten cramped = text := by decide +kernel
  have hspread : flatten spread = airy := by decide +kernel
  have hcut : IsCut cramped := by decide +kernel
  have hrelaid : Relaid cramped spread := by
    repeat first
      | exact .nil
      | refine .cons (.same _) ?_
      | refine .cons (.layout _ (by decide) (by decide)) ?_
  have hparsed : (parseKernel text .empty).map Prod.fst = .ok (.ok ⟨"k", ⟨0⟩⟩) := by decide +kernel
  cases hparse : parseKernel text .empty with
  | error e =>
    rw [hparse] at hparsed
    cases hparsed
  | ok p =>
    obtain ⟨result, c'⟩ := p
    rw [hparse] at hparsed
    obtain rfl : result = .ok ⟨"k", ⟨0⟩⟩ := Except.ok.inj hparsed
    obtain ⟨name, d, hread', -, hall⟩ := parseKernel_relaid hparse
    obtain ⟨rfl, rfl⟩ := Prod.mk.inj (Except.ok.inj (hread.symm.trans hread'))
    exact ⟨hcramped, hspread, c', rfl,
      hspread ▸ hall cramped hcramped hcut map_shape_mem spread hrelaid⟩

end KernelIR
