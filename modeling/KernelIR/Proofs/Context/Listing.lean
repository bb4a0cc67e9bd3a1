import KernelIR.Proofs.Context.Uses

/-!
# Listings and owners

Where a statement is listed can be asked of the statement, of the blocks and of
`Context.place?`; who owns a block can be asked of the block and of the statements. The
answers agree in every context that operations lead to (`Context.Placed`), so a statement
stands at one place of one block at most and a block is owned at one position at most.

Operations list a statement or take it out at one place, `Context.Inserts` : everything
that stood before and behind it still does, and no other block lists anything else
(`placed_of_reachable`).
-/

namespace KernelIR

namespace Context

variable {c c' : Context} {b : BlockId} {s : StmtId}

/-- Statements, blocks and positions agree on where statements are listed and who owns
blocks. -/
structure Placed (c : Context) : Prop where
  home : ∀ s b, c.home? s = some b ↔ s ∈ c.listed b
  once : ∀ (s : StmtId) (b d : BlockId) (i j : Nat), (c.listed b)[i]? = some s →
    (c.listed d)[j]? = some s → b = d ∧ i = j
  place : ∀ (s : StmtId) (b : BlockId) (i : Nat),
    c.place? s = some (b, i) ↔ c.home? s = some b ∧ (c.listed b)[i]? = some s
  attached : ∀ s, (c.place? s).isSome = (c.home? s).isSome
  owner : ∀ b s, c.owner? b = some s ↔ ∃ stmt, c.stmt? s = some stmt ∧ b ∈ stmt.kind.blocks
  ownedOnce : ∀ (b : BlockId) s t stmt stmt' (i j : Nat), c.stmt? s = some stmt →
    c.stmt? t = some stmt' → stmt.kind.blocks[i]? = some b → stmt'.kind.blocks[j]? = some b →
    s = t ∧ i = j

/-- `c'` lists in `b` what `c` lists there and `s` between `front` and `back`, and in every
other block what `c` lists there. -/
structure Inserts (c c' : Context) (b : BlockId) (front : List StmtId) (s : StmtId)
    (back : List StmtId) : Prop where
  before : c.listed b = front ++ back
  after : c'.listed b = front ++ s :: back
  others : ∀ d, d ≠ b → c'.listed d = c.listed d

/-! ## Positions -/

/-- A list without repetitions has its elements at one position each. -/
theorem index_unique {α : Type} {l : List α} {a : α} {i j : Nat} (h : l.Nodup)
    (hi : l[i]? = some a) (hj : l[j]? = some a) : i = j := by
  obtain ⟨hlt, -⟩ := List.getElem?_eq_some_iff.1 hi
  exact (List.getElem?_inj hlt h).1 (hi.trans hj.symm)

theorem insertIdx_eq_take_drop {α : Type} {l : List α} {i : Nat} (h : i ≤ l.length) (a : α) :
    l.insertIdx i a = l.take i ++ a :: l.drop i := by
  obtain ⟨front, back, rfl, rfl, hins⟩ := List.exists_of_modifyTailIdx (List.cons a) h
  rw [List.take_left, List.drop_left]
  exact hins

namespace Intact

variable (h : c.Intact)
include h

/-- A statement is in a block just if the block lists it. -/
theorem home?_eq_some_iff : c.home? s = some b ↔ s ∈ c.listed b :=
  ⟨h.listed, h.home⟩

/-- A block has an owner just if a statement has it as one of its blocks. -/
theorem owner?_eq_some_iff :
    c.owner? b = some s ↔ ∃ stmt, c.stmt? s = some stmt ∧ b ∈ stmt.kind.blocks :=
  ⟨h.owned, fun ⟨_, hs, hb⟩ => h.owner hs hb⟩

/-- A statement is listed by one block only, and once. -/
theorem listed_once {d : BlockId} {i j : Nat} (hi : (c.listed b)[i]? = some s)
    (hj : (c.listed d)[j]? = some s) : b = d ∧ i = j := by
  have hb := h.home (List.mem_of_getElem? hi)
  have hd := h.home (List.mem_of_getElem? hj)
  obtain rfl : b = d := Option.some.inj (hb.symm.trans hd)
  exact ⟨rfl, index_unique (h.nodup b) hi hj⟩

/-- A block is a block of one statement only, and once. -/
theorem owned_once {t : StmtId} {stmt stmt' : Stmt} {i j : Nat} (hs : c.stmt? s = some stmt)
    (ht : c.stmt? t = some stmt') (hi : stmt.kind.blocks[i]? = some b)
    (hj : stmt'.kind.blocks[j]? = some b) : s = t ∧ i = j := by
  have hbs := h.owner hs (List.mem_of_getElem? hi)
  have hbt := h.owner ht (List.mem_of_getElem? hj)
  obtain rfl : s = t := Option.some.inj (hbs.symm.trans hbt)
  obtain rfl : stmt = stmt' := Option.some.inj (hs.symm.trans ht)
  exact ⟨rfl, index_unique (h.distinct hs) hi hj⟩

/-- A statement that is listed has a place. -/
theorem place?_of_listed (hs : s ∈ c.listed b) : ∃ i, c.place? s = some (b, i) := by
  cases hi : (c.listed b).idxOf? s with
  | none => exact absurd hs (List.idxOf?_eq_none_iff.1 hi)
  | some i => exact ⟨i, by simp [place?, h.home hs, hi]⟩

/-- The place of a statement is where its block lists it. -/
theorem place?_eq_some_iff {i : Nat} :
    c.place? s = some (b, i) ↔ c.home? s = some b ∧ (c.listed b)[i]? = some s := by
  refine ⟨place?_eq_some, fun ⟨hb, hi⟩ => ?_⟩
  obtain ⟨j, hj⟩ := h.place?_of_listed (h.listed hb)
  obtain rfl := index_unique (h.nodup b) hi (place?_eq_some hj).2
  exact hj

/-- A statement has a place just if it is in a block. -/
theorem isSome_place? (s : StmtId) : (c.place? s).isSome = (c.home? s).isSome := by
  cases hb : c.home? s with
  | none => simp [place?, hb]
  | some b =>
    obtain ⟨i, hi⟩ := List.getElem?_of_mem (h.listed hb)
    simp [h.place?_eq_some_iff.2 ⟨hb, hi⟩]

/-- In an intact context, all is placed as `Placed` says. -/
theorem placed : c.Placed where
  home _ _ := h.home?_eq_some_iff
  once _ _ _ _ _ := h.listed_once
  place _ _ _ := h.place?_eq_some_iff
  attached := h.isSome_place?
  owner _ _ := h.owner?_eq_some_iff
  ownedOnce _ _ _ _ _ _ _ := h.owned_once

end Intact

/-! ## Listing and taking out -/

/-- Listing a statement puts it between the ones in front of its position and those behind. -/
theorem inserts_list (hb : (c.block? b).isSome) {i : Nat} (hi : i ≤ (c.listed b).length) :
    Inserts c (c.list b i s) b ((c.listed b).take i) s ((c.listed b).drop i) where
  before := (List.take_append_drop i _).symm
  after := by rw [listed_list c b b i s hb, if_pos rfl, insertIdx_eq_take_drop hi]
  others d hd := by rw [listed_list c b d i s hb, if_neg (Ne.symm hd)]

/-- Taking it out again is the way back. -/
theorem inserts_unlist {i : Nat} (hi : (c.listed b)[i]? = some s) :
    Inserts (c.unlist b i s) c b ((c.listed b).take i) s ((c.listed b).drop (i + 1)) where
  before := by rw [listed_unlist, if_pos rfl, List.eraseIdx_eq_take_drop_succ]
  after := by
    obtain ⟨hlt, rfl⟩ := List.getElem?_eq_some_iff.1 hi
    rw [List.getElem_cons_drop, List.take_append_drop]
  others d hd := by rw [listed_unlist, if_neg (Ne.symm hd)]

/-- A push puts a statement behind all others of the block. -/
theorem inserts_push (h : push b s c = .ok ((), c')) : Inserts c c' b (c.listed b) s [] := by
  obtain ⟨stmt, block, -, -, hb, rfl⟩ := push_eq_ok h
  have hlen : block.stmts.length = (c.listed b).length := by rw [listed_of_block? hb]
  simpa [hlen] using inserts_list (s := s) (by simp [hb]) (Nat.le_of_eq hlen)

/-- An insertion puts it right behind its anchor. -/
theorem inserts_insertAfter {anchor : StmtId} (h : insertAfter anchor s c = .ok ((), c')) :
    ∃ b front back, c.home? anchor = some b ∧ Inserts c c' b (front ++ [anchor]) s back := by
  obtain ⟨stmt, b, i, -, -, hp, rfl⟩ := insertAfter_eq_ok h
  obtain ⟨hhome, hi⟩ := place?_eq_some hp
  obtain ⟨hlt, hget⟩ := List.getElem?_eq_some_iff.1 hi
  have htake : (c.listed b).take (i + 1) = (c.listed b).take i ++ [anchor] := by
    rw [List.take_succ_eq_append_getElem hlt, hget]
  refine ⟨b, _, _, hhome, htake ▸ inserts_list ?_ hlt⟩
  exact isSome_block?_of_mem_listed (List.mem_of_getElem? hi)

theorem inserts_eraseAt {i : Nat} (h : eraseAt b i c = .ok ((), c')) :
    ∃ s front back, front.length = i ∧ Inserts c' c b front s back := by
  obtain ⟨s, hi, -, rfl⟩ := eraseAt_eq_ok h
  have hlt := (List.getElem?_eq_some_iff.1 hi).1
  exact ⟨s, _, _, List.length_take_of_le (Nat.le_of_lt hlt), inserts_unlist hi⟩

/-- Erasing a statement takes it out of its block, from where it was. -/
theorem inserts_erase (h : erase s c = .ok ((), c')) :
    ∃ b front back, c.home? s = some b ∧ Inserts c' c b front s back := by
  obtain ⟨b, i, hp, -, rfl⟩ := erase_eq_ok h
  obtain ⟨hhome, hi⟩ := place?_eq_some hp
  exact ⟨b, _, _, hhome, inserts_unlist hi⟩

/-- In every context that operations lead to, a statement names a block as its own just if the
block lists it, at one position, which `place?` finds, and a block names a statement as its
owner just if the statement has it among its blocks, at one position. A statement is pushed at
the end of a block and inserted right behind its anchor, and an erased one is taken out where it
stands; the rest of the block keeps its order and the other blocks list what they did. -/
theorem placed_of_reachable (h : c.Reachable) :
    c.Placed ∧
    (∀ b s c', push b s c = .ok ((), c') → Inserts c c' b (c.listed b) s []) ∧
    (∀ anchor s c', insertAfter anchor s c = .ok ((), c') → ∃ b front back,
      c.home? anchor = some b ∧ Inserts c c' b (front ++ [anchor]) s back) ∧
    (∀ s c', erase s c = .ok ((), c') → ∃ b front back,
      c.home? s = some b ∧ Inserts c' c b front s back) ∧
    ∀ b i c', eraseAt b i c = .ok ((), c') → ∃ s front back,
      front.length = i ∧ Inserts c' c b front s back :=
  ⟨h.intact.placed, fun _ _ _ => inserts_push, fun _ _ _ => inserts_insertAfter,
    fun _ _ => inserts_erase, fun _ _ _ => inserts_eraseAt⟩

/-- A branch whose block lists nothing, and a statement that no block lists yet. -/
def branching : Context where
  stmts := #[⟨.arg 0, some ⟨.u1, 1⟩, some ⟨0⟩⟩,
    ⟨.branch ⟨0⟩ none none none (some ⟨1⟩), none, some ⟨0⟩⟩, ⟨.arg 1, some ⟨.i32, 1⟩, none⟩]
  blocks := #[⟨[⟨0⟩, ⟨1⟩], none⟩, ⟨[], some ⟨1⟩⟩]
  uses := [⟨⟨0⟩, ⟨1⟩, 0⟩]

theorem history_branching : branching.History [] := by
  have h₁ := History.empty.createBlock (show createBlock .empty = .ok (⟨0⟩, _) from rfl)
  have h₂ := h₁.createBlock (show createBlock _ = .ok (⟨1⟩, _) from rfl)
  have h₃ := h₂.createStmt (show createStmt (.arg 0) (some ⟨.u1, 1⟩) _ = .ok (⟨0⟩, _) from rfl)
  have h₄ := h₃.push (show push ⟨0⟩ ⟨0⟩ _ = .ok ((), _) from rfl)
  have h₅ := h₄.createStmt
    (show createStmt (.branch ⟨0⟩ none none none (some ⟨1⟩)) none _ = .ok (⟨1⟩, _) from rfl)
  have h₆ := h₅.push (show push ⟨0⟩ ⟨1⟩ _ = .ok ((), _) from rfl)
  exact h₆.createStmt
    (show createStmt (.arg 1) (some ⟨.i32, 1⟩) _ = .ok (⟨2⟩, branching) from rfl)

/-- The branch stands at position 1 and nowhere else, the value can be inserted between its
condition and the branch, and only the branch owns the block. -/
theorem placed_branching : branching.Reachable ∧
    branching.place? ⟨1⟩ = some (⟨0⟩, 1) ∧
    (∀ b i, (branching.listed b)[i]? = some ⟨1⟩ → b = ⟨0⟩ ∧ i = 1) ∧
    (∀ s, branching.owner? ⟨1⟩ = some s → ∃ stmt, branching.stmt? s = some stmt ∧
      ⟨1⟩ ∈ stmt.kind.blocks) ∧
    ∃ c' front back, insertAfter ⟨0⟩ ⟨2⟩ branching = .ok ((), c') ∧
      Inserts branching c' ⟨0⟩ (front ++ [⟨0⟩]) ⟨2⟩ back := by
  have h := history_branching.reachable
  obtain ⟨hplaced, -, hinsert, -, -⟩ := placed_of_reachable h
  obtain ⟨b, front, back, hb, hins⟩ := hinsert ⟨0⟩ ⟨2⟩ _ rfl
  obtain rfl : (⟨0⟩ : BlockId) = b := Option.some.inj hb
  refine ⟨h, (hplaced.place _ _ _).2 ⟨rfl, rfl⟩, fun b i hi => ?_,
    fun s hs => (hplaced.owner _ _).1 hs, _, front, back, rfl, hins⟩
  exact hplaced.once ⟨1⟩ b ⟨0⟩ i 1 hi rfl

end Context

end KernelIR
