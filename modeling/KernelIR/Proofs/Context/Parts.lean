import KernelIR.Proofs.Tree.Placement

/-!
# Parts of a context

Kernels stand side by side in a context, and each is a part of it : some of the statements and some
of the blocks (`Part`). A part is separate (`Context.Separate`) if its blocks list its statements,
and its values are used by its statements only, which use no others.

An operation on a separate part leaves it separate and leaves what is not in it (`Context.Spares`) :
the other statements and blocks, and the uses of other values. This is said of all operations in
the same way (`Context.Confined`), so it holds of any number of them.
-/

namespace KernelIR

/-- Some statements and some blocks. -/
structure Part where
  stmt : StmtId → Prop
  block : BlockId → Prop

namespace Context

variable {P : Part} {c c' c'' : Context}

/-- Values are used on their own side, and statements of the part are listed in its blocks. -/
structure Separate (P : Part) (c : Context) : Prop where
  used : ∀ u ∈ c.uses, P.stmt u.value ↔ P.stmt u.user
  home : ∀ {s b}, P.stmt s → c.home? s = some b → P.block b

/-- What is not in the part is the same, and so are the recorded uses of its values. -/
structure Spares (P : Part) (c c' : Context) : Prop where
  stmt? : ∀ {s}, ¬P.stmt s → c'.stmt? s = c.stmt? s
  block? : ∀ {b}, ¬P.block b → c'.block? b = c.block? b
  chain : ∀ {s}, ¬P.stmt s → c'.chain s = c.chain s

/-- What leads from one context to the other is confined to the part. -/
def Confined (P : Part) (c c' : Context) : Prop :=
  c.Separate P → c'.Separate P ∧ c.Spares P c'

theorem Spares.refl (P : Part) (c : Context) : c.Spares P c :=
  ⟨fun _ => rfl, fun _ => rfl, fun _ => rfl⟩

/-- Two operations spare a part if each of them does. -/
theorem Spares.trans (h : c.Spares P c') (h' : c'.Spares P c'') : c.Spares P c'' where
  stmt? hs := (h'.stmt? hs).trans (h.stmt? hs)
  block? hb := (h'.block? hb).trans (h.block? hb)
  chain hs := (h'.chain hs).trans (h.chain hs)

/-- Blocks that are spared list what they did. -/
theorem Spares.listed (h : c.Spares P c') {b : BlockId} (hb : ¬P.block b) :
    c'.listed b = c.listed b := by
  rw [Context.listed, h.block? hb, Context.listed]

theorem Confined.refl (P : Part) (c : Context) : c.Confined P c :=
  fun h => ⟨h, .refl P c⟩

/-- Two operations are confined to a part if each of them is. -/
theorem Confined.trans (h : c.Confined P c') (h' : c'.Confined P c'') : c.Confined P c'' := by
  intro hs
  obtain ⟨hs', hspares⟩ := h hs
  obtain ⟨hs'', hspares'⟩ := h' hs'
  exact ⟨hs'', hspares.trans hspares'⟩

/-! ## Operations -/

/-- What a block lists and who owns it is all that there is to a block. -/
theorem block?_congr {b : BlockId} (hsome : (c'.block? b).isSome = (c.block? b).isSome)
    (hlisted : c'.listed b = c.listed b) (howner : c'.owner? b = c.owner? b) :
    c'.block? b = c.block? b := by
  unfold listed at hlisted
  unfold owner? at howner
  cases hb : c.block? b with
  | none => simpa [hb] using hsome
  | some block =>
    cases hb' : c'.block? b with
    | none => simp [hb, hb'] at hsome
    | some block' =>
      obtain ⟨stmts, owner?⟩ := block
      obtain ⟨stmts', owner?'⟩ := block'
      simp_all

/-- A new block in the part spares the rest. -/
theorem spares_createBlock {b : BlockId} (hb : P.block ⟨c.blocks.size⟩)
    (hc : createBlock c = .ok (b, c')) : c.Spares P c' := by
  obtain ⟨rfl, rfl⟩ := createBlock_eq_ok hc
  refine ⟨fun _ => rfl, fun {d} hd => ?_, fun _ => rfl⟩
  obtain ⟨i⟩ := d
  have hne : i ≠ c.blocks.size := by
    rintro rfl
    exact hd hb
  simp [Context.block?, Array.getElem?_push, hne]

theorem confined_createBlock {b : BlockId} (hb : P.block ⟨c.blocks.size⟩)
    (hc : createBlock c = .ok (b, c')) : c.Confined P c' := by
  have hspares := spares_createBlock hb hc
  obtain ⟨rfl, rfl⟩ := createBlock_eq_ok hc
  exact fun h => ⟨⟨h.used, h.home⟩, hspares⟩

/-- So does a new statement in the part, with operands and blocks of the part. -/
theorem spares_createStmt {kind : Kind} {type? : Option ValueType} {s : StmtId}
    (hfresh : P.stmt ⟨c.stmts.size⟩) (hops : ∀ v ∈ kind.operands, P.stmt v)
    (hblocks : ∀ b ∈ kind.blocks, P.block b) (hc : createStmt kind type? c = .ok (s, c')) :
    c.Spares P c' := by
  have hcr := createStmt_eq_ok hc
  have hs : P.stmt s := hcr.id_eq ▸ hfresh
  refine ⟨fun {t} ht => ?_, fun {b} hb => ?_, fun {v} hv => ?_⟩
  · have hne : t ≠ s := by
      rintro rfl
      exact ht hs
    rw [hcr.stmt?, if_neg hne]
  · refine block?_congr ?_ (hcr.listed b) ?_
    · rw [Bool.eq_iff_iff, isSome_block?_iff, isSome_block?_iff, hcr.blocks_size]
    · rw [hcr.owner?, if_neg fun hm => hb (hblocks b hm)]
  · have hnone : (kind.uses s).filter (·.value == v) = [] := by
      refine List.filter_eq_nil_iff.2 fun u hu heq => ?_
      obtain ⟨-, hop⟩ := Kind.mem_uses.1 hu
      exact hv (beq_iff_eq.1 heq ▸ hops _ (List.mem_of_getElem? hop))
    rw [chain, hcr.uses, List.filter_append, hnone, List.append_nil, ← chain]

theorem confined_createStmt {kind : Kind} {type? : Option ValueType} {s : StmtId}
    (hfresh : P.stmt ⟨c.stmts.size⟩) (hops : ∀ v ∈ kind.operands, P.stmt v)
    (hblocks : ∀ b ∈ kind.blocks, P.block b) (hc : createStmt kind type? c = .ok (s, c')) :
    c.Confined P c' := by
  have hcr := createStmt_eq_ok hc
  have hs : P.stmt s := hcr.id_eq ▸ hfresh
  refine fun h => ⟨⟨fun u hu => ?_, fun {t b} ht hb => ?_⟩,
    spares_createStmt hfresh hops hblocks hc⟩
  · rw [hcr.uses] at hu
    rcases List.mem_append.1 hu with hu | hu
    · exact h.used u hu
    · obtain ⟨huser, hop⟩ := Kind.mem_uses.1 hu
      exact iff_of_true (hops _ (List.mem_of_getElem? hop)) (huser ▸ hs)
  · by_cases heq : t = s
    · simp [home?, hcr.stmt?, heq] at hb
    · rw [home?, hcr.stmt?, if_neg heq] at hb
      exact h.home ht hb

/-- So does listing a statement of the part in a block of it. -/
theorem spares_list {s : StmtId} {b : BlockId} (hs : P.stmt s) (hb : P.block b) (i : Nat) :
    c.Spares P (c.list b i s) := by
  refine ⟨fun {t} ht => ?_, fun {d} hd => ?_, fun _ => rfl⟩
  · rw [stmt?_list, if_neg]
    rintro rfl
    exact ht hs
  · rw [list, block?_modifyBlock, if_neg, block?_modifyStmt]
    rintro rfl
    exact hd hb

/-- Listing a statement of the part is confined to it. -/
theorem confined_list {s : StmtId} {b : BlockId} (hs : P.stmt s) (hb : P.block b) (i : Nat) :
    c.Confined P (c.list b i s) := by
  refine fun h => ⟨⟨h.used, fun {t d} ht hd => ?_⟩, spares_list hs hb i⟩
  rw [home?, stmt?_list] at hd
  split at hd
  · rw [Option.bind_map] at hd
    obtain ⟨stmt, -, heq⟩ := Option.bind_eq_some_iff.1 hd
    exact Option.some.inj heq ▸ hb
  · exact h.home ht hd

/-- So is taking one out of its list. -/
theorem confined_unlist {s : StmtId} {b : BlockId} (hs : P.stmt s) (hb : P.block b) (i : Nat) :
    c.Confined P (c.unlist b i s) := by
  refine fun h => ⟨⟨fun u hu => h.used u (List.mem_filter.1 hu).1, fun {t d} ht hd => ?_⟩,
    fun {t} ht => ?_, fun {d} hd => ?_, fun {v} hv => ?_⟩
  · rw [home?, stmt?_unlist] at hd
    split at hd
    · rw [Option.bind_map] at hd
      obtain ⟨stmt, -, heq⟩ := Option.bind_eq_some_iff.1 hd
      cases heq
    · exact h.home ht hd
  · rw [stmt?_unlist, if_neg]
    rintro rfl
    exact ht hs
  · change ((c.modifyStmt s _).modifyBlock b _).block? d = _
    rw [block?_modifyBlock, if_neg, block?_modifyStmt]
    rintro rfl
    exact hd hb
  · -- the uses that are forgotten are of values of the part
    change (c.uses.filter (·.user != s)).filter (·.value == v) = _
    rw [List.filter_filter, chain]
    refine List.filter_congr fun u hu => ?_
    by_cases hvalue : u.value = v
    · have huser : u.user ≠ s := by
        rintro rfl
        exact hv (hvalue ▸ (h.used u hu).2 hs)
      simp [hvalue, huser]
    · simp [hvalue]

/-- So is redirecting the uses of one to another one. -/
theorem confined_redirected {old new : StmtId} (hold : P.stmt old) (hnew : P.stmt new) :
    c.Confined P (c.redirected old new) := by
  refine fun h => ⟨⟨fun u hu => ?_, fun {t d} ht hd => ?_⟩, fun {t} ht => ?_, fun _ => rfl,
    fun {v} hv => ?_⟩
  · rcases List.mem_append.1 hu with hu | hu
    · exact h.used u (List.mem_filter.1 hu).1
    · obtain ⟨w, hw, rfl⟩ := List.mem_map.1 hu
      obtain ⟨hw, hvalue⟩ := List.mem_filter.1 hw
      exact iff_of_true hnew ((h.used w hw).1 (beq_iff_eq.1 hvalue ▸ hold))
  · rw [home?_redirected] at hd
    exact h.home ht hd
  · -- a statement that is not in the part does not use the value
    have hredirect : ∀ i v, c.redirect old new t i v = v := fun i v => if_neg fun hm =>
      ht ((h.used _ (List.mem_filter.1 hm).1).1 hold)
    have hkind : ∀ k : Kind, k.mapOperands (c.redirect old new t) = k := fun k =>
      (Kind.mapOperands_congr fun i v _ => hredirect i v).trans k.rename_id
    rw [stmt?_redirected]
    simp only [hkind, Option.map_id']
  · have hne : ∀ {w : StmtId}, P.stmt w → w ≠ v := by
      rintro w hw rfl
      exact hv hw
    have hmoved : ((c.chain old).map ({ · with value := new })).filter (·.value == v) = [] := by
      simp [hne hnew]
    change (c.uses.filter (·.value != old) ++ _).filter (·.value == v) = _
    rw [List.filter_append, hmoved, List.append_nil, List.filter_filter, chain]
    refine List.filter_congr fun u _ => ?_
    by_cases hvalue : u.value = v
    · simp [hvalue, (hne hold).symm]
    · simp [hvalue]

/-- An operation that is not refused. -/
theorem confined_push {b : BlockId} {s : StmtId} (hs : P.stmt s) (hb : P.block b)
    (hc : push b s c = .ok ((), c')) : c.Confined P c' := by
  obtain ⟨stmt, block, -, -, -, rfl⟩ := push_eq_ok hc
  exact confined_list hs hb _

/-- So is putting a statement behind another one. -/
theorem confined_insertAfter {anchor s : StmtId} (ha : P.stmt anchor) (hs : P.stmt s)
    (hc : insertAfter anchor s c = .ok ((), c')) : c.Confined P c' := by
  obtain ⟨stmt, b, i, -, -, hplace, rfl⟩ := insertAfter_eq_ok hc
  exact fun h => confined_list hs (h.home ha (place?_eq_some hplace).1) _ h

/-- So is erasing a statement. -/
theorem confined_erase {s : StmtId} (hs : P.stmt s) (hc : erase s c = .ok ((), c')) :
    c.Confined P c' := by
  obtain ⟨b, i, hplace, -, rfl⟩ := erase_eq_ok hc
  exact fun h => confined_unlist hs (h.home hs (place?_eq_some hplace).1) _ h

/-- So is replacing a statement in all its uses. -/
theorem confined_replaceAllUses {old new : StmtId} (hold : P.stmt old) (hnew : P.stmt new)
    (hc : replaceAllUses old new c = .ok ((), c')) : c.Confined P c' := by
  rcases replaceAllUses_eq_ok hc with rfl | ⟨-, rfl⟩
  · exact .refl P _
  · exact confined_redirected hold hnew

/-! ## Trees outside a part -/

/-- What stands outside the part has nothing of the part below it. -/
structure Excludes (c : Context) (P : Part) : Prop where
  listed : ∀ {b s}, ¬P.block b → s ∈ c.listed b → ¬P.stmt s
  owned : ∀ {s stmt b}, ¬P.stmt s → c.stmt? s = some stmt → b ∈ stmt.kind.blocks → ¬P.block b

namespace Spares

variable (h : c.Spares P c') (hc : c.Excludes P)
include h hc

theorem nests_of_nests {inner outer : BlockId} (ho : ¬P.block outer) (hn : c'.Nests inner outer) :
    ¬P.block inner ∧ c.Nests inner outer := by
  obtain ⟨s, stmt, hs, hstmt, hb⟩ := hn
  rw [h.listed ho] at hs
  have hout := hc.listed ho hs
  rw [h.stmt? hout] at hstmt
  exact ⟨hc.owned hout hstmt hb, s, stmt, hs, hstmt, hb⟩

/-- Outside of the part, blocks are nested as before. -/
theorem below_of_below {b root : BlockId} (hroot : ¬P.block root)
    (hb : Relation.ReflTransGen c'.Nests b root) : Relation.ReflTransGen c.Nests b root := by
  induction hb with
  | refl => exact .refl
  | tail _ hn ih =>
    obtain ⟨hout, hn'⟩ := h.nests_of_nests hc hroot hn
    exact .tail (ih hout) hn'

/-- Outside of the part, the trees are as before. -/
theorem treeAt_eq (n : Nat) {b : BlockId} (hb : ¬P.block b) : c'.treeAt n b = c.treeAt n b := by
  induction n generalizing b with
  | zero => rfl
  | succ n ih =>
    rw [treeAt, treeAt, h.listed hb]
    refine List.foldr_ext _ _ _ fun s hs rest => ?_
    have hout := hc.listed hb hs
    have hgraft : c'.graft (c'.treeAt n) s rest = c.graft (c'.treeAt n) s rest := by
      rw [graft, h.stmt? hout, graft]
    exact hgraft.trans (graft_congr (fun stmt hstmt d hd => ih (hc.owned hout hstmt hd)) rest)

/-- The tree below a block that is not in the part stays as it is. -/
theorem tree_eq {b : BlockId} (hb : ¬P.block b) (hf : c.FiniteBelow b)
    (hsize : c.blocks.size ≤ c'.blocks.size) : c'.tree b = c.tree b :=
  (h.treeAt_eq hc _ hb).trans (treeAt_eq_treeAt hf
    (Nat.le_trans (card_blocksBelow_le c b) hsize) (card_blocksBelow_le c b))

end Spares

end Context

end KernelIR
