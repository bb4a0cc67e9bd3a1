import Mathlib.Data.List.InsertIdx
import Mathlib.Data.List.Nodup
import Mathlib.Logic.Relation
import KernelIR.Context.Edit

/-!
# Placement in a context

A statement knows the block that lists it and a block the statement that owns it, and
blocks list statements and statements own blocks : the same facts, kept twice. A context
is intact (`Context.Intact`) if the two agree, no block lists a statement twice and no
statement owns a block twice. Each operation keeps a context intact, so every context
that operations lead to from the empty one is (`Reachable.intact`).

What an operation does to the listings and to the statements is stated once for each of
the ways in which operations change a context (`list`, `unlist`, `claim` and the
redirection of uses).
-/

namespace KernelIR

namespace Kind

variable (f : Nat → StmtId → StmtId) (k : Kind)

@[simp] theorem firstBlock?_mapOperands : (k.mapOperands f).firstBlock? = k.firstBlock? := by
  cases k <;> rfl

@[simp] theorem secondBlock?_mapOperands : (k.mapOperands f).secondBlock? = k.secondBlock? := by
  cases k <;> rfl

/-- Other operands leave a statement with its blocks. -/
@[simp] theorem blocks_mapOperands : (k.mapOperands f).blocks = k.blocks := by
  simp [blocks]

/-- They leave it with its value. -/
@[simp] theorem hasValue_mapOperands : (k.mapOperands f).hasValue = k.hasValue := by
  cases k <;> rfl

@[simp] theorem isAlloca_mapOperands : (k.mapOperands f).isAlloca = k.isAlloca := by
  cases k <;> rfl

/-- The uses of a kind are its operands, each with its position. -/
theorem mem_uses {k : Kind} {user : StmtId} {u : Use} :
    u ∈ k.uses user ↔ u.user = user ∧ k.operands[u.index]? = some u.value := by
  obtain ⟨v, w, i⟩ := u
  simp only [uses, List.mem_mapIdx, Use.mk.injEq]
  constructor
  · rintro ⟨j, hj, rfl, rfl, rfl⟩
    exact ⟨rfl, List.getElem?_eq_getElem hj⟩
  · rintro ⟨rfl, h⟩
    obtain ⟨hj, hv⟩ := List.getElem?_eq_some_iff.1 h
    exact ⟨i, hj, hv, rfl, rfl⟩

end Kind

namespace Context

variable {c c' : Context}

/-- The statements that a block lists. -/
theorem listed_of_block? {b : BlockId} {block : Block} (h : c.block? b = some block) :
    c.listed b = block.stmts := by
  simp [listed, h]

/-- An absent block lists none. -/
theorem listed_eq_getD (b : BlockId) :
    c.listed b = ((c.block? b).map Block.stmts).getD [] := by
  unfold listed
  cases c.block? b <;> rfl

/-- The block of a statement is what the statement says. -/
theorem home?_of_stmt? {s : StmtId} {stmt : Stmt} (h : c.stmt? s = some stmt) :
    c.home? s = stmt.block? := by
  simp [home?, h]

/-! ## What operations change -/

section Changes

variable (c) (b d : BlockId) (i : Nat) (s t : StmtId)

/-- A change of a block leaves the statements. -/
@[simp] theorem stmt?_modifyBlock (f : Block → Block) : (c.modifyBlock b f).stmt? s = c.stmt? s :=
  rfl

/-- A change of a statement leaves the blocks. -/
@[simp] theorem block?_modifyStmt (f : Stmt → Stmt) : (c.modifyStmt s f).block? b = c.block? b :=
  rfl

/-- A change of a block shows in what it lists, and in no other block. -/
theorem listed_modifyBlock (f : Block → Block) {g : List StmtId → List StmtId}
    (hf : ∀ block, (f block).stmts = g block.stmts) (hg : (c.block? b).isSome ∨ g [] = []) :
    (c.modifyBlock b f).listed d = if b = d then g (c.listed d) else c.listed d := by
  rw [listed_eq_getD, block?_modifyBlock, listed_eq_getD]
  split
  · next h =>
    subst h
    cases hb : c.block? b with
    | none => simpa [hb] using (hg.resolve_left (by simp [hb])).symm
    | some block => simp [hf]
  · rfl

theorem owner?_modifyBlock_of_owner (f : Block → Block)
    (hf : ∀ block, (f block).owner? = block.owner?) :
    (c.modifyBlock b f).owner? d = c.owner? d := by
  unfold owner?
  rw [block?_modifyBlock]
  split <;> cases c.block? d <;> simp [hf]

/-- Listing a statement sets its block. -/
theorem stmt?_list : (c.list b i s).stmt? t =
    if s = t then (c.stmt? t).map ({ · with block? := some b }) else c.stmt? t :=
  c.stmt?_modifyStmt s t _

/-- It puts the statement into the list of this block. -/
theorem listed_list (hb : (c.block? b).isSome) : (c.list b i s).listed d =
    if b = d then (c.listed d).insertIdx i s else c.listed d := by
  exact listed_modifyBlock (c.modifyStmt s ({ · with block? := some b })) b d _
    (g := (·.insertIdx i s)) (fun _ => rfl) (.inl hb)

theorem owner?_list : (c.list b i s).owner? d = c.owner? d :=
  owner?_modifyBlock_of_owner _ b d _ fun _ => rfl

/-- Taking a statement out of a list clears its block. -/
theorem stmt?_unlist : (c.unlist b i s).stmt? t =
    if s = t then (c.stmt? t).map ({ · with block? := none }) else c.stmt? t :=
  c.stmt?_modifyStmt s t _

/-- It takes the statement out of the list of this block. -/
theorem listed_unlist : (c.unlist b i s).listed d =
    if b = d then (c.listed d).eraseIdx i else c.listed d :=
  listed_modifyBlock (c.modifyStmt s ({ · with block? := none })) b d _ (g := (·.eraseIdx i))
    (fun _ => rfl) (.inr rfl)

theorem owner?_unlist : (c.unlist b i s).owner? d = c.owner? d :=
  owner?_modifyBlock_of_owner (c.modifyStmt s ({ · with block? := none })) b d _ fun _ => rfl

end Changes

/-- What claiming blocks for a statement changes : their owners, which they did not
have. -/
theorem claim_eq_ok {taker : StmtId} {bs : List BlockId} (h : claim taker bs c = .ok c') :
    c'.stmts = c.stmts ∧ c'.uses = c.uses ∧ c'.blocks.size = c.blocks.size ∧
      (∀ d, c'.listed d = c.listed d) ∧ bs.Nodup ∧
      (∀ b ∈ bs, (c.block? b).isSome ∧ c.owner? b = none) ∧
      ∀ d, c'.owner? d = if d ∈ bs then some taker else c.owner? d := by
  induction bs generalizing c with
  | nil =>
    obtain rfl : c = c' := by simpa [claim] using h
    simp
  | cons b rest ih =>
    unfold claim at h
    split at h
    · cases h
    · next block hb =>
      split at h
      · cases h
      · next hnone =>
        have howner : ∀ d, (c.modifyBlock b ({ · with owner? := some taker })).owner? d =
            if d = b then some taker else c.owner? d := by
          intro d
          unfold owner?
          rw [block?_modifyBlock]
          by_cases hd : b = d
          · subst hd
            simp [hb]
          · simp [hd, Ne.symm hd]
        have hlisted : ∀ d, (c.modifyBlock b ({ · with owner? := some taker })).listed d =
            c.listed d := by
          intro d
          have := listed_modifyBlock c b d ({ · with owner? := some taker }) (g := id)
            (fun _ => rfl) (.inr rfl)
          simpa using this
        obtain ⟨hs, hu, hz, hl, hnd, hfree, ho⟩ := ih h
        have hbrest : b ∉ rest := by
          intro hmem
          have := (hfree b hmem).2
          simp [howner] at this
        refine ⟨hs, hu, hz.trans (by simp [modifyBlock]), fun d => (hl d).trans (hlisted d),
          List.nodup_cons.2 ⟨hbrest, hnd⟩, ?_, fun d => ?_⟩
        · intro d hd
          rcases List.mem_cons.1 hd with rfl | hd
          · exact ⟨by simp [hb], by simp [owner?, hb, hnone]⟩
          · obtain ⟨h1, h2⟩ := hfree d hd
            have hne : d ≠ b := fun e => hbrest (e ▸ hd)
            rw [howner, if_neg hne] at h2
            refine ⟨?_, h2⟩
            simpa [block?_modifyBlock, Ne.symm hne] using h1
        · rw [ho d, howner d]
          by_cases hd : d ∈ rest <;> by_cases hdb : d = b <;> simp [hd, hdb]

/-- The blocks that are there have the numbers below their count. -/
theorem isSome_block?_iff {b : BlockId} : (c.block? b).isSome = true ↔ b.index < c.blocks.size := by
  simp [block?]

/-- A block that lists something is there. -/
theorem isSome_block?_of_mem_listed {b : BlockId} {s : StmtId} (h : s ∈ c.listed b) :
    (c.block? b).isSome := by
  unfold listed at h
  split at h
  · next hb => simp [hb]
  · cases h

/-! ## Operations that succeed -/

/-- A new block has the next number, and is empty. -/
theorem createBlock_eq_ok {b : BlockId} (h : createBlock c = .ok (b, c')) :
    b = ⟨c.blocks.size⟩ ∧ c' = { c with blocks := c.blocks.push ⟨[], none⟩ } := by
  simp only [createBlock, Except.ok.injEq, Prod.mk.injEq] at h
  exact ⟨h.1.symm, h.2.symm⟩

/-- What creating a statement changes : it is there, and owns the blocks of its kind,
which nobody owned. -/
structure Created (c : Context) (kind : Kind) (type? : Option ValueType) (s : StmtId)
    (c' : Context) : Prop where
  id_eq : s = ⟨c.stmts.size⟩
  stmt? : ∀ t, c'.stmt? t = if t = s then some ⟨kind, type?, none⟩ else c.stmt? t
  listed : ∀ b, c'.listed b = c.listed b
  owner? : ∀ b, c'.owner? b = if b ∈ kind.blocks then some s else c.owner? b
  distinct : kind.blocks.Nodup
  free : ∀ b ∈ kind.blocks, (c.block? b).isSome ∧ c.owner? b = none
  uses : c'.uses = c.uses ++ kind.uses s
  stmts_size : c'.stmts.size = c.stmts.size + 1
  blocks_size : c'.blocks.size = c.blocks.size

/-- What a new statement changes. -/
theorem createStmt_eq_ok {kind : Kind} {type? : Option ValueType} {s : StmtId}
    (h : createStmt kind type? c = .ok (s, c')) : Created c kind type? s c' := by
  unfold createStmt at h
  dsimp only at h
  cases hd : claim ⟨c.stmts.size⟩ kind.blocks
      { c with stmts := c.stmts.push ⟨kind, type?, none⟩ } with
  | error e =>
    rw [hd] at h
    cases h
  | ok d =>
    rw [hd] at h
    obtain ⟨hs, hu, hz, hl, hnd, hfree, ho⟩ := claim_eq_ok hd
    obtain ⟨rfl, rfl⟩ : (⟨c.stmts.size⟩ : StmtId) = s ∧
        { d with uses := d.uses ++ kind.uses ⟨c.stmts.size⟩ } = c' := by
      simpa [bind, Except.bind, pure, Except.pure] using h
    exact {
      id_eq := rfl
      stmt? := fun t => by
        cases t
        simp [Context.stmt?, hs, Array.getElem?_push]
      listed := hl
      owner? := ho
      distinct := hnd
      free := hfree
      uses := by simp [hu]
      stmts_size := by simp [hs]
      blocks_size := hz }

/-- Only a statement in no block is put at the end of one. -/
theorem push_eq_ok {b : BlockId} {s : StmtId} (h : push b s c = .ok ((), c')) :
    ∃ stmt block, c.stmt? s = some stmt ∧ stmt.block? = none ∧ c.block? b = some block ∧
      c' = c.list b block.stmts.length s := by
  unfold push at h
  split at h
  · cases h
  · next stmt hs =>
    split at h
    · cases h
    · next hnone =>
      split at h
      · cases h
      · next block hb =>
        simp only [Except.ok.injEq, Prod.mk.injEq, true_and] at h
        exact ⟨stmt, block, hs, hnone, hb, h.symm⟩

/-- The place of a statement is where its block lists it. -/
theorem place?_eq_some {s : StmtId} {b : BlockId} {i : Nat} (h : c.place? s = some (b, i)) :
    c.home? s = some b ∧ (c.listed b)[i]? = some s := by
  obtain ⟨d, hd, hp⟩ := Option.bind_eq_some_iff.1 h
  obtain ⟨j, hj, he⟩ := Option.map_eq_some_iff.1 hp
  obtain ⟨rfl, rfl⟩ := Prod.mk.inj he
  obtain ⟨hlt, hget, -⟩ := List.idxOf?_eq_some_iff.1 hj
  exact ⟨hd, by simp [List.getElem?_eq_getElem hlt, hget]⟩

/-- Only a statement in no block is put behind another one, into its block. -/
theorem insertAfter_eq_ok {anchor s : StmtId} (h : insertAfter anchor s c = .ok ((), c')) :
    ∃ stmt b i, c.stmt? s = some stmt ∧ stmt.block? = none ∧ c.place? anchor = some (b, i) ∧
      c' = c.list b (i + 1) s := by
  unfold insertAfter at h
  split at h
  · cases h
  · next stmt hs =>
    split at h
    · cases h
    · next hnone =>
      split at h
      · cases h
      · split at h
        · cases h
        · next b i hp =>
          simp only [Except.ok.injEq, Prod.mk.injEq, true_and] at h
          exact ⟨stmt, b, i, hs, hnone, hp, h.symm⟩

/-- Only a statement without uses is taken out of its block. -/
theorem eraseAt_eq_ok {b : BlockId} {i : Nat} (h : eraseAt b i c = .ok ((), c')) :
    ∃ s, (c.listed b)[i]? = some s ∧ c.chain s = [] ∧ c' = c.unlist b i s := by
  unfold eraseAt at h
  split at h
  · cases h
  · next s hs =>
    split at h
    · next hc =>
      simp only [Except.ok.injEq, Prod.mk.injEq, true_and] at h
      exact ⟨s, hs, hc, h.symm⟩
    · cases h

/-- The same for a statement that is named by its number. -/
theorem erase_eq_ok {s : StmtId} (h : erase s c = .ok ((), c')) :
    ∃ b i, c.place? s = some (b, i) ∧ c.chain s = [] ∧ c' = c.unlist b i s := by
  unfold erase at h
  split at h
  · cases h
  · split at h
    · cases h
    · next b i hp =>
      obtain ⟨t, ht, hc, rfl⟩ := eraseAt_eq_ok h
      obtain rfl : s = t := Option.some.inj ((place?_eq_some hp).2.symm.trans ht)
      exact ⟨b, i, hp, hc, rfl⟩

/-- The operand that stands in the place of `v` after uses of `old` have been given to
`new`. -/
def redirect (c : Context) (old new user : StmtId) (i : Nat) (v : StmtId) : StmtId :=
  if (⟨old, user, i⟩ : Use) ∈ c.chain old then new else v

/-- A context in which the uses of `old` are uses of `new`. -/
def redirected (c : Context) (old new : StmtId) : Context where
  stmts := c.stmts.mapIdx fun u stmt =>
    { stmt with kind := stmt.kind.mapOperands (c.redirect old new ⟨u⟩) }
  blocks := c.blocks
  uses := c.uses.filter (·.value != old) ++ (c.chain old).map ({ · with value := new })

theorem replaceAllUses_of_ne {old new : StmtId} (h : old ≠ new) :
    replaceAllUses old new c = .ok ((), c.redirected old new) := by
  unfold replaceAllUses
  rw [if_neg h]
  rfl

/-- Replacing changes nothing, or redirects all uses. -/
theorem replaceAllUses_eq_ok {old new : StmtId} (h : replaceAllUses old new c = .ok ((), c')) :
    c' = c ∨ old ≠ new ∧ c' = c.redirected old new := by
  by_cases hne : old = new
  · rw [replaceAllUses, if_pos hne] at h
    cases h
    exact .inl rfl
  · rw [replaceAllUses_of_ne hne] at h
    cases h
    exact .inr ⟨hne, rfl⟩

/-- Where the uses are redirected, the operands of each statement are. -/
theorem stmt?_redirected (old new s : StmtId) : (c.redirected old new).stmt? s =
    (c.stmt? s).map fun stmt =>
      { stmt with kind := stmt.kind.mapOperands (c.redirect old new s) } := by
  simp [redirected, stmt?]

/-- Redirected uses leave the statements in their blocks. -/
theorem home?_redirected (old new s : StmtId) :
    (c.redirected old new).home? s = c.home? s := by
  unfold home?
  rw [stmt?_redirected]
  cases c.stmt? s <;> rfl

/-! ## Contexts that operations lead to -/

/-- One operation, which was not refused. -/
inductive Step : Context → Context → Prop where
  | createBlock {c c' : Context} {b : BlockId} : createBlock c = .ok (b, c') → Step c c'
  | createStmt {c c' : Context} {kind : Kind} {type? : Option ValueType} {s : StmtId} :
    createStmt kind type? c = .ok (s, c') → Step c c'
  | push {c c' : Context} {b : BlockId} {s : StmtId} : push b s c = .ok ((), c') → Step c c'
  | insertAfter {c c' : Context} {anchor s : StmtId} :
    insertAfter anchor s c = .ok ((), c') → Step c c'
  | erase {c c' : Context} {s : StmtId} : erase s c = .ok ((), c') → Step c c'
  | eraseAt {c c' : Context} {b : BlockId} {i : Nat} : eraseAt b i c = .ok ((), c') → Step c c'
  | replaceAllUses {c c' : Context} {old new : StmtId} :
    replaceAllUses old new c = .ok ((), c') → Step c c'

/-- The context can be made from the empty one by operations. -/
def Reachable (c : Context) : Prop :=
  Relation.ReflTransGen Step empty c

/-- Statements and blocks agree on where statements are listed and who owns blocks. -/
structure Intact (c : Context) : Prop where
  home : ∀ {b s}, s ∈ c.listed b → c.home? s = some b
  listed : ∀ {b s}, c.home? s = some b → s ∈ c.listed b
  nodup : ∀ b, (c.listed b).Nodup
  owner : ∀ {s stmt b}, c.stmt? s = some stmt → b ∈ stmt.kind.blocks → c.owner? b = some s
  owned : ∀ {b s}, c.owner? b = some s → ∃ stmt, c.stmt? s = some stmt ∧ b ∈ stmt.kind.blocks
  distinct : ∀ {s stmt}, c.stmt? s = some stmt → stmt.kind.blocks.Nodup

/-- Taking a statement out of a block leaves the other statements listed as before. -/
theorem listed_unlist_eq_filter (h : c.Intact) {s : StmtId} {b : BlockId} {i : Nat}
    (hi : (c.listed b)[i]? = some s) (d : BlockId) :
    (c.unlist b i s).listed d = (c.listed d).filter (· != s) := by
  rw [listed_unlist]
  split
  · next heq =>
    subst heq
    obtain ⟨hlt, hget⟩ := List.getElem?_eq_some_iff.1 hi
    rw [← (h.nodup b).erase_eq_filter, ← hget, List.Nodup.erase_getElem (h.nodup b)]
  · next hne =>
    refine (List.filter_eq_self.2 fun t ht => ?_).symm
    have hts : t ≠ s := by
      rintro rfl
      have := (h.home ht).symm.trans (h.home (List.mem_of_getElem? hi))
      exact hne (Option.some.inj this).symm
    simpa using hts

namespace Intact

/-- The empty context is intact. -/
theorem empty : Context.empty.Intact where
  home h := by simp [Context.listed, block?, Context.empty] at h
  listed h := by simp [home?, stmt?, Context.empty] at h
  nodup b := by simp [Context.listed, block?, Context.empty]
  owner h := by simp [stmt?, Context.empty] at h
  owned h := by simp [owner?, block?, Context.empty] at h
  distinct h := by simp [stmt?, Context.empty] at h

/-- A context with the same statements and listings and the same owners is as intact. -/
theorem congr (h : c.Intact) (hs : ∀ s, c'.stmt? s = c.stmt? s)
    (hl : ∀ b, c'.listed b = c.listed b) (ho : ∀ b, c'.owner? b = c.owner? b) : c'.Intact where
  home {b s} hm := by
    rw [home?, hs]
    exact h.home (hl b ▸ hm)
  listed {b s} hm := by
    rw [hl]
    exact h.listed (by rwa [home?, hs] at hm)
  nodup b := hl b ▸ h.nodup b
  owner {s stmt b} hm hb := (ho b).trans (h.owner (hs s ▸ hm) hb)
  owned {b s} hm := by
    rw [hs]
    exact h.owned (ho b ▸ hm)
  distinct {s stmt} hm := h.distinct (hs s ▸ hm)

/-- A new block keeps it intact. -/
theorem createBlock (h : c.Intact) {b : BlockId} (hc : Context.createBlock c = .ok (b, c')) :
    c'.Intact := by
  obtain ⟨-, rfl⟩ := createBlock_eq_ok hc
  have hb : ∀ d, ({ c with blocks := c.blocks.push ⟨[], none⟩ } : Context).block? d =
      if d.index = c.blocks.size then some ⟨[], none⟩ else c.block? d := by
    intro d
    simp [block?, Array.getElem?_push]
  have hnone : ∀ d : BlockId, d.index = c.blocks.size → c.block? d = none := by
    intro d hd
    simp [block?, hd]
  refine h.congr (fun _ => rfl) (fun d => ?_) fun d => ?_
  · simp only [listed_eq_getD, hb]
    split
    · next hd => simp [hnone d hd]
    · rfl
  · simp only [owner?, hb]
    split
    · next hd => simp [hnone d hd]
    · rfl

/-- So does a new statement, which takes the blocks that it owns. -/
theorem createStmt (h : c.Intact) {kind : Kind} {type? : Option ValueType} {s : StmtId}
    (hc : Context.createStmt kind type? c = .ok (s, c')) : c'.Intact := by
  have hcr := createStmt_eq_ok hc
  have hold : ∀ {t stmt}, c.stmt? t = some stmt → t ≠ s := by
    rintro t stmt ht rfl
    rw [hcr.id_eq] at ht
    simp [stmt?] at ht
  constructor
  case home =>
    intro b t ht
    rw [hcr.listed] at ht
    have hm := h.home ht
    obtain ⟨stmt, hts, hb⟩ := Option.bind_eq_some_iff.1 hm
    rw [home?, hcr.stmt?, if_neg (hold hts), hts]
    exact hb
  case listed =>
    intro b t ht
    rw [home?, hcr.stmt?] at ht
    split at ht
    · cases ht
    · rw [hcr.listed]
      exact h.listed ht
  case nodup =>
    intro b
    rw [hcr.listed]
    exact h.nodup b
  case owner =>
    intro t stmt b ht hb
    rw [hcr.owner?]
    rw [hcr.stmt?] at ht
    split at ht
    · next heq =>
      cases ht
      rw [if_pos hb, heq]
    · have hown := h.owner ht hb
      rw [if_neg fun hmem => by simp [(hcr.free b hmem).2] at hown]
      exact hown
  case owned =>
    intro b t ht
    rw [hcr.owner?] at ht
    rw [hcr.stmt?]
    split at ht
    · next hmem =>
      cases ht
      exact ⟨_, if_pos rfl, hmem⟩
    · obtain ⟨stmt, hts, hb⟩ := h.owned ht
      exact ⟨stmt, by rw [if_neg (hold hts), hts], hb⟩
  case distinct =>
    intro t stmt ht
    rw [hcr.stmt?] at ht
    split at ht
    · cases ht
      exact hcr.distinct
    · exact h.distinct ht

/-- Listing a statement that no block lists keeps a context intact. -/
theorem list (h : c.Intact) {s : StmtId} {stmt : Stmt} {b : BlockId} {i : Nat}
    (hs : c.stmt? s = some stmt) (hnone : stmt.block? = none) (hb : (c.block? b).isSome)
    (hi : i ≤ (c.listed b).length) : (c.list b i s).Intact := by
  have hfree : ∀ d, s ∉ c.listed d := by
    intro d hd
    have := h.home hd
    rw [home?_of_stmt? hs, hnone] at this
    cases this
  have hmem : ∀ d t, t ∈ (c.list b i s).listed d ↔ t ∈ c.listed d ∨ t = s ∧ d = b := by
    intro d t
    rw [listed_list c b d i s hb]
    split
    · next heq =>
      subst heq
      rw [List.mem_insertIdx hi]
      tauto
    · next hne =>
      have : d ≠ b := fun e => hne e.symm
      tauto
  have hkind : ∀ {t u}, (c.list b i s).stmt? t = some u →
      ∃ v, c.stmt? t = some v ∧ v.kind = u.kind := by
    intro t u htu
    rw [stmt?_list] at htu
    split at htu
    · obtain ⟨v, hv, rfl⟩ := Option.map_eq_some_iff.1 htu
      exact ⟨v, hv, rfl⟩
    · exact ⟨u, htu, rfl⟩
  have hhome : ∀ t, (c.list b i s).home? t = if s = t then some b else c.home? t := by
    intro t
    rw [home?, stmt?_list]
    split
    · next heq =>
      subst heq
      simp [hs]
    · rfl
  constructor
  case home =>
    intro d t ht
    rw [hhome]
    rcases (hmem d t).1 ht with ht | ⟨rfl, rfl⟩
    · rw [if_neg (by rintro rfl; exact hfree d ht)]
      exact h.home ht
    · rw [if_pos rfl]
  case listed =>
    intro d t ht
    rw [hhome] at ht
    rw [hmem]
    split at ht
    · next heq =>
      cases ht
      exact .inr ⟨heq.symm, rfl⟩
    · exact .inl (h.listed ht)
  case nodup =>
    intro d
    rw [listed_list c b d i s hb]
    split
    · next heq =>
      subst heq
      exact (List.perm_insertIdx s _ hi).nodup_iff.2 (List.nodup_cons.2 ⟨hfree b, h.nodup b⟩)
    · exact h.nodup d
  case owner =>
    intro t u d ht hd
    obtain ⟨v, hv, hk⟩ := hkind ht
    exact (owner?_list c b d i s).trans (h.owner hv (hk ▸ hd))
  case owned =>
    intro d t ht
    rw [owner?_list] at ht
    obtain ⟨v, hv, hd⟩ := h.owned ht
    rw [stmt?_list]
    split
    · exact ⟨{ v with block? := some b }, by simp [hv], hd⟩
    · exact ⟨v, hv, hd⟩
  case distinct =>
    intro t u ht
    obtain ⟨v, hv, hk⟩ := hkind ht
    exact hk ▸ h.distinct hv

/-- Taking a statement out of the block that lists it keeps a context intact. -/
theorem unlist (h : c.Intact) {s : StmtId} {b : BlockId} {i : Nat}
    (hi : (c.listed b)[i]? = some s) : (c.unlist b i s).Intact := by
  have hsb : s ∈ c.listed b := List.mem_of_getElem? hi
  have hkind : ∀ {t u}, (c.unlist b i s).stmt? t = some u →
      ∃ v, c.stmt? t = some v ∧ v.kind = u.kind := by
    intro t u htu
    rw [stmt?_unlist] at htu
    split at htu
    · obtain ⟨v, hv, rfl⟩ := Option.map_eq_some_iff.1 htu
      exact ⟨v, hv, rfl⟩
    · exact ⟨u, htu, rfl⟩
  have hlisted := listed_unlist_eq_filter h hi
  have hhome : ∀ t, (c.unlist b i s).home? t = if s = t then none else c.home? t := by
    intro t
    rw [home?, stmt?_unlist]
    split
    · next heq =>
      subst heq
      cases c.stmt? s <;> simp
    · rfl
  constructor
  case home =>
    intro d t ht
    rw [hlisted, List.mem_filter] at ht
    rw [hhome, if_neg fun e => by simp [e] at ht]
    exact h.home ht.1
  case listed =>
    intro d t ht
    rw [hhome] at ht
    split at ht
    · cases ht
    · next hne =>
      rw [hlisted, List.mem_filter]
      exact ⟨h.listed ht, by simpa using Ne.symm hne⟩
  case nodup =>
    intro d
    rw [hlisted]
    exact (h.nodup d).filter _
  case owner =>
    intro t u d ht hd
    obtain ⟨v, hv, hk⟩ := hkind ht
    exact (owner?_unlist c b d i s).trans (h.owner hv (hk ▸ hd))
  case owned =>
    intro d t ht
    rw [owner?_unlist] at ht
    obtain ⟨v, hv, hd⟩ := h.owned ht
    rw [stmt?_unlist]
    split
    · exact ⟨{ v with block? := none }, by simp [hv], hd⟩
    · exact ⟨v, hv, hd⟩
  case distinct =>
    intro t u ht
    obtain ⟨v, hv, hk⟩ := hkind ht
    exact hk ▸ h.distinct hv

/-- So do redirected uses. -/
theorem redirected (h : c.Intact) (old new : StmtId) : (c.redirected old new).Intact where
  home hm := (home?_redirected old new _).trans (h.home hm)
  listed hm := h.listed ((home?_redirected old new _).symm.trans hm)
  nodup b := h.nodup b
  owner {s stmt b} hs hb := by
    rw [stmt?_redirected] at hs
    obtain ⟨v, hv, rfl⟩ := Option.map_eq_some_iff.1 hs
    exact h.owner hv (by simpa using hb)
  owned {b s} hm := by
    obtain ⟨v, hv, hb⟩ := h.owned hm
    rw [stmt?_redirected, hv]
    exact ⟨_, rfl, by simpa using hb⟩
  distinct {s stmt} hs := by
    rw [stmt?_redirected] at hs
    obtain ⟨v, hv, rfl⟩ := Option.map_eq_some_iff.1 hs
    simpa using h.distinct hv

/-- Every operation keeps a context intact. -/
theorem step (h : c.Intact) (hc : Step c c') : c'.Intact := by
  cases hc with
  | createBlock hc => exact h.createBlock hc
  | createStmt hc => exact h.createStmt hc
  | push hc =>
    obtain ⟨stmt, block, hs, hnone, hb, rfl⟩ := push_eq_ok hc
    exact h.list hs hnone (by simp [hb]) (listed_of_block? hb ▸ Nat.le_refl _)
  | insertAfter hc =>
    obtain ⟨stmt, b, i, hs, hnone, hp, rfl⟩ := insertAfter_eq_ok hc
    have hlt := (List.getElem?_eq_some_iff.1 (place?_eq_some hp).2).1
    exact h.list hs hnone (isSome_block?_of_mem_listed (List.getElem_mem hlt)) hlt
  | erase hc =>
    obtain ⟨b, i, hp, -, rfl⟩ := erase_eq_ok hc
    exact h.unlist (place?_eq_some hp).2
  | eraseAt hc =>
    obtain ⟨s, hs, -, rfl⟩ := eraseAt_eq_ok hc
    exact h.unlist hs
  | replaceAllUses hc =>
    rcases replaceAllUses_eq_ok hc with rfl | ⟨-, rfl⟩
    · exact h
    · exact h.redirected _ _

end Intact

/-- All contexts that operations lead to are intact. -/
theorem Reachable.intact (h : c.Reachable) : c.Intact := by
  induction h with
  | refl => exact Intact.empty
  | tail _ hstep ih => exact ih.step hstep

end Context

end KernelIR
