import Mathlib.Data.List.Nodup
import KernelIR.Proofs.Context.Intact
import KernelIR.Tree

/-!
# Editing trees

The rewrites of the optimizer, on trees : a statement is removed (`Tree.remove`), one is
put behind another (`Tree.insertAfter`), and one value takes the place of another
(`Tree.replace`). The operations on a context do just this to the tree below any block
(`Context.treeAt_unlist`, `Context.treeAt_list`, `Context.treeAt_redirected`).

No statement occurs twice in the tree below a block, if no block lies below itself there
(`Context.nodup_ids_treeAt`).
-/

namespace KernelIR

/-- Puts `new` in the place of every operand `old`. -/
def Kind.replace (old new : StmtId) (k : Kind) : Kind :=
  k.mapOperands fun _ v => if v = old then new else v

/-- Only the functions' values at the operands matter. -/
theorem Kind.mapOperands_congr {f g : Nat → StmtId → StmtId} {k : Kind}
    (h : ∀ i v, k.operands[i]? = some v → f i v = g i v) : k.mapOperands f = k.mapOperands g := by
  have hlist : ∀ l : List StmtId, (∀ i v, l[i]? = some v → f i v = g i v) →
      l.mapIdx f = l.mapIdx g := by
    intro l hl
    refine List.ext_getElem? fun i => ?_
    cases hi : l[i]? with
    | none => simp [hi]
    | some v => simp [hi, hl i v hi]
  cases k with
  | load lanes =>
    refine congrArg Kind.load (List.ext_getElem? fun i => ?_)
    cases hi : lanes[i]? with
    | none => simp [hi]
    | some lane => simp [hi, h i lane.slot (by simp [operands, hi])]
  | branch cond trueMask falseMask _ _ =>
    have hops := hlist _ h
    cases trueMask <;> cases falseMask <;> simp_all [mapOperands, operands]
  | loop mask _ =>
    have hops := hlist _ h
    cases mask <;> simp_all [mapOperands, operands]
  | structFor counters snode body => rw [mapOperands, mapOperands, hlist counters h]
  | _ =>
    have hops := hlist _ h
    simp_all [mapOperands, operands]

theorem Kind.mapOperands_mapOperands (f g : Nat → StmtId → StmtId) (k : Kind) :
    (k.mapOperands f).mapOperands g = k.mapOperands fun i v => g i (f i v) := by
  cases k with
  | load lanes => exact congrArg Kind.load (List.ext_getElem? fun i => by simp [Function.comp_def])
  | branch cond trueMask falseMask _ _ =>
    cases trueMask <;> cases falseMask <;> simp [mapOperands]
  | loop mask _ => cases mask <;> simp [mapOperands]
  | structFor counters snode body =>
    refine congrArg (Kind.structFor · snode body) (List.ext_getElem? fun i => ?_)
    simp [Function.comp_def]
  | _ => simp [mapOperands]

/-- Names other values. -/
def Kind.rename (f : StmtId → StmtId) (k : Kind) : Kind :=
  k.mapOperands fun _ => f

@[simp] theorem Kind.rename_id (k : Kind) : k.rename id = k := by
  have hlist : ∀ l : List StmtId, l.mapIdx (fun _ => id) = l :=
    fun l => List.ext_getElem? fun i => by simp
  cases k with
  | load lanes => exact congrArg Kind.load (List.ext_getElem? fun i => by simp)
  | _ => simp [rename, mapOperands, hlist]

theorem Kind.rename_load (f : StmtId → StmtId) (lanes : List SlotLane) : (load lanes).rename f =
    load (lanes.map fun lane => { lane with slot := f lane.slot }) :=
  congrArg load (List.ext_getElem? fun i => by simp)

theorem Kind.rename_structFor (f : StmtId → StmtId) (counters : List StmtId) (snode : String)
    (body : BlockId) :
    (structFor counters snode body).rename f = structFor (counters.map f) snode body :=
  congrArg (structFor · snode body) (List.ext_getElem? fun i => by simp)

def Stmt.mapKind (f : Kind → Kind) (stmt : Stmt) : Stmt :=
  { stmt with kind := f stmt.kind }

namespace Tree

/-- Takes a statement out, with what is nested in it. -/
def remove (d : StmtId) : Tree → Tree
  | nil => nil
  | cons id stmt first second rest =>
    if id = d then rest.remove d
    else cons id stmt (first.remove d) (second.remove d) (rest.remove d)

/-- Puts a statement without blocks behind `anchor`. -/
def insertAfter (anchor new : StmtId) (newStmt : Stmt) : Tree → Tree
  | nil => nil
  | cons id stmt first second rest =>
    cons id stmt (first.insertAfter anchor new newStmt) (second.insertAfter anchor new newStmt)
      (if id = anchor then cons new newStmt nil nil (rest.insertAfter anchor new newStmt)
        else rest.insertAfter anchor new newStmt)

/-- Changes each statement and leaves the nesting. -/
def mapStmts (g : StmtId → Stmt → Stmt) : Tree → Tree
  | nil => nil
  | cons id stmt first second rest =>
    cons id (g id stmt) (first.mapStmts g) (second.mapStmts g) (rest.mapStmts g)

/-- Puts `new` in the place of every operand `old`. -/
def replace (old new : StmtId) : Tree → Tree :=
  mapStmts fun _ => Stmt.mapKind (Kind.replace old new)

/-- Statements have something nested in them only where their kind says so. -/
def Shaped : Tree → Prop
  | nil => True
  | cons _ stmt first second rest =>
    (stmt.kind.firstBlock? = none → first = nil) ∧ (stmt.kind.secondBlock? = none → second = nil) ∧
      first.Shaped ∧ second.Shaped ∧ rest.Shaped

@[simp] theorem ids_nil : nil.ids = [] := rfl

@[simp] theorem ids_cons (id : StmtId) (stmt : Stmt) (first second rest : Tree) :
    (cons id stmt first second rest).ids = id :: (first.ids ++ second.ids ++ rest.ids) := by
  simp [ids, preorder]

theorem mem_ids {t : Tree} {s : StmtId} : s ∈ t.ids ↔ ∃ stmt, (s, stmt) ∈ t.preorder := by
  simp [ids]

theorem mem_ids_of_mem_preorder {t : Tree} {p : StmtId × Stmt} (h : p ∈ t.preorder) :
    p.1 ∈ t.ids :=
  List.mem_map_of_mem h

theorem preorder_mapStmts (g : StmtId → Stmt → Stmt) (t : Tree) :
    (t.mapStmts g).preorder = t.preorder.map fun p => (p.1, g p.1 p.2) := by
  induction t with
  | nil => rfl
  | cons _ _ _ _ _ ih₁ ih₂ ih₃ => simp [mapStmts, preorder, ih₁, ih₂, ih₃]

@[simp] theorem ids_mapStmts (g : StmtId → Stmt → Stmt) (t : Tree) :
    (t.mapStmts g).ids = t.ids := by
  simp [ids, preorder_mapStmts, Function.comp_def]

@[simp] theorem ids_replace (old new : StmtId) (t : Tree) : (t.replace old new).ids = t.ids :=
  ids_mapStmts _ t

/-- A statement that occurs once in a tree is one statement. -/
theorem stmt_unique {t : Tree} (ht : t.ids.Nodup) {s : StmtId} {stmt stmt' : Stmt}
    (h : (s, stmt) ∈ t.preorder) (h' : (s, stmt') ∈ t.preorder) : stmt = stmt' :=
  congrArg Prod.snd (List.inj_on_of_nodup_map ht h h' rfl)

theorem mapStmts_congr {g h : StmtId → Stmt → Stmt} {t : Tree}
    (heq : ∀ p ∈ t.preorder, g p.1 p.2 = h p.1 p.2) : t.mapStmts g = t.mapStmts h := by
  induction t with
  | nil => rfl
  | cons id stmt first second rest ih₁ ih₂ ih₃ =>
    simp only [preorder, List.mem_cons, List.mem_append] at heq
    simp only [mapStmts, heq (id, stmt) (.inl rfl), ih₁ fun p hp => heq p (by tauto),
      ih₂ fun p hp => heq p (by tauto), ih₃ fun p hp => heq p (by tauto)]

/-- Removing statements without blocks leaves all others. -/
theorem preorder_remove {t : Tree} (ht : t.Shaped) {d : StmtId}
    (hd : ∀ stmt, (d, stmt) ∈ t.preorder → stmt.kind.blocks = []) :
    (t.remove d).preorder = t.preorder.filter (·.1 != d) := by
  induction t with
  | nil => rfl
  | cons id stmt first second rest ih₁ ih₂ ih₃ =>
    obtain ⟨h₁, h₂, ht₁, ht₂, ht₃⟩ := ht
    simp only [preorder, List.mem_cons, List.mem_append] at hd
    have ih₃ := ih₃ ht₃ fun stmt h => hd stmt (.inr (.inr h))
    by_cases hid : id = d
    · subst hid
      have hb := hd stmt (.inl rfl)
      simp only [Kind.blocks, List.append_eq_nil_iff, Option.toList_eq_nil_iff] at hb
      simp [remove, preorder, h₁ hb.1, h₂ hb.2, ih₃]
    · have ih₁ := ih₁ ht₁ fun stmt h => hd stmt (.inr (.inl (.inl h)))
      have ih₂ := ih₂ ht₂ fun stmt h => hd stmt (.inr (.inl (.inr h)))
      simp [remove, preorder, hid, ih₁, ih₂, ih₃]

/-- An insertion adds its statement if the anchor stands in the tree, and nothing else. -/
theorem mem_preorder_insertAfter {t : Tree} {anchor new : StmtId} {newStmt : Stmt}
    {p : StmtId × Stmt} : p ∈ (t.insertAfter anchor new newStmt).preorder ↔
      p ∈ t.preorder ∨ anchor ∈ t.ids ∧ p = (new, newStmt) := by
  induction t with
  | nil => simp [insertAfter, preorder]
  | cons id stmt first second rest ih₁ ih₂ ih₃ =>
    by_cases hid : id = anchor
    · simp only [insertAfter, preorder, if_pos hid, List.mem_cons, List.mem_append, ih₁, ih₂, ih₃,
        ids_cons, List.nil_append]
      grind
    · simp only [insertAfter, preorder, if_neg hid, List.mem_cons, List.mem_append, ih₁, ih₂, ih₃,
        ids_cons]
      grind

end Tree

/-! ## Trees of a context -/

namespace Context

variable {c c' : Context}

theorem shaped_treeAt (n : Nat) (b : BlockId) : (c.treeAt n b).Shaped := by
  induction n generalizing b with
  | zero => trivial
  | succ n ih =>
    rw [treeAt]
    induction c.listed b with
    | nil => trivial
    | cons s l ihl =>
      rw [List.foldr_cons, graft]
      split
      · exact ihl
      · next stmt _ =>
        refine ⟨fun h => by rw [h]; rfl, fun h => by rw [h]; rfl, ?_, ?_, ihl⟩
        · cases stmt.kind.firstBlock? with
          | none => trivial
          | some d => exact ih d
        · cases stmt.kind.secondBlock? with
          | none => trivial
          | some d => exact ih d

theorem shaped_tree (c : Context) (b : BlockId) : (c.tree b).Shaped :=
  shaped_treeAt _ b

/-- The statements of a tree are those of the context. -/
theorem stmt?_of_mem_treeAt {n : Nat} {b : BlockId} {p : StmtId × Stmt}
    (h : p ∈ (c.treeAt n b).preorder) : c.stmt? p.1 = some p.2 := by
  induction n generalizing b with
  | zero => simp [treeAt, Tree.preorder] at h
  | succ n ih =>
    rw [treeAt] at h
    generalize c.listed b = l at h
    induction l with
    | nil => simp [Tree.preorder] at h
    | cons s l ihl =>
      rw [List.foldr_cons, graft] at h
      split at h
      · exact ihl h
      · next stmt hs =>
        simp only [Tree.preorder, List.mem_cons, List.mem_append] at h
        rcases h with rfl | (h | h) | h
        · exact hs
        · cases hb : stmt.kind.firstBlock? with
          | none => simp [hb, Tree.preorder] at h
          | some d => exact ih (b := d) (by simpa [hb] using h)
        · cases hb : stmt.kind.secondBlock? with
          | none => simp [hb, Tree.preorder] at h
          | some d => exact ih (b := d) (by simpa [hb] using h)
        · exact ihl h

/-- Changing statements, but not what they own, changes the statements of a tree. -/
theorem treeAt_mapStmts {g : StmtId → Stmt → Stmt} (hl : ∀ b, c'.listed b = c.listed b)
    (hs : ∀ b, ∀ s ∈ c.listed b, c'.stmt? s = (c.stmt? s).map (g s))
    (hg : ∀ s stmt, (g s stmt).kind.firstBlock? = stmt.kind.firstBlock? ∧
      (g s stmt).kind.secondBlock? = stmt.kind.secondBlock?) (n : Nat) (b : BlockId) :
    c'.treeAt n b = (c.treeAt n b).mapStmts g := by
  induction n generalizing b with
  | zero => rfl
  | succ n ih =>
    rw [treeAt, treeAt, hl]
    have hs := hs b
    generalize c.listed b = l at hs ⊢
    induction l with
    | nil => rfl
    | cons s l ihl =>
      rw [List.foldr_cons, List.foldr_cons, ihl fun t ht => hs t (List.mem_cons_of_mem s ht),
        graft, graft, hs s List.mem_cons_self]
      cases c.stmt? s with
      | none => rfl
      | some stmt =>
        simp only [Option.map_some, Tree.mapStmts, hg]
        congr 1
        · cases stmt.kind.firstBlock? with
          | none => rfl
          | some d => exact ih d
        · cases stmt.kind.secondBlock? with
          | none => rfl
          | some d => exact ih d

/-- A tree depends on the lists of its blocks and on the statements there, and on nothing else. -/
theorem treeAt_congr (hl : ∀ b, c'.listed b = c.listed b)
    (hs : ∀ b, ∀ s ∈ c.listed b, c'.stmt? s = c.stmt? s) (n : Nat) (b : BlockId) :
    c'.treeAt n b = c.treeAt n b := by
  have hid : ∀ t : Tree, t.mapStmts (fun _ stmt => stmt) = t := by
    intro t
    induction t with
    | nil => rfl
    | cons _ _ _ _ _ ih₁ ih₂ ih₃ => rw [Tree.mapStmts, ih₁, ih₂, ih₃]
  rw [treeAt_mapStmts (g := fun _ stmt => stmt) hl (fun b s h => by simp [hs b s h])
    (fun _ _ => ⟨rfl, rfl⟩), hid]

/-- Uses are redirected in a tree statement by statement. -/
theorem treeAt_redirected (old new : StmtId) (n : Nat) (b : BlockId) :
    (c.redirected old new).treeAt n b = (c.treeAt n b).mapStmts fun s stmt =>
      stmt.mapKind (Kind.mapOperands (c.redirect old new s)) := by
  refine treeAt_mapStmts (fun d => ?_) (fun _ s _ => ?_) (fun s stmt => ?_) n b
  · rfl
  · exact stmt?_redirected old new s
  · exact ⟨Kind.firstBlock?_mapOperands _ _, Kind.secondBlock?_mapOperands _ _⟩

/-- Taking a statement out of its block takes it out of every tree. -/
theorem treeAt_unlist (h : c.Intact) {s : StmtId} {d : BlockId} {i : Nat}
    (hi : (c.listed d)[i]? = some s) (n : Nat) (b : BlockId) :
    (c.unlist d i s).treeAt n b = (c.treeAt n b).remove s := by
  induction n generalizing b with
  | zero => rfl
  | succ n ih =>
    rw [treeAt, treeAt, listed_unlist_eq_filter h hi]
    induction c.listed b with
    | nil => rfl
    | cons t l ihl =>
      rw [List.foldr_cons, graft]
      by_cases ht : t = s
      · subst ht
        rw [List.filter_cons_of_neg (by simp), ihl]
        split <;> simp [Tree.remove]
      · rw [List.filter_cons_of_pos (by simpa using ht), List.foldr_cons, graft, stmt?_unlist,
          if_neg (Ne.symm ht), ihl]
        split
        · rfl
        · next stmt _ =>
          simp only [Tree.remove, if_neg ht]
          congr 1
          · cases stmt.kind.firstBlock? with
            | none => rfl
            | some e => exact ih e
          · cases stmt.kind.secondBlock? with
            | none => rfl
            | some e => exact ih e

/-- A statement that is taken out of its block is removed from every tree. -/
theorem tree_unlist (h : c.Intact) {s : StmtId} {d : BlockId} {i : Nat}
    (hi : (c.listed d)[i]? = some s) (b : BlockId) :
    (c.unlist d i s).tree b = (c.tree b).remove s := by
  have hsize : (c.unlist d i s).blocks.size = c.blocks.size := by
    simp [unlist, modifyBlock, modifyStmt]
  rw [tree, hsize, treeAt_unlist h hi, ← tree]

theorem insertIdx_eq_flatMap {l : List StmtId} (hl : l.Nodup) {i : Nat} {a s : StmtId}
    (hi : l[i]? = some a) :
    l.insertIdx (i + 1) s = l.flatMap fun t => if t = a then [t, s] else [t] := by
  induction l generalizing i with
  | nil => simp at hi
  | cons t l ih =>
    obtain ⟨hnot, hl⟩ := List.nodup_cons.1 hl
    cases i with
    | zero =>
      obtain rfl : t = a := by simpa using hi
      have hrest : (l.flatMap fun u => if u = t then [u, s] else [u]) = l := by
        rw [List.flatMap_congr (g := fun u => [u]) fun u hu => if_neg ?_]
        · simp
        · rintro rfl
          exact hnot hu
      simp [hrest]
    | succ i =>
      have hmem : a ∈ l := List.mem_of_getElem? (by simpa using hi)
      have hta : t ≠ a := fun e => hnot (e ▸ hmem)
      simp [hta, ih hl (by simpa using hi)]

/-- Listing a statement without blocks behind another one puts it behind that one in every
tree. -/
theorem treeAt_list (h : c.Intact) {anchor s : StmtId} {stmt : Stmt} {d : BlockId} {i : Nat}
    (hs : c.stmt? s = some stmt) (hnone : stmt.block? = none) (hblocks : stmt.kind.blocks = [])
    (hi : (c.listed d)[i]? = some anchor) (n : Nat) (b : BlockId) :
    (c.list d (i + 1) s).treeAt n b =
      (c.treeAt n b).insertAfter anchor s { stmt with block? := some d } := by
  have hfirst : stmt.kind.firstBlock? = none := by
    simp only [Kind.blocks, List.append_eq_nil_iff, Option.toList_eq_nil_iff] at hblocks
    exact hblocks.1
  have hsecond : stmt.kind.secondBlock? = none := by
    simp only [Kind.blocks, List.append_eq_nil_iff, Option.toList_eq_nil_iff] at hblocks
    exact hblocks.2
  have hfree : ∀ e, s ∉ c.listed e := by
    intro e he
    have := h.home he
    rw [home?_of_stmt? hs, hnone] at this
    cases this
  have hanchor : anchor ∈ c.listed d := List.mem_of_getElem? hi
  have hlisted : ∀ e, (c.list d (i + 1) s).listed e =
      (c.listed e).flatMap fun t => if t = anchor then [t, s] else [t] := by
    intro e
    rw [listed_list c d e _ s (isSome_block?_of_mem_listed hanchor)]
    split
    · next heq =>
      subst heq
      exact insertIdx_eq_flatMap (h.nodup d) hi
    · next hne =>
      rw [List.flatMap_congr (g := fun t => [t]) fun t ht => if_neg ?_]
      · simp
      · rintro rfl
        exact hne (Option.some.inj ((h.home hanchor).symm.trans (h.home ht)))
  have hstmt : ∀ t, t ≠ s → (c.list d (i + 1) s).stmt? t = c.stmt? t := by
    intro t ht
    rw [stmt?_list, if_neg (Ne.symm ht)]
  have hnew : (c.list d (i + 1) s).stmt? s = some { stmt with block? := some d } := by
    simp [stmt?_list, hs]
  induction n generalizing b with
  | zero => rfl
  | succ n ih =>
    rw [treeAt, treeAt, hlisted]
    have hl : ∀ t ∈ c.listed b, (c.stmt? t).isSome ∧ t ≠ s := by
      intro t ht
      have hh := h.home ht
      refine ⟨?_, fun e => hfree b (e ▸ ht)⟩
      obtain ⟨u, hu, -⟩ := Option.bind_eq_some_iff.1 hh
      simp [hu]
    generalize c.listed b = l at hl ⊢
    induction l with
    | nil => rfl
    | cons t l ihl =>
      obtain ⟨hsome, hts⟩ := hl t List.mem_cons_self
      obtain ⟨u, hu⟩ := Option.isSome_iff_exists.1 hsome
      have ihl := ihl fun v hv => hl v (List.mem_cons_of_mem t hv)
      have hnode : ∀ rest, (c.list d (i + 1) s).graft ((c.list d (i + 1) s).treeAt n) t rest =
          .cons t u
            ((u.kind.firstBlock?.elim .nil (c.treeAt n)).insertAfter anchor s
              { stmt with block? := some d })
            ((u.kind.secondBlock?.elim .nil (c.treeAt n)).insertAfter anchor s
              { stmt with block? := some d }) rest := by
        intro rest
        rw [graft, hstmt t hts, hu]
        dsimp only
        congr 1
        · cases u.kind.firstBlock? with
          | none => rfl
          | some e => exact ih e
        · cases u.kind.secondBlock? with
          | none => rfl
          | some e => exact ih e
      rw [List.flatMap_cons, List.foldr_append, ihl, List.foldr_cons, graft, hu]
      by_cases hta : t = anchor
      · rw [if_pos hta, List.foldr_cons, List.foldr_cons, List.foldr_nil, hnode, graft, hnew]
        simp [Tree.insertAfter, hta, hfirst, hsecond]
      · rw [if_neg hta, List.foldr_cons, List.foldr_nil, hnode]
        simp [Tree.insertAfter, hta]

/-! ## No statement twice -/

/-- The block `inner` belongs to a statement that the block `outer` lists. -/
def Nests (c : Context) (inner outer : BlockId) : Prop :=
  ∃ s stmt, s ∈ c.listed outer ∧ c.stmt? s = some stmt ∧ inner ∈ stmt.kind.blocks

/-- No block below `b` lies below itself. -/
def FiniteBelow (c : Context) (b : BlockId) : Prop :=
  Acc c.Nests b

/-- No block is nested in one that is below it. -/
theorem FiniteBelow.not_nests {b d : BlockId} (h : c.FiniteBelow b)
    (hd : Relation.ReflTransGen c.Nests b d) : ¬c.Nests d b := by
  intro hn
  have ht : Relation.TransGen c.Nests b b := Relation.TransGen.tail' hd hn
  have hacc : Acc (Relation.TransGen c.Nests) b := h.transGen
  clear h hd hn
  induction hacc with
  | intro b _ ih => exact ih b ht ht

theorem FiniteBelow.of_nests {b : BlockId} (h : c.FiniteBelow b)
    (hn : ∀ d e, c'.Nests d e → c.Nests d e) : c'.FiniteBelow b :=
  Subrelation.accessible (hn _ _) h

/-- Ranks that get smaller with each nesting bound what is below a block. -/
theorem finiteBelow_of_rank (rank : BlockId → Nat) (h : ∀ d e, c.Nests d e → rank d < rank e)
    (b : BlockId) : c.FiniteBelow b :=
  Subrelation.accessible (h _ _) (InvImage.accessible rank (Nat.lt_wfRel.wf.apply _))

/-- A block lies directly in at most one block. -/
theorem Intact.nests_unique (h : c.Intact) : Relator.RightUnique c.Nests := by
  rintro inner d e ⟨s, stmt, hs, hst, hi⟩ ⟨t, stmt', ht, htt, hi'⟩
  obtain rfl : s = t := Option.some.inj ((h.owner hst hi).symm.trans (h.owner htt hi'))
  exact Option.some.inj ((h.home hs).symm.trans (h.home ht))

/-- Nothing lies below two blocks that lie directly in the same block, or in none. -/
theorem Intact.sibling_unique (h : c.Intact) {d e x : BlockId} (hd : c.FiniteBelow d)
    (he : c.FiniteBelow e) (hde : ∀ f, c.Nests d f → c.Nests e f)
    (hed : ∀ f, c.Nests e f → c.Nests d f) (hxd : Relation.ReflTransGen c.Nests x d)
    (hxe : Relation.ReflTransGen c.Nests x e) : d = e := by
  -- a way from one of them to the other leads through the block around both, and round again
  have key : ∀ {d e}, c.FiniteBelow e → (∀ f, c.Nests d f → c.Nests e f) →
      Relation.ReflTransGen c.Nests d e → d = e := by
    intro d e he hsub hpath
    rcases Relation.ReflTransGen.cases_head hpath with heq | ⟨f, hdf, hfe⟩
    · exact heq
    · obtain ⟨g, heg, hge⟩ :=
        Relation.TransGen.tail'_iff.1 (Relation.TransGen.head' (hsub f hdf) hfe)
      exact (he.not_nests heg hge).elim
  rcases Relation.ReflTransGen.total_of_right_unique h.nests_unique hxd hxe with hpath | hpath
  · exact key he hde hpath
  · exact (key hd hed hpath).symm

/-- Only the blocks of the statement that is taken out lose their place. -/
theorem nests_unlist (h : c.Intact) {s : StmtId} {b inner outer : BlockId} {i : Nat}
    (hi : (c.listed b)[i]? = some s) :
    (c.unlist b i s).Nests inner outer ↔ c.Nests inner outer ∧ c.owner? inner ≠ some s := by
  simp only [Nests, listed_unlist_eq_filter h hi, stmt?_unlist, List.mem_filter, bne_iff_ne]
  constructor
  · rintro ⟨t, u, ⟨ht, hne⟩, hu, hb⟩
    rw [if_neg (Ne.symm hne)] at hu
    refine ⟨⟨t, u, ht, hu, hb⟩, ?_⟩
    rw [h.owner hu hb]
    simpa using hne
  · rintro ⟨⟨t, u, ht, hu, hb⟩, hne⟩
    rw [h.owner hu hb] at hne
    have hts : t ≠ s := by simpa using hne
    exact ⟨t, u, ⟨ht, hts⟩, by rw [if_neg (Ne.symm hts), hu], hb⟩

/-- A statement and what is nested in it, down to the given depth. -/
def branchIds (c : Context) (n : Nat) (s : StmtId) : List StmtId :=
  match c.stmt? s with
  | none => []
  | some stmt => s :: stmt.kind.blocks.flatMap fun d => (c.treeAt n d).ids

theorem ids_treeAt_succ (n : Nat) (b : BlockId) :
    (c.treeAt (n + 1) b).ids = (c.listed b).flatMap (c.branchIds n) := by
  rw [treeAt]
  induction c.listed b with
  | nil => rfl
  | cons s l ih =>
    rw [List.foldr_cons, graft, List.flatMap_cons, ← ih, branchIds]
    cases c.stmt? s with
    | none => rfl
    | some stmt =>
      cases h₁ : stmt.kind.firstBlock? <;> cases h₂ : stmt.kind.secondBlock? <;>
        simp [Kind.blocks, h₁, h₂]

/-- A statement of a tree is listed in the block of the tree or in one below it. -/
theorem exists_home_of_mem_ids {n : Nat} {b : BlockId} (h : c.Intact) {s : StmtId}
    (hs : s ∈ (c.treeAt n b).ids) :
    ∃ d, c.home? s = some d ∧ Relation.ReflTransGen c.Nests d b := by
  induction n generalizing b with
  | zero => simp [treeAt] at hs
  | succ n ih =>
    rw [ids_treeAt_succ, List.mem_flatMap] at hs
    obtain ⟨t, ht, hst⟩ := hs
    cases hstmt : c.stmt? t with
    | none => simp [branchIds, hstmt] at hst
    | some stmt =>
      simp only [branchIds, hstmt, List.mem_cons, List.mem_flatMap] at hst
      rcases hst with rfl | ⟨d, hd, hsd⟩
      · exact ⟨b, h.home ht, .refl⟩
      · obtain ⟨e, he, hed⟩ := ih hsd
        exact ⟨e, he, hed.tail ⟨t, stmt, ht, hstmt, hd⟩⟩

theorem nodup_ids_treeAt (h : c.Intact) {b : BlockId} (hb : c.FiniteBelow b) (n : Nat) :
    (c.treeAt n b).ids.Nodup := by
  induction n generalizing b with
  | zero => simp [treeAt]
  | succ n ih =>
    -- two blocks directly below `b` have no statement in common
    have hdisj : ∀ {d e x}, c.Nests d b → c.Nests e b → x ∈ (c.treeAt n d).ids →
        x ∈ (c.treeAt n e).ids → d = e := by
      intro d e x hd he hxd hxe
      obtain ⟨y, hy, hyd⟩ := exists_home_of_mem_ids h hxd
      obtain ⟨z, hz, hze⟩ := exists_home_of_mem_ids h hxe
      obtain rfl : y = z := Option.some.inj (hy.symm.trans hz)
      exact h.sibling_unique (hb.inv hd) (hb.inv he) (fun f hf => h.nests_unique hd hf ▸ he)
        (fun f hf => h.nests_unique he hf ▸ hd) hyd hze
    -- no statement that `b` lists occurs below `b`
    have htop : ∀ {d x}, c.Nests d b → x ∈ c.listed b → x ∉ (c.treeAt n d).ids := by
      intro d x hd hx hxd
      obtain ⟨y, hy, hyd⟩ := exists_home_of_mem_ids h hxd
      obtain rfl : b = y := Option.some.inj ((h.home hx).symm.trans hy)
      exact hb.not_nests hyd hd
    rw [ids_treeAt_succ, List.nodup_flatMap]
    refine ⟨fun s hs => ?_, ?_⟩
    · cases hstmt : c.stmt? s with
      | none => simp [branchIds, hstmt]
      | some stmt =>
        have hnests : ∀ d ∈ stmt.kind.blocks, c.Nests d b := fun d hd => ⟨s, stmt, hs, hstmt, hd⟩
        simp only [branchIds, hstmt, List.nodup_cons, List.mem_flatMap, List.nodup_flatMap]
        refine ⟨?_, fun d hd => ih (hb.inv (hnests d hd)), ?_⟩
        · rintro ⟨d, hd, hsd⟩
          exact htop (hnests d hd) hs hsd
        · refine (h.distinct hstmt).pairwise_of_forall_ne fun d hd e he hne => ?_
          intro x hxd hxe
          exact hne (hdisj (hnests d hd) (hnests e he) hxd hxe)
    · refine (h.nodup b).pairwise_of_forall_ne fun s hs t ht hne => ?_
      intro x hxs hxt
      cases hs' : c.stmt? s with
      | none => simp [branchIds, hs'] at hxs
      | some u =>
        cases ht' : c.stmt? t with
        | none => simp [branchIds, ht'] at hxt
        | some v =>
          simp only [branchIds, hs', ht', List.mem_cons, List.mem_flatMap] at hxs hxt
          rcases hxs with rfl | ⟨d, hd, hxd⟩
          · rcases hxt with rfl | ⟨e, he, hxe⟩
            · exact hne rfl
            · exact htop ⟨t, v, ht, ht', he⟩ hs hxe
          · rcases hxt with rfl | ⟨e, he, hxe⟩
            · exact htop ⟨s, u, hs, hs', hd⟩ ht hxd
            · obtain rfl := hdisj ⟨s, u, hs, hs', hd⟩ ⟨t, v, ht, ht', he⟩ hxd hxe
              exact hne (Option.some.inj ((h.owner hs' hd).symm.trans (h.owner ht' he)))

end Context

end KernelIR
