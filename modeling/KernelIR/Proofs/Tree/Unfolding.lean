import KernelIR.Proofs.Erasure

/-!
# Trees as unfoldings

A tree unfolds a list of statements (`Tree.Unfolds`) if it holds just these, each with the trees
that the statements listed in its blocks unfold to. The tree below a block unfolds the statements
listed there (`Context.unfolds_tree`), and the tree of a statement unfolds that statement
(`Context.unfolds_stmtTree`), if no block lies below itself there.

An unfolding holds its statements and all that is nested in them (`Tree.Unfolds.mem_ids_iff`), so
its parts are apart (`Context.Apart`) : nothing in one of them is nested in a statement of another.
-/

namespace KernelIR

/-- The tree holds the statements `l` of the context with everything that is nested in them. -/
inductive Tree.Unfolds (c : Context) : Tree → List StmtId → Prop where
  | nil : Unfolds c .nil []
  | cons {id : StmtId} {stmt : Stmt} {first second rest : Tree} {l : List StmtId}
    (present : c.stmt? id = some stmt)
    (nested₁ : Unfolds c first (stmt.kind.firstBlock?.elim [] c.listed))
    (nested₂ : Unfolds c second (stmt.kind.secondBlock?.elim [] c.listed))
    (behind : Unfolds c rest l) : Unfolds c (.cons id stmt first second rest) (id :: l)

/-- Nothing in `w` is nested in a statement of `l`. -/
def Context.Apart (c : Context) (l w : List StmtId) : Prop :=
  ∀ s ∈ l, ∀ v ∈ w, ¬c.Nested s v

theorem Context.Apart.append {c : Context} {l l' w : List StmtId} (h : c.Apart l w)
    (h' : c.Apart l' w) : c.Apart (l ++ l') w :=
  List.forall_mem_append.2 ⟨h, h'⟩

/-- A statement with its blocks `first` and `second` and the statements `rest` behind it : what is
nested in the statement is in its blocks, and else nothing in one of the parts is nested in a
statement of another. -/
structure Context.Parted (c : Context) (id : StmtId) (first second rest : List StmtId) : Prop where
  nested : ∀ v, c.Nested id v ↔ v ∈ first ++ second
  self : c.Apart [id] (id :: rest)
  above : c.Apart (first ++ second ++ rest) [id]
  first_second : c.Apart first second
  second_first : c.Apart second first
  blocks_rest : c.Apart (first ++ second) rest
  rest_blocks : c.Apart rest (first ++ second)

namespace Context

variable {c : Context} {b d e : BlockId} {s u v : StmtId} {stmt : Stmt}

/-! ## What is nested where -/

/-- What stands below a block is listed there, or is nested in a statement that is. -/
theorem Intact.below_iff (h : c.Intact) :
    c.Below d v ↔ ∃ u ∈ c.listed d, v = u ∨ c.Nested u v := by
  constructor
  · rintro ⟨e, hv, hpath⟩
    rcases Relation.ReflTransGen.cases_tail hpath with rfl | ⟨f, hpath, u, stmt, hu, hstmt, hf⟩
    · exact ⟨v, hv, .inl rfl⟩
    · exact ⟨u, hu, .inr ⟨f, h.owner hstmt hf, e, hv, hpath⟩⟩
  · rintro ⟨u, hu, rfl | ⟨f, hf, e, hv, hpath⟩⟩
    · exact ⟨d, hu, .refl⟩
    · obtain ⟨stmt, hstmt, hblock⟩ := h.owned hf
      exact ⟨e, hv, hpath.tail ⟨u, stmt, hu, hstmt, hblock⟩⟩

/-- What is nested in a statement is listed in one of its blocks, or is nested in a statement that
is. -/
theorem Intact.nested_iff (h : c.Intact) (hs : c.stmt? s = some stmt) : c.Nested s v ↔
    (∃ u ∈ stmt.kind.firstBlock?.elim [] c.listed, v = u ∨ c.Nested u v) ∨
      ∃ u ∈ stmt.kind.secondBlock?.elim [] c.listed, v = u ∨ c.Nested u v := by
  have hblocks : c.Nested s v ↔ ∃ d ∈ stmt.kind.blocks, c.Below d v := by
    constructor
    · rintro ⟨d, hd, hv⟩
      obtain ⟨stmt', hs', hblock⟩ := h.owned hd
      obtain rfl := Option.some.inj (hs'.symm.trans hs)
      exact ⟨d, hblock, hv⟩
    · rintro ⟨d, hblock, hv⟩
      exact ⟨d, h.owner hs hblock, hv⟩
  simp only [hblocks, h.below_iff]
  cases h₁ : stmt.kind.firstBlock? <;> cases h₂ : stmt.kind.secondBlock? <;>
    simp [Kind.blocks, h₁, h₂]

theorem Intact.nested_trans (h : c.Intact) (hu : c.Nested s u) (hv : c.Nested u v) :
    c.Nested s v := by
  obtain ⟨d, hd, e, hue, hpath⟩ := hu
  obtain ⟨f, hf, g, hvg, hpath'⟩ := hv
  obtain ⟨stmt, hstmt, hblock⟩ := h.owned hf
  exact ⟨d, hd, g, hvg, (hpath'.tail ⟨u, stmt, hue, hstmt, hblock⟩).trans hpath⟩

/-! ## The trees of a context are unfoldings -/

/-- Statements whose blocks unfold to the trees below them unfold to the tree made of these. -/
theorem unfolds_foldr {l : List StmtId} (hl : ∀ s ∈ l, ∃ stmt, c.stmt? s = some stmt ∧
    ∀ d ∈ stmt.kind.blocks, (c.tree d).Unfolds c (c.listed d)) :
    (l.foldr (c.graft c.tree) .nil).Unfolds c l := by
  induction l with
  | nil => exact .nil
  | cons s l ih =>
    obtain ⟨stmt, hs, hblocks⟩ := hl s List.mem_cons_self
    have hbehind := ih fun t ht => hl t (List.mem_cons_of_mem s ht)
    have hnested : ∀ block? : Option BlockId, (∀ d ∈ block?, d ∈ stmt.kind.blocks) →
        (block?.elim .nil c.tree).Unfolds c (block?.elim [] c.listed) := by
      rintro (- | d) hd
      · exact .nil
      · exact hblocks d (hd d rfl)
    rw [List.foldr_cons, graft, hs]
    refine .cons hs (hnested _ fun d hd => ?_) (hnested _ fun d hd => ?_) hbehind <;>
      simp [Kind.blocks, Option.mem_def.1 hd]

theorem unfolds_tree (h : c.Intact) (hf : c.FiniteBelow b) :
    (c.tree b).Unfolds c (c.listed b) := by
  have hacc : Acc c.Nests b := hf
  induction hacc with
  | intro b _ ih =>
    rw [tree_eq hf]
    refine unfolds_foldr fun s hs => ?_
    obtain ⟨stmt, hstmt, -⟩ := h.exists_stmt? hs
    refine ⟨stmt, hstmt, fun d hd => ?_⟩
    have hnests : c.Nests d b := ⟨s, stmt, hs, hstmt, hd⟩
    exact ih d hnests (hf.inv hnests)

theorem unfolds_stmtTree (h : c.Intact) (hs : c.stmt? s = some stmt)
    (hf : ∀ d ∈ stmt.kind.blocks, c.FiniteBelow d) : (c.stmtTree s).Unfolds c [s] := by
  refine unfolds_foldr (l := [s]) fun t ht => ?_
  obtain rfl := List.mem_singleton.1 ht
  exact ⟨stmt, hs, fun d hd => unfolds_tree h (hf d hd)⟩

/-! ## No statement twice -/

/-- Nothing stands below two blocks of a statement. -/
theorem Intact.block_unique (h : c.Intact) (hfd : c.FiniteBelow d) (hfe : c.FiniteBelow e)
    (hd : c.owner? d = some s) (he : c.owner? e = some s) (hvd : c.Below d v)
    (hve : c.Below e v) : d = e := by
  have hsub : ∀ {d e}, c.owner? d = some s → c.owner? e = some s →
      ∀ f, c.Nests d f → c.Nests e f := by
    rintro d e hd he f ⟨t, stmt, ht, hstmt, hblock⟩
    obtain rfl : t = s := Option.some.inj ((h.owner hstmt hblock).symm.trans hd)
    obtain ⟨stmt', hstmt', hblock'⟩ := h.owned he
    exact ⟨t, stmt', ht, hstmt', hblock'⟩
  obtain ⟨x, hx, hxd⟩ := hvd
  obtain ⟨y, hy, hye⟩ := hve
  obtain rfl : x = y := Option.some.inj ((h.home hx).symm.trans (h.home hy))
  exact h.sibling_unique hfd hfe (hsub hd he) (hsub he hd) hxd hye

theorem nodup_ids_stmtTree (h : c.Intact) (hs : c.stmt? s = some stmt)
    (hf : ∀ d ∈ stmt.kind.blocks, c.FiniteBelow d) : (c.stmtTree s).ids.Nodup := by
  have hids : (c.stmtTree s).ids = s :: stmt.kind.blocks.flatMap fun d => (c.tree d).ids := by
    rw [stmtTree, graft, hs]
    cases h₁ : stmt.kind.firstBlock? <;> cases h₂ : stmt.kind.secondBlock? <;>
      simp [Kind.blocks, h₁, h₂]
  have howned : ∀ d, c.owner? d = some s → c.FiniteBelow d := by
    intro d hd
    obtain ⟨stmt', hs', hblock⟩ := h.owned hd
    obtain rfl := Option.some.inj (hs'.symm.trans hs)
    exact hf d hblock
  rw [hids, List.nodup_cons, List.nodup_flatMap]
  refine ⟨fun hmem => ?_, fun d hd => nodup_ids_treeAt h (hf d hd) _, ?_⟩
  · obtain ⟨d, hd, hsd⟩ := List.mem_flatMap.1 hmem
    exact h.not_nested_of_finite howned ⟨d, h.owner hs hd, (mem_ids_tree_iff h (hf d hd)).1 hsd⟩
  · refine (h.distinct hs).pairwise_of_forall_ne fun d hd e he hne v hvd hve => ?_
    exact hne (h.block_unique (hf d hd) (hf e he) (h.owner hs hd) (h.owner hs he)
      ((mem_ids_tree_iff h (hf d hd)).1 hvd) ((mem_ids_tree_iff h (hf e he)).1 hve))

end Context

/-! ## What an unfolding holds -/

namespace Tree

variable {c : Context} {t : Tree} {l : List StmtId} {s v : StmtId} {stmt : Stmt}

theorem Unfolds.mem_ids_iff (h : c.Intact) (ht : t.Unfolds c l) :
    v ∈ t.ids ↔ ∃ s ∈ l, v = s ∨ c.Nested s v := by
  induction ht with
  | nil => simp
  | @cons id stmt first second rest l present _ _ _ ih₁ ih₂ ih₃ =>
    rw [List.exists_mem_cons_iff, h.nested_iff present, ← ih₁, ← ih₂, ← ih₃]
    simp only [ids_cons, List.mem_cons, List.mem_append, or_assoc]

/-- What is nested in a statement of an unfolding is in it as well. -/
theorem Unfolds.mem_ids_of_nested (h : c.Intact) (ht : t.Unfolds c l) (hs : s ∈ t.ids)
    (hv : c.Nested s v) : v ∈ t.ids := by
  rw [ht.mem_ids_iff h] at hs ⊢
  obtain ⟨u, hu, rfl | hsu⟩ := hs
  · exact ⟨_, hu, .inr hv⟩
  · exact ⟨u, hu, .inr (h.nested_trans hsu hv)⟩

/-- Nothing outside an unfolding is nested in one of its statements. -/
theorem Unfolds.apart (h : c.Intact) (ht : t.Unfolds c l) {w : List StmtId}
    (hdisj : List.Disjoint t.ids w) : c.Apart t.ids w :=
  fun _ hs _ hv hnested => hdisj (ht.mem_ids_of_nested h hs hnested) hv

/-- The parts of an unfolding that holds no statement twice. -/
theorem Unfolds.parted {id : StmtId} {first second rest : Tree} (h : c.Intact)
    (present : c.stmt? id = some stmt)
    (h₁ : first.Unfolds c (stmt.kind.firstBlock?.elim [] c.listed))
    (h₂ : second.Unfolds c (stmt.kind.secondBlock?.elim [] c.listed)) (h₃ : rest.Unfolds c l)
    (hn : (Tree.cons id stmt first second rest).ids.Nodup) :
    c.Parted id first.ids second.ids rest.ids := by
  rw [ids_cons, List.nodup_cons, List.nodup_append', List.nodup_append'] at hn
  obtain ⟨hid, ⟨-, -, hdisj⟩, -, hdisj'⟩ := hn
  simp only [List.mem_append, not_or] at hid
  have hnested : ∀ v, c.Nested id v ↔ v ∈ first.ids ++ second.ids := fun v => by
    rw [h.nested_iff present, List.mem_append, h₁.mem_ids_iff h, h₂.mem_ids_iff h]
  have hdisj₃ := List.disjoint_append_left.1 hdisj'
  refine ⟨hnested, ?_, ?_, h₁.apart h hdisj, h₂.apart h hdisj.symm, ?_, h₃.apart h hdisj'.symm⟩
  · intro s hs v hv hsv
    obtain rfl := List.mem_singleton.1 hs
    have hv' := (hnested v).1 hsv
    rcases List.mem_cons.1 hv with rfl | hv
    · exact (List.mem_append.1 hv').elim hid.1.1 hid.1.2
    · exact hdisj' hv' hv
  · exact ((h₁.apart h (List.disjoint_singleton.2 hid.1.1)).append
      (h₂.apart h (List.disjoint_singleton.2 hid.1.2))).append
      (h₃.apart h (List.disjoint_singleton.2 hid.2))
  · exact (h₁.apart h hdisj₃.1).append (h₂.apart h hdisj₃.2)

end Tree

end KernelIR
