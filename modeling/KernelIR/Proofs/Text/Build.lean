import KernelIR.Proofs.Text.Resolve
import KernelIR.Proofs.Tree.Placement

/-!
# What resolving builds

`Draft.build` says what a draft becomes without a context : the tree of its statements, or the
first error in it. Statements and blocks are numbered in the order in which they are made, so
all that it needs of the context are the next numbers. What is built of a statement and of what
follows is said in one place (`Draft.build_cons_eq_ok_iff`).

Resolving a draft in a context comes to just that (`Draft.yields_resolve`). It is never refused,
it adds statements to one block and leaves all others as they were (`Context.Extends`), and the
tree stands in the context that it leads to (`Tree.Stands`).
-/

namespace KernelIR

/-- The tree of a draft in the block `b`, if the next statement has number `n` and the next block
number `m`, and the next numbers after it. -/
def Draft.build : Draft → Names → BlockId → Nat → Nat → Except ResolveError (Tree × Nat × Nat)
  | .nil, _, _, n, m => pure (.nil, n, m)
  | .cons head first second rest, names, b, n, m => do
    let (type?, shape) ← head.shape names
    let (kind, t₁, t₂, n, m) ← match shape with
      | .plain kind => pure (kind, Tree.nil, Tree.nil, n, m)
      | .body kind => do
        let (t₁, n, m₁) ← first.build names ⟨m⟩ n (m + 1)
        pure (kind ⟨m⟩, t₁, .nil, n, m₁)
      | .branch kind otherwise => do
        let (t₁, n, m₁) ← first.build names ⟨m⟩ n (m + 1)
        if otherwise then do
          let (t₂, n, m₂) ← second.build names ⟨m₁⟩ n (m₁ + 1)
          pure (kind ⟨m⟩ (some ⟨m₁⟩), t₁, t₂, n, m₂)
        else pure (kind ⟨m⟩ none, t₁, .nil, n, m₁)
    let names ← names.bind ⟨n⟩ head.result?
    let built ← rest.build names b (n + 1) m
    return (.cons ⟨n⟩ ⟨kind, type?, some b⟩ t₁ t₂ built.1, built.2)

namespace Draft

/-- How the blocks of a statement are built : the kind of the statement, the trees in its blocks,
and the next numbers behind them. -/
inductive BuildsBlocks (first second : Draft) (names : Names) (n m : Nat) :
    Shape → Kind → Tree → Tree → Nat → Nat → Prop where
  | plain (kind : Kind) : BuildsBlocks first second names n m (.plain kind) kind .nil .nil n m
  | body (kind : BlockId → Kind) {v₁ : Tree × Nat × Nat}
    (hfirst : first.build names ⟨m⟩ n (m + 1) = .ok v₁) :
    BuildsBlocks first second names n m (.body kind) (kind ⟨m⟩) v₁.1 .nil v₁.2.1 v₁.2.2
  | ifThen (kind : BlockId → Option BlockId → Kind) {v₁ : Tree × Nat × Nat}
    (hfirst : first.build names ⟨m⟩ n (m + 1) = .ok v₁) :
    BuildsBlocks first second names n m (.branch kind false) (kind ⟨m⟩ none) v₁.1 .nil v₁.2.1 v₁.2.2
  | ifThenElse (kind : BlockId → Option BlockId → Kind) {v₁ v₂ : Tree × Nat × Nat}
    (hfirst : first.build names ⟨m⟩ n (m + 1) = .ok v₁)
    (hsecond : second.build names ⟨v₁.2.2⟩ v₁.2.1 (v₁.2.2 + 1) = .ok v₂) :
    BuildsBlocks first second names n m (.branch kind true) (kind ⟨m⟩ (some ⟨v₁.2.2⟩)) v₁.1 v₂.1
      v₂.2.1 v₂.2.2

/-- A statement is built with its blocks, and then what follows. -/
theorem build_cons_eq_ok_iff {head : Head} {first second rest : Draft} {names : Names} {b : BlockId}
    {n m : Nat} {v : Tree × Nat × Nat} : (cons head first second rest).build names b n m = .ok v ↔
      ∃ type? shape kind t₁ t₂ n₁ m₁ names' v₃, head.shape names = .ok (type?, shape) ∧
        BuildsBlocks first second names n m shape kind t₁ t₂ n₁ m₁ ∧
        names.bind ⟨n₁⟩ head.result? = .ok names' ∧ rest.build names' b (n₁ + 1) m₁ = .ok v₃ ∧
        (.cons ⟨n₁⟩ ⟨kind, type?, some b⟩ t₁ t₂ v₃.1, v₃.2) = v := by
  rw [build]
  constructor
  · intro h
    obtain ⟨⟨type?, shape⟩, hshape, h⟩ := exists_of_bind_eq_ok h
    obtain ⟨kind, t₁, t₂, n₁, m₁, hblocks, h⟩ : ∃ kind t₁ t₂ n₁ m₁,
        BuildsBlocks first second names n m shape kind t₁ t₂ n₁ m₁ ∧ (do
          let names ← names.bind ⟨n₁⟩ head.result?
          let built ← rest.build names b (n₁ + 1) m₁
          return (Tree.cons ⟨n₁⟩ ⟨kind, type?, some b⟩ t₁ t₂ built.1, built.2)) = .ok v := by
      cases shape with
      | plain kind => exact ⟨_, _, _, _, _, .plain kind, h⟩
      | body kind =>
        obtain ⟨v₁, hfirst, h⟩ := exists_of_bind_eq_ok h
        exact ⟨_, _, _, _, _, .body kind hfirst, h⟩
      | branch kind otherwise =>
        obtain ⟨v₁, hfirst, h⟩ := exists_of_bind_eq_ok h
        cases otherwise with
        | false => exact ⟨_, _, _, _, _, .ifThen kind hfirst, h⟩
        | true =>
          obtain ⟨v₂, hsecond, h⟩ := exists_of_bind_eq_ok h
          exact ⟨_, _, _, _, _, .ifThenElse kind hfirst hsecond, h⟩
    obtain ⟨names', hbind, h⟩ := exists_of_bind_eq_ok h
    obtain ⟨v₃, hrest, h⟩ := exists_of_bind_eq_ok h
    exact ⟨type?, shape, kind, t₁, t₂, n₁, m₁, names', v₃, hshape, hblocks, hbind, hrest,
      Except.ok.inj h⟩
  · rintro ⟨type?, shape, kind, t₁, t₂, n₁, m₁, names', v₃, hshape, hblocks, hbind, hrest, rfl⟩
    cases hblocks <;>
      simp only [*, bind, Except.bind, pure, Except.pure, if_true, Bool.false_eq_true, if_false]

end Draft

/-! ## Growing contexts -/

namespace Context

/-- The context has grown, and of the old blocks only `b` has changed : the statements `l` have
been put at its end. -/
structure Extends (c : Context) (b : BlockId) (l : List StmtId) (c' : Context) : Prop where
  stmts : ∀ {s stmt}, c.stmt? s = some stmt → c'.stmt? s = some stmt
  size : c.blocks.size ≤ c'.blocks.size
  others : ∀ {d : BlockId}, d.index < c.blocks.size → d ≠ b → c'.listed d = c.listed d
  owners : ∀ {d : BlockId}, d.index < c.blocks.size → c'.owner? d = c.owner? d
  appended : c'.listed b = c.listed b ++ l

variable {c c' c'' : Context} {b : BlockId}

theorem Extends.refl (c : Context) (b : BlockId) : c.Extends b [] c :=
  ⟨id, Nat.le_refl _, fun _ _ => rfl, fun _ => rfl, (List.append_nil _).symm⟩

theorem Extends.trans {l l' : List StmtId} (h : c.Extends b l c') (h' : c'.Extends b l' c'') :
    c.Extends b (l ++ l') c'' where
  stmts hs := h'.stmts (h.stmts hs)
  size := Nat.le_trans h.size h'.size
  others hd hne := (h'.others (Nat.lt_of_lt_of_le hd h.size) hne).trans (h.others hd hne)
  owners hd := (h'.owners (Nat.lt_of_lt_of_le hd h.size)).trans (h.owners hd)
  appended := by rw [h'.appended, h.appended, List.append_assoc]

/-- Filling a new block leaves all old ones. -/
theorem Extends.fill {d : BlockId} {l : List StmtId}
    (h : ({ c with blocks := c.blocks.push ⟨[], none⟩ } : Context).Extends d l c')
    (hd : d.index = c.blocks.size) (hb : b.index < c.blocks.size) : c.Extends b [] c' := by
  have hblock : ∀ e : BlockId, e.index < c.blocks.size →
      ({ c with blocks := c.blocks.push ⟨[], none⟩ } : Context).block? e = c.block? e := by
    intro e he
    simp [block?, Array.getElem?_push, Nat.ne_of_lt he]
  have hlt : ∀ e : BlockId, e.index < c.blocks.size →
    e.index < (c.blocks.push ⟨[], none⟩).size := by
    intro e he
    rw [Array.size_push]
    exact Nat.lt_succ_of_lt he
  have hne : ∀ e : BlockId, e.index < c.blocks.size → e ≠ d := by
    rintro e he rfl
    exact Nat.ne_of_lt he hd
  have hlisted : ∀ e : BlockId, e.index < c.blocks.size → c'.listed e = c.listed e := by
    intro e he
    rw [h.others (hlt e he) (hne e he), listed, hblock e he, listed]
  refine ⟨h.stmts, Nat.le_trans ?_ h.size, fun he _ => hlisted _ he, fun {e} he => ?_, ?_⟩
  · simp
  · rw [h.owners (hlt e he), owner?, hblock e he, owner?]
  · rw [hlisted b hb, List.append_nil]

/-! ## Operations that are not refused -/

theorem exists_claim {bs : List BlockId} (hbs : bs.Nodup)
    (h : ∀ b ∈ bs, b.index < c.blocks.size ∧ c.owner? b = none) (taker : StmtId) :
    ∃ c', claim taker bs c = .ok c' := by
  induction bs generalizing c with
  | nil => exact ⟨c, rfl⟩
  | cons b bs ih =>
    obtain ⟨hb, hbs⟩ := List.nodup_cons.1 hbs
    obtain ⟨hlt, hfree⟩ := h b List.mem_cons_self
    obtain ⟨block, hblock⟩ := Option.isSome_iff_exists.1 (isSome_block?_iff.2 hlt)
    have howner : block.owner? = none := by simpa [owner?, hblock] using hfree
    unfold claim
    rw [hblock]
    simp only [howner]
    refine ih hbs fun d hd => ⟨?_, ?_⟩
    · simpa [modifyBlock] using (h d (List.mem_cons_of_mem b hd)).1
    · have hne : b ≠ d := fun heq => hb (heq ▸ hd)
      rw [owner?, block?_modifyBlock, if_neg hne]
      exact (h d (List.mem_cons_of_mem b hd)).2

theorem exists_createStmt {kind : Kind} (hblocks : kind.blocks.Nodup)
    (h : ∀ b ∈ kind.blocks, b.index < c.blocks.size ∧ c.owner? b = none)
    (type? : Option ValueType) :
    ∃ s c', createStmt kind type? c = .ok (s, c') := by
  obtain ⟨c₁, hc₁⟩ := exists_claim
    (c := { c with stmts := c.stmts.push ⟨kind, type?, none⟩ }) hblocks h ⟨c.stmts.size⟩
  unfold createStmt
  dsimp only
  rw [hc₁]
  exact ⟨_, _, rfl⟩

theorem push_of_stmt? {s : StmtId} {stmt : Stmt} {block : Block} (hs : c.stmt? s = some stmt)
    (hnone : stmt.block? = none) (hb : c.block? b = some block) :
    push b s c = .ok ((), c.list b block.stmts.length s) := by
  unfold push
  rw [hs]
  simp only [hnone, hb]

/-- A new statement at the end of a block. -/
theorem exists_append {kind : Kind} (hblocks : kind.blocks.Nodup)
    (h : ∀ d ∈ kind.blocks, d.index < c.blocks.size ∧ c.owner? d = none) (type? : Option ValueType)
    (hb : b.index < c.blocks.size) : ∃ c₁ c₂, createStmt kind type? c = .ok (⟨c.stmts.size⟩, c₁) ∧
      push b ⟨c.stmts.size⟩ c₁ = .ok ((), c₂) ∧
      c₂.stmt? ⟨c.stmts.size⟩ = some ⟨kind, type?, some b⟩ ∧ c₂.stmts.size = c.stmts.size + 1 ∧
      c₂.blocks.size = c.blocks.size ∧
        (∀ {s stmt}, c.stmt? s = some stmt → c₂.stmt? s = some stmt) ∧
      (∀ d, d ≠ b → c₂.listed d = c.listed d) ∧ c₂.listed b = c.listed b ++ [⟨c.stmts.size⟩] ∧
      ∀ d, d ∉ kind.blocks → c₂.owner? d = c.owner? d := by
  obtain ⟨s, c₁, hc₁⟩ := exists_createStmt hblocks h type?
  have hcr := createStmt_eq_ok hc₁
  obtain rfl := hcr.id_eq
  have hstmt : c₁.stmt? ⟨c.stmts.size⟩ = some ⟨kind, type?, none⟩ := by
    rw [hcr.stmt?, if_pos rfl]
  have hsome : (c₁.block? b).isSome = true :=
    isSome_block?_iff.2 (by rw [hcr.blocks_size]; exact hb)
  obtain ⟨block, hblock⟩ := Option.isSome_iff_exists.1 hsome
  refine ⟨c₁, _, hc₁, push_of_stmt? hstmt rfl hblock, ?_, ?_, ?_, fun {t stmt} ht => ?_,
    fun d hd => ?_,
    ?_, fun d hd => ?_⟩
  · rw [stmt?_list, if_pos rfl, hstmt]
    rfl
  · simp [list, modifyBlock, modifyStmt, hcr.stmts_size]
  · simp [list, modifyBlock, modifyStmt, hcr.blocks_size]
  · have hne : (⟨c.stmts.size⟩ : StmtId) ≠ t := by
      rintro rfl
      simp [stmt?] at ht
    rw [stmt?_list, if_neg hne, hcr.stmt?, if_neg hne.symm, ht]
  · rw [listed_list _ _ _ _ _ hsome, if_neg hd.symm, hcr.listed]
  · have hlength : block.stmts.length = (c₁.listed b).length := by simp [listed, hblock]
    rw [listed_list _ _ _ _ _ hsome, if_pos rfl, hlength, List.insertIdx_length_self, hcr.listed]
  · rw [owner?_list, hcr.owner?, if_neg hd]

end Context

/-- The statements `l`, listed in the block `b` or in a part of it, are the tree. Blocks have
higher numbers than those they lie below. -/
inductive Tree.Stands (c : Context) : Tree → BlockId → List StmtId → Prop where
  | nil {b : BlockId} : Stands c .nil b []
  | cons {b : BlockId} {id : StmtId} {stmt : Stmt} {first second rest : Tree} {l : List StmtId}
    (present : c.stmt? id = some stmt)
    (below : ∀ d ∈ stmt.kind.blocks, b.index < d.index ∧ d.index < c.blocks.size)
    (none₁ : stmt.kind.firstBlock? = none → first = .nil)
    (none₂ : stmt.kind.secondBlock? = none → second = .nil)
    (nested₁ : ∀ d, stmt.kind.firstBlock? = some d → Stands c first d (c.listed d))
    (nested₂ : ∀ d, stmt.kind.secondBlock? = some d → Stands c second d (c.listed d))
    (behind : Stands c rest b l) : Stands c (.cons id stmt first second rest) b (id :: l)

namespace Tree

variable {c c' : Context} {b : BlockId} {t : Tree} {l : List StmtId}

/-- A tree is left standing if the blocks with higher numbers than its own stay as they are. -/
theorem Stands.mono (h : t.Stands c b l)
    (hs : ∀ {s stmt}, c.stmt? s = some stmt → c'.stmt? s = some stmt)
    (hsize : c.blocks.size ≤ c'.blocks.size)
    (hlisted : ∀ d : BlockId, b.index < d.index → d.index < c.blocks.size →
      c'.listed d = c.listed d) : t.Stands c' b l := by
  induction h with
  | nil => exact .nil
  | @cons b id stmt _ _ _ l present below none₁ none₂ _ _ _ ih₁ ih₂ ih₃ =>
    have hnested : ∀ d ∈ stmt.kind.blocks, c'.listed d = c.listed d ∧
        ∀ e : BlockId, d.index < e.index → e.index < c.blocks.size → c'.listed e = c.listed e :=
      fun d hd => ⟨hlisted d (below d hd).1 (below d hd).2,
        fun e he => hlisted e (Nat.lt_trans (below d hd).1 he)⟩
    refine .cons (hs present) (fun d hd =>
      ⟨(below d hd).1, Nat.lt_of_lt_of_le (below d hd).2 hsize⟩)
      none₁ none₂ (fun d hd => ?_) (fun d hd => ?_) (ih₃ hlisted)
    · obtain ⟨hself, habove⟩ := hnested d (by simp [Kind.blocks, hd])
      rw [hself]
      exact ih₁ d hd habove
    · obtain ⟨hself, habove⟩ := hnested d (by simp [Kind.blocks, hd])
      rw [hself]
      exact ih₂ d hd habove

/-- A tree that stands is the tree of its context. -/
theorem Stands.foldr_graft (h : t.Stands c b l) (hf : ∀ d, c.FiniteBelow d) :
    l.foldr (c.graft c.tree) .nil = t := by
  induction h with
  | nil => rfl
  | @cons b id stmt first second _ l present _ none₁ none₂ _ _ _ ih₁ ih₂ ih₃ =>
    have h₁ : stmt.kind.firstBlock?.elim .nil c.tree = first := by
      cases hd : stmt.kind.firstBlock? with
      | none => exact (none₁ hd).symm
      | some d => exact (Context.tree_eq (hf d)).trans (ih₁ d hd)
    have h₂ : stmt.kind.secondBlock?.elim .nil c.tree = second := by
      cases hd : stmt.kind.secondBlock? with
      | none => exact (none₂ hd).symm
      | some d => exact (Context.tree_eq (hf d)).trans (ih₂ d hd)
    rw [List.foldr_cons, ih₃, Context.graft, present]
    simp only [h₁, h₂]

end Tree

/-! ## Resolving -/

namespace Resolve

variable {α β γ δ : Type} {c : Context}

/-- The computation is not refused, and comes to what `e` says : the same error, or values that
go with each other and with the context it leads to. -/
def Yields (x : Resolve α) (c : Context) (e : Except ResolveError β)
    (post : α → β → Context → Prop) : Prop :=
  ∃ r c', x.run c = .ok (r, c') ∧ (∀ err, e = .error err → r = .error err) ∧
    ∀ v, e = .ok v → ∃ a, r = .ok a ∧ post a v c'

theorem Yields.pure {a : α} {v : β} {post : α → β → Context → Prop} (h : post a v c) :
    Yields (pure a) c (Pure.pure v) post :=
  ⟨.ok a, c, rfl, nofun, fun _ hw => ⟨a, rfl, Except.ok.inj hw ▸ h⟩⟩

theorem Yields.bind {x : Resolve α} {f : α → Resolve γ} {e : Except ResolveError β}
    {g : β → Except ResolveError δ} {m : α → β → Context → Prop} {post : γ → δ → Context → Prop}
    (hx : Yields x c e m)
    (hf : ∀ a v c', m a v c' → Yields (f a) c' (g v) post) : Yields (x >>= f) c (e >>= g) post := by
  obtain ⟨r, c₁, hrun, herror, hok⟩ := hx
  cases e with
  | error err =>
    obtain rfl := herror err rfl
    exact ⟨_, _, run_bind_of_error hrun, fun e he =>
      congrArg Except.error (Except.error.inj he), nofun⟩
  | ok v =>
    obtain ⟨a, rfl, hmid⟩ := hok v rfl
    obtain ⟨r, c', hrun', h⟩ := hf a v c₁ hmid
    exact ⟨r, c', (run_bind_of_ok hrun).trans hrun', h⟩

theorem Yields.pure_bind {a : α} {f : α → Resolve γ} {e : Except ResolveError β}
    {post : γ → β → Context → Prop} (h : Yields (f a) c e post) :
      Yields (Pure.pure a >>= f) c e post := by
  rwa [LawfulMonad.pure_bind]

/-- What does not touch the context. -/
theorem Yields.ofExcept (e : Except ResolveError α) :
    Yields (ExceptT.mk (Pure.pure e)) c e fun a v c' => e = .ok v ∧ a = v ∧ c' = c :=
  ⟨e, c, rfl, fun _ h => h, fun v hv => ⟨v, hv, hv, rfl, rfl⟩⟩

/-- An operation that is not refused. -/
theorem Yields.lift {x : Edit α} {f : α → Resolve β} {a : α} {c' : Context}
    {e : Except ResolveError γ}
    {post : β → γ → Context → Prop} (h : x c = .ok (a, c')) (hf : Yields (f a) c' e post) :
    Yields ((liftM x : Resolve α) >>= f) c e post := by
  obtain ⟨r, c'', hrun, hr⟩ := hf
  have hlift : (liftM x : Resolve α).run c = .ok (.ok a, c') := by rw [run_lift, h]; rfl
  exact ⟨r, c'', (run_bind_of_ok hlift).trans hrun, hr⟩

end Resolve

namespace Draft

open Resolve

/-- What resolving a draft at the end of the block `b` comes to. -/
def Builds (c : Context) (b : BlockId) (_ : Unit) (v : Tree × Nat × Nat) (c' : Context) : Prop :=
  c'.stmts.size = v.2.1 ∧ c'.blocks.size = v.2.2 ∧ ∃ l, c.Extends b l c' ∧ v.1.Stands c' b l

/-- What filling a new block comes to. -/
structure Fills (c : Context) (d : BlockId) (v : Tree × Nat × Nat) (c' : Context) : Prop where
  new : d = ⟨c.blocks.size⟩
  stmts_size : c'.stmts.size = v.2.1
  blocks_size : c'.blocks.size = v.2.2
  extend : ∀ b : BlockId, b.index < c.blocks.size → c.Extends b [] c'
  lt : d.index < c'.blocks.size
  free : c'.owner? d = none
  stands : v.1.Stands c' d (c'.listed d)

theorem yields_block {draft : Draft} {names : Names} {c : Context}
    (h : ∀ {b : BlockId} {c : Context}, b.index < c.blocks.size → Yields (draft.resolve names b) c
      (draft.build names b c.stmts.size c.blocks.size) (Builds c b)) :
    Yields (Resolve.block (draft.resolve names)) c
      (draft.build names ⟨c.blocks.size⟩ c.stmts.size (c.blocks.size + 1)) (Fills c) := by
  let c₁ : Context := { c with blocks := c.blocks.push ⟨[], none⟩ }
  have hsize : c₁.blocks.size = c.blocks.size + 1 := Array.size_push _
  have hlt : (⟨c.blocks.size⟩ : BlockId).index < c₁.blocks.size := by simp [hsize]
  have hnew : c₁.block? ⟨c.blocks.size⟩ = some ⟨[], none⟩ := by simp [Context.block?, c₁]
  have hfill := h hlt
  rw [hsize] at hfill
  have hcreate : (Context.createBlock : Edit BlockId) c = .ok (⟨c.blocks.size⟩, c₁) := rfl
  refine .lift hcreate ?_
  rw [← bind_pure (draft.build names ⟨c.blocks.size⟩ c.stmts.size (c.blocks.size + 1))]
  refine .bind hfill ?_
  rintro _ v c' ⟨hstmts, hblocks, l, hextends, hstands⟩
  refine .pure ?_
  have hlisted : c'.listed ⟨c.blocks.size⟩ = l := by
    rw [hextends.appended, Context.listed, hnew]
    rfl
  exact {
    new := rfl
    stmts_size := hstmts
    blocks_size := hblocks
    extend := fun b hb => hextends.fill rfl hb
    lt := Nat.lt_of_lt_of_le hlt hextends.size
    free := by rw [hextends.owners hlt, Context.owner?, hnew]; rfl
    stands := hlisted.symm ▸ hstands }

/-- The blocks of a statement have been made and filled, with the given trees in them. -/
structure Nested (c : Context) (b : BlockId) (kind : Kind) (t₁ t₂ : Tree) (c₁ : Context) :
    Prop where
  extend : c.Extends b [] c₁
  blocks : ∀ d ∈ kind.blocks, c.blocks.size ≤ d.index ∧ d.index < c₁.blocks.size ∧
    c₁.owner? d = none
  nodup : kind.blocks.Nodup
  none₁ : kind.firstBlock? = none → t₁ = .nil
  none₂ : kind.secondBlock? = none → t₂ = .nil
  stands₁ : ∀ d, kind.firstBlock? = some d → t₁.Stands c₁ d (c₁.listed d)
  stands₂ : ∀ d, kind.secondBlock? = some d → t₂.Stands c₁ d (c₁.listed d)

/-- What making the blocks of a statement comes to : its kind, the trees in its blocks, and the next
numbers. -/
def Prepared (c : Context) (b : BlockId) (kind : Kind) (v : Kind × Tree × Tree × Nat × Nat)
    (c₁ : Context) : Prop :=
  kind = v.1 ∧ Nested c b v.1 v.2.1 v.2.2.1 c₁ ∧ c₁.stmts.size = v.2.2.2.1 ∧
    c₁.blocks.size = v.2.2.2.2

/-- The statement itself, and those behind it. -/
theorem yields_append {kind : Kind} {t₁ t₂ : Tree} {c c₁ : Context} {b : BlockId}
    (h : Nested c b kind t₁ t₂ c₁) (hb : b.index < c.blocks.size) {head : Head} {rest : Draft}
    {names : Names} {type? : Option ValueType}
    (hrest : ∀ {names : Names} {b : BlockId} {c : Context}, b.index < c.blocks.size →
      Yields (rest.resolve names b) c (rest.build names b c.stmts.size c.blocks.size)
        (Builds c b)) :
    Yields (do
        let s ← liftM (Context.createStmt kind type?)
        liftM (Context.push b s)
        let names ← ExceptT.mk (Pure.pure (names.bind s head.result?))
        rest.resolve names b) c₁
      (do
        let names ← names.bind ⟨c₁.stmts.size⟩ head.result?
        let built ← rest.build names b (c₁.stmts.size + 1) c₁.blocks.size
        return (.cons ⟨c₁.stmts.size⟩ ⟨kind, type?, some b⟩ t₁ t₂ built.1, built.2))
      (Builds c b) := by
  have hb₁ : b.index < c₁.blocks.size := Nat.lt_of_lt_of_le hb h.extend.size
  obtain ⟨c₂, c₃, hcreate, hpush, hstmt, hsize, hblocks, hold, hothers, hself, howners⟩ :=
    Context.exists_append h.nodup (fun d hd => (h.blocks d hd).2) type? hb₁
  refine .lift hcreate (.lift hpush (.bind (.ofExcept _) ?_))
  rintro names _ c' ⟨-, rfl, rfl⟩
  have hnext := @hrest names b c' (by rw [hblocks]; exact hb₁)
  rw [hsize, hblocks] at hnext
  rw [← bind_pure (rest.resolve names b)]
  refine .bind hnext ?_
  rintro _ v c₄ ⟨hn, hm, l, hextends, hstands⟩
  refine .pure ⟨hn, hm, ⟨c₁.stmts.size⟩ :: l, ?_, ?_⟩
  · -- the statement has been put at the end of the block
    refine (?_ : c.Extends b [⟨c₁.stmts.size⟩] c').trans hextends
    exact {
      stmts := fun hs => hold (h.extend.stmts hs)
      size := by rw [hblocks]; exact h.extend.size
      others := fun hd hne => (hothers _ hne).trans (h.extend.others hd hne)
      owners := fun {d} hd => by
        rw [howners d fun hmem => Nat.not_le_of_lt hd (h.blocks d hmem).1, h.extend.owners hd]
      appended := by rw [hself, h.extend.appended, List.append_nil] }
  · have hmono : ∀ {t : Tree} {d : BlockId}, d ∈ kind.blocks → t.Stands c₁ d (c₁.listed d) →
        t.Stands c₄ d (c₄.listed d) := by
      intro t d hd ht
      have hlisted : ∀ e : BlockId, b.index < e.index → e.index < c₁.blocks.size →
          c₄.listed e = c₁.listed e := by
        intro e hbe he
        have hne : e ≠ b := by
          rintro rfl
          exact Nat.lt_irrefl _ hbe
        rw [hextends.others (by rw [hblocks]; exact he) hne, hothers e hne]
      obtain ⟨hnew, hlt, -⟩ := h.blocks d hd
      have hbd := Nat.lt_of_lt_of_le hb hnew
      rw [hlisted d hbd hlt]
      refine ht.mono (fun hs => hextends.stmts (hold hs)) ?_ fun e hde =>
        hlisted e (Nat.lt_trans hbd hde)
      rw [← hblocks]
      exact hextends.size
    refine .cons (hextends.stmts hstmt)
      (fun d hd => ⟨Nat.lt_of_lt_of_le hb (h.blocks d hd).1, ?_⟩) h.none₁ h.none₂
      (fun d hd => hmono (by simp_all [Kind.blocks]) (h.stands₁ d hd))
      (fun d hd => hmono (by simp_all [Kind.blocks]) (h.stands₂ d hd)) hstands
    have hle := hextends.size
    rw [hblocks] at hle
    exact Nat.lt_of_lt_of_le (h.blocks d hd).2.1 hle

/-- Resolving a draft comes to what the draft builds. -/
theorem yields_resolve (draft : Draft) {names : Names} {b : BlockId} {c : Context}
    (hb : b.index < c.blocks.size) : Yields (draft.resolve names b) c
      (draft.build names b c.stmts.size c.blocks.size) (Builds c b) := by
  induction draft generalizing names b c with
  | nil => exact .pure ⟨rfl, rfl, [], .refl c b, .nil⟩
  | cons head first second rest ih₁ ih₂ ih₃ =>
    rw [resolve, build]
    refine .bind (.ofExcept _) ?_
    rintro _ ⟨type?, shape⟩ c' ⟨hshape, rfl, rfl⟩
    have hresolved := Head.shape_resolved hshape
    -- what follows the blocks is the same for every shape
    have htail : ∀ (kind : Kind) (v : Kind × Tree × Tree × Nat × Nat) (c₁ : Context),
        Prepared c' b kind v c₁ → Yields (do
            let s ← liftM (Context.createStmt kind type?)
            liftM (Context.push b s)
            let names ← ExceptT.mk (Pure.pure (names.bind s head.result?))
            rest.resolve names b) c₁
          (do
            let names ← names.bind ⟨v.2.2.2.1⟩ head.result?
            let built ← rest.build names b (v.2.2.2.1 + 1) v.2.2.2.2
            return (.cons ⟨v.2.2.2.1⟩ ⟨v.1, type?, some b⟩ v.2.1 v.2.2.1 built.1, built.2))
          (Builds c' b) := by
      rintro _ ⟨kind, t₁, t₂, n, m⟩ c₁ ⟨rfl, hnested, rfl, rfl⟩
      exact yields_append hnested hb ih₃
    cases shape with
    | plain kind =>
      have hblocks : kind.blocks = [] := hresolved.blocks
      refine .bind (m := Prepared c' b) (.pure ⟨rfl, ?_, rfl, rfl⟩) htail
      exact {
        extend := .refl c' b
        blocks := by simp [hblocks]
        nodup := by simp [hblocks]
        none₁ := fun _ => rfl
        none₂ := fun _ => rfl
        stands₁ := by simp [hresolved.first]
        stands₂ := by simp [hresolved.second] }
    | body kind =>
      refine .bind (yields_block ih₁) ?_
      rintro d ⟨t₁, n, m₁⟩ c₁ hfill
      obtain rfl := hfill.new
      have hkind := hresolved ⟨c'.blocks.size⟩
      have hblocks : (kind ⟨c'.blocks.size⟩).blocks = [⟨c'.blocks.size⟩] := hkind.blocks
      refine .bind (m := Prepared c' b)
        (.pure ⟨rfl, ?_, hfill.stmts_size, hfill.blocks_size⟩) htail
      exact {
        extend := hfill.extend b hb
        blocks := by simpa [hblocks] using ⟨hfill.lt, hfill.free⟩
        nodup := by simp [hblocks]
        none₁ := by simp [hkind.first]
        none₂ := fun _ => rfl
        stands₁ := by simpa [hkind.first] using hfill.stands
        stands₂ := by simp [hkind.second] }
    | branch kind otherwise =>
      refine .bind (yields_block ih₁) ?_
      rintro d ⟨t₁, n, m₁⟩ c₁ hfill
      obtain rfl := hfill.new
      obtain rfl : c₁.stmts.size = n := hfill.stmts_size
      obtain rfl : c₁.blocks.size = m₁ := hfill.blocks_size
      cases otherwise with
      | false =>
        have hkind := hresolved ⟨c'.blocks.size⟩ none
        have hblocks : (kind ⟨c'.blocks.size⟩ none).blocks = [⟨c'.blocks.size⟩] := hkind.blocks
        refine .pure_bind (.bind (m := Prepared c' b) (.pure ⟨rfl, ?_, rfl, rfl⟩) htail)
        exact {
          extend := hfill.extend b hb
          blocks := by simpa [hblocks] using ⟨hfill.lt, hfill.free⟩
          nodup := by simp [hblocks]
          none₁ := by simp [hkind.first]
          none₂ := fun _ => rfl
          stands₁ := by simpa [hkind.first] using hfill.stands
          stands₂ := by simp [hkind.second] }
      | true =>
        have hd : (⟨c'.blocks.size⟩ : BlockId).index < c₁.blocks.size := hfill.lt
        refine .bind (yields_block ih₂) ?_
        rintro e ⟨t₂, n, m₂⟩ c₂ hfill₂
        obtain rfl := hfill₂.new
        have hkind := hresolved ⟨c'.blocks.size⟩ (some ⟨c₁.blocks.size⟩)
        have hblocks : (kind ⟨c'.blocks.size⟩ (some ⟨c₁.blocks.size⟩)).blocks =
            [⟨c'.blocks.size⟩, ⟨c₁.blocks.size⟩] := hkind.blocks
        have hne : (⟨c'.blocks.size⟩ : BlockId) ≠ ⟨c₁.blocks.size⟩ := fun h =>
          Nat.ne_of_lt hd (congrArg BlockId.index h)
        have hkeep := hfill₂.extend ⟨c'.blocks.size⟩ hd
        have hfirst : t₁.Stands c₂ ⟨c'.blocks.size⟩ (c₂.listed ⟨c'.blocks.size⟩) := by
          rw [hkeep.appended, List.append_nil]
          refine hfill.stands.mono hkeep.stmts hkeep.size fun e hlt he => ?_
          exact hkeep.others he fun heq => Nat.ne_of_gt hlt (congrArg BlockId.index heq)
        refine .pure_bind (.bind (m := Prepared c' b)
          (.pure ⟨rfl, ?_, hfill₂.stmts_size, hfill₂.blocks_size⟩) htail)
        exact {
          extend := (hfill.extend b hb).trans (hfill₂.extend b
            (Nat.lt_of_lt_of_le hb (hfill.extend b hb).size))
          blocks := by
            rw [hblocks]
            rintro d (_ | ⟨_, _ | ⟨_, hd⟩⟩)
            · exact ⟨Nat.le_refl _, Nat.lt_of_lt_of_le hd hkeep.size,
                (hkeep.owners hd).trans hfill.free⟩
            · exact ⟨Nat.le_of_lt hd, hfill₂.lt, hfill₂.free⟩
            · cases hd
          nodup := by simpa [hblocks] using hne
          none₁ := by simp [hkind.first]
          none₂ := by simp [hkind.second]
          stands₁ := by simpa [hkind.first] using hfirst
          stands₂ := by simpa [hkind.second] using hfill₂.stands }

end Draft

/-! ## Kernels -/

/-- A text that is read as a draft is never refused, and comes to what the draft builds. -/
theorem parseKernel_of_readKernel {text name : List Char} {draft : Draft}
    (h : readKernel text = .ok (name, draft)) (c : Context) :
    ∃ result c', parseKernel text c = .ok (result, c') ∧
      (∀ e, draft.build [] ⟨c.blocks.size⟩ c.stmts.size (c.blocks.size + 1) = .error e →
        result = .error (.unresolved e)) ∧
      ∀ v, draft.build [] ⟨c.blocks.size⟩ c.stmts.size (c.blocks.size + 1) = .ok v →
        result = .ok ⟨String.ofList name, ⟨c.blocks.size⟩⟩ ∧
          Draft.Fills c ⟨c.blocks.size⟩ v c' := by
  obtain ⟨r, c', hrun, herror, hok⟩ := @Draft.yields_block draft [] c draft.yields_resolve
  unfold parseKernel
  rw [h]
  simp only [Bind.bind, StateT.bind, Except.bind, hrun]
  cases hbuild : draft.build [] ⟨c.blocks.size⟩ c.stmts.size (c.blocks.size + 1) with
  | error e =>
    obtain rfl := herror e hbuild
    exact ⟨_, c', rfl, fun _ he => by rw [Except.error.inj he], nofun⟩
  | ok v =>
    obtain ⟨_, rfl, hfill⟩ := hok v hbuild
    obtain rfl := hfill.new
    exact ⟨_, c', rfl, nofun, fun _ hv => ⟨rfl, Except.ok.inj hv ▸ hfill⟩⟩

/-- Parsing is never refused. -/
theorem exists_parseKernel (text : List Char) (c : Context) :
    ∃ result c', parseKernel text c = .ok (result, c') := by
  cases hread : readKernel text with
  | error e =>
    unfold parseKernel
    rw [hread]
    exact ⟨_, _, rfl⟩
  | ok p =>
    obtain ⟨result, c', hparse, -⟩ := parseKernel_of_readKernel hread c
    exact ⟨result, c', hparse⟩

/-- Parsing makes a kernel just if the text is read as a draft and the draft builds a tree. The
tree is that of the kernel, and it has all the new statements. -/
theorem Context.Tidy.parseKernel_eq_ok_iff {c : Context} (h : c.Tidy) {text : List Char}
    {kernel : Kernel} {t : Tree} {n : Nat} :
    (∃ c', KernelIR.parseKernel text c = .ok (.ok kernel, c') ∧ c'.tree kernel.body = t ∧
        c'.stmts.size = n) ↔
      ∃ name draft m, readKernel text = .ok (name, draft) ∧
        draft.build [] ⟨c.blocks.size⟩ c.stmts.size (c.blocks.size + 1) = .ok (t, n, m) ∧
        kernel = ⟨String.ofList name, ⟨c.blocks.size⟩⟩ := by
  cases hread : readKernel text with
  | error e =>
    refine ⟨?_, by simp⟩
    rintro ⟨c', hparse, -⟩
    unfold KernelIR.parseKernel at hparse
    rw [hread] at hparse
    cases hparse
  | ok p =>
    obtain ⟨name, draft⟩ := p
    obtain ⟨result, c', hparse, herror, hok⟩ := parseKernel_of_readKernel hread c
    cases hbuild : draft.build [] ⟨c.blocks.size⟩ c.stmts.size (c.blocks.size + 1) with
    | error e =>
      obtain rfl := herror e hbuild
      constructor
      · rintro ⟨c'', hparse', -⟩
        cases (Prod.mk.inj (Except.ok.inj (hparse.symm.trans hparse'))).1
      · rintro ⟨name', draft', m, heq, hbuild', -⟩
        obtain ⟨rfl, rfl⟩ := Prod.mk.inj (Except.ok.inj heq)
        cases hbuild.symm.trans hbuild'
    | ok v =>
      obtain ⟨rfl, hfill⟩ := hok v hbuild
      have hf := (h.parseKernel hparse).1.finiteBelow
      have htree : c'.tree ⟨c.blocks.size⟩ = v.1 :=
        (tree_eq (hf _)).trans (hfill.stands.foldr_graft hf)
      constructor
      · rintro ⟨c'', hparse', rfl, rfl⟩
        obtain ⟨hkernel, rfl⟩ := Prod.mk.inj (Except.ok.inj (hparse.symm.trans hparse'))
        obtain rfl := Except.ok.inj hkernel
        exact ⟨name, draft, v.2.2, rfl, by rw [hbuild, htree, hfill.stmts_size], rfl⟩
      · rintro ⟨name', draft', m, heq, hbuild', rfl⟩
        obtain ⟨rfl, rfl⟩ := Prod.mk.inj (Except.ok.inj heq)
        obtain rfl := Except.ok.inj (hbuild.symm.trans hbuild')
        exact ⟨c', hparse, htree, hfill.stmts_size⟩

end KernelIR
