import KernelIR.Proofs.Types
import KernelIR.Proofs.Text.Rebuild

/-!
# Parsing undoes printing

A kernel that is parsed has a text, and so has its optimized form. Parsing the text gives a kernel
of the same name whose tree is isomorphic to the one that was printed, and which has the same text
(`Context.RoundTrips`, `roundTrips_of_parseKernel`).

All that this takes is that texts can express the statements where they stand (`Site.Written`).
For an optimized kernel this is in two parts. That texts can express the statements at all
(`Context.Expressible`) is kept by every operation of the optimizer, whether the kernel is valid
or not : statements are taken out, operands change, and zeros of the type of a slot are put in.
That the statements see their operands is what the verifier checks.
-/

namespace KernelIR

/-! ## Printing and parsing -/

theorem Stmt.Written.isPrintable {stmt : Stmt} (h : stmt.Written) : stmt.isPrintable = true := by
  obtain ⟨kind, type?, b?⟩ := stmt
  have hkind : kind.Written type? := h.kind
  have hnonempty : ∀ {α : Type} {lanes : List α} {type : ValueType}, type? = some type →
      lanes.length = type.width → kind.hasValue = true → (!lanes.isEmpty) = true := by
    intro α lanes type htype hlen hv
    obtain ⟨type', htype', hpos, -⟩ := h.typed hv
    obtain rfl := Option.some.inj (htype.symm.trans htype')
    cases lanes with
    | nil => exact absurd (hlen ▸ hpos) (by simp)
    | cons => rfl
  cases kind with
  | const lanes =>
    obtain ⟨type, htype, hlen, -⟩ := hkind
    exact hnonempty htype hlen rfl
  | load lanes =>
    obtain ⟨type, htype, hlen, -⟩ := hkind
    exact hnonempty htype hlen rfl
  | _ => rfl

theorem biUnique_pairs {t t' : Tree} (h : t.ids.Nodup) (h' : t'.ids.Nodup) :
    Relator.BiUnique fun v v' => (v, v') ∈ t.pairs t' := by
  have hget : ∀ {v v'}, (v, v') ∈ t.pairs t' → ∃ i : Nat, t.ids[i]? = some v ∧
    t'.ids[i]? = some v' := by
    intro v v' hmem
    obtain ⟨i, hi, heq⟩ := List.mem_iff_getElem.1 hmem
    have hzip : (t.pairs t')[i]? = some (v, v') := by rw [List.getElem?_eq_getElem hi, heq]
    exact ⟨i, List.getElem?_zip_eq_some.1 hzip⟩
  constructor
  · intro v w v' hv hw
    obtain ⟨i, hvi, hi⟩ := hget hv
    obtain ⟨j, hwj, hj⟩ := hget hw
    obtain rfl := List.getElem?_inj (List.getElem?_eq_some_iff.1 hi).1 h'
      |>.1 (hi.trans hj.symm)
    exact Option.some.inj (hvi.symm.trans hwj)
  · intro v v' w' hv hw
    obtain ⟨i, hvi, hi⟩ := hget hv
    obtain ⟨j, hwj, hj⟩ := hget hw
    obtain rfl := List.getElem?_inj (List.getElem?_eq_some_iff.1 hvi).1 h
      |>.1 (hvi.trans hwj.symm)
    exact Option.some.inj (hi.symm.trans hj)

namespace Context

variable {c d : Context} {kernel : Kernel}

/-- The text of the kernel is parsed in the context `d` to an isomorphic kernel of the same name,
which has the same text. -/
def RoundTrips (c : Context) (kernel : Kernel) (d : Context) : Prop :=
  ∃ text kernel' d', c.printKernel kernel = .ok text ∧
    parseKernel text d = .ok (.ok kernel', d') ∧ kernel'.name = kernel.name ∧
    (c.tree kernel.body).Isomorphic (d'.tree kernel'.body) ∧ d'.printKernel kernel' = .ok text

/-- What printing takes, and what keeps a kernel readable. -/
structure Readable (c : Context) (kernel : Kernel) : Prop where
  intact : c.Intact
  finite : c.FiniteBelow kernel.body
  present : (c.block? kernel.body).isSome = true
  name : Scan.IsName kernel.name.toList
  written : ∀ p ∈ (c.tree kernel.body).sites [], p.Written

theorem Readable.printKernel (h : c.Readable kernel) : c.printKernel kernel =
    .ok ("kernel @".toList ++ kernel.name.toList ++
      braced 0 ((c.tree kernel.body).render 2 []) ['\n']) := by
  have hfind : ((c.tree kernel.body).find fun _ stmt => !stmt.isPrintable) = [] := by
    simp only [Tree.find_eq_filter, List.map_eq_nil_iff, List.filter_eq_nil_iff]
    rintro ⟨s, stmt⟩ hp
    obtain ⟨p, hsite, -, rfl⟩ := Tree.exists_site_of_mem_preorder hp []
    simp [(h.written p hsite).stmt.isPrintable]
  have hcheck : (c.tree kernel.body).checkPrintable = .ok () := by
    unfold Tree.checkPrintable
    rw [hfind]
  have hpresent : ¬(c.block? kernel.body).isNone = true := by
    have := h.present
    cases hb : c.block? kernel.body <;> simp_all
  unfold Context.printKernel
  rw [if_neg hpresent, hcheck]
  rfl

/-- A kernel that is parsed is readable. -/
theorem Tidy.readable (h : c.Tidy) {text : List Char} {c' : Context}
    (hparse : KernelIR.parseKernel text c = .ok (.ok kernel, c')) : c'.Readable kernel := by
  obtain ⟨h', hbody⟩ := h.parseKernel hparse
  obtain ⟨hname, hwritten⟩ := h.written hparse
  exact ⟨h'.reachable.intact, h'.finiteBelow _, hbody kernel rfl, hname, hwritten⟩

/-- The text of a readable kernel is parsed, to a kernel of the same name whose tree is like the one
that was printed. -/
theorem Readable.exists_parse (h : c.Readable kernel) (hd : d.Tidy) :
    ∃ text d', c.printKernel kernel = .ok text ∧
      KernelIR.parseKernel text d = .ok (.ok ⟨kernel.name, ⟨d.blocks.size⟩⟩, d') ∧
      (c.tree kernel.body).Like Rereads
        (fun u w => (u, w) ∈ (c.tree kernel.body).pairs (d'.tree ⟨d.blocks.size⟩))
        (d'.tree ⟨d.blocks.size⟩) := by
  have hnodup := nodup_ids_treeAt h.intact h.finite c.blocks.size
  have hshaped := shaped_tree c kernel.body
  have hread := readKernel_append h.name hshaped h.written
  have htells : Names.Tells [] [] [] (fun _ _ => False) :=
    ⟨List.Subset.refl [], by simp, by simp⟩
  obtain ⟨v, hbuild, hlike⟩ := Tree.exists_build hshaped hnodup htells h.written (by simp)
    ⟨d.blocks.size⟩ d.stmts.size (d.blocks.size + 1)
  obtain ⟨d', hparse, htree, -⟩ := hd.parseKernel_eq_ok_iff.2 ⟨_, _, v.2.2, hread, hbuild, rfl⟩
  rw [String.ofList_toList] at hparse
  refine ⟨_, d', h.printKernel, hparse, ?_⟩
  rw [htree]
  exact hlike.mono (fun _ _ h => h) fun _ _ h => h.resolve_left id

/-- Readable kernels of the same name whose trees are alike have the same text. -/
theorem Readable.printKernel_eq_of_like {Q : StmtId → StmtId → Prop} {kernel' : Kernel}
    (h : c.Readable kernel) (h' : d.Readable kernel') (hname : kernel'.name = kernel.name)
    (hQ : Relator.BiUnique Q)
    (hlike : (c.tree kernel.body).Like Reprints Q (d.tree kernel'.body)) :
    d.printKernel kernel' = c.printKernel kernel := by
  have hrender := hlike.render_eq (fun _ _ h => h.2) hQ .nil 2
  rw [h'.printKernel, h.printKernel, hname, braced, braced, hrender]

theorem Readable.roundTrips (h : c.Readable kernel) (hd : d.Tidy) : c.RoundTrips kernel d := by
  obtain ⟨text, d', hprint, hparse, hlike⟩ := h.exists_parse hd
  have hreadable := hd.readable hparse
  have hnodup := nodup_ids_treeAt h.intact h.finite c.blocks.size
  have hnodup' := nodup_ids_treeAt hreadable.intact hreadable.finite d'.blocks.size
  refine ⟨text, _, d', hprint, hparse, rfl, ⟨hnodup, hnodup',
    hlike.mono (fun _ _ h => h.reprints.1) fun _ _ h => h⟩, ?_⟩
  have hreprints := hlike.mono (fun _ _ h => h.reprints) fun _ _ h => h
  exact (h.printKernel_eq_of_like hreadable rfl (biUnique_pairs hnodup hnodup') hreprints).trans
    hprint

end Context

/-! ## Optimized kernels -/

/-- A text can express a statement with other operands. -/
theorem Stmt.Written.mapOperands {stmt : Stmt} (h : stmt.Written) (f : Nat → StmtId → StmtId) :
    Stmt.Written { stmt with kind := stmt.kind.mapOperands f } := by
  obtain ⟨kind, type?, b?⟩ := stmt
  have hvalue : (kind.mapOperands f).hasValue = kind.hasValue := Kind.hasValue_mapOperands f kind
  refine ⟨?_, fun hv => h.typed (hvalue ▸ hv), fun hv => h.untyped (hvalue ▸ hv)⟩
  have hkind : kind.Written type? := h.kind
  cases kind with
  | load lanes =>
    obtain ⟨type, htype, hlen, hoffsets⟩ := hkind
    refine ⟨type, htype, by simpa using hlen, fun lane hl => ?_⟩
    obtain ⟨i, hi, rfl⟩ := List.mem_mapIdx.1 hl
    exact hoffsets lanes[i] (List.getElem_mem hi)
  | structFor counters snode body =>
    exact ⟨by simpa [List.mapIdx_eq_nil_iff] using hkind.1, hkind.2⟩
  | _ => exact hkind

theorem Stmt.Written.zeros {type : ValueType} (hpos : 1 ≤ type.width)
    (hle : type.width ≤ ValueType.maxWidth) (b? : Option BlockId) :
    Stmt.Written ⟨type.zeros, some type, b?⟩ := by
  refine ⟨⟨type, rfl, by simp, fun lane hl => ?_⟩, fun _ => ⟨type, rfl, hpos, hle⟩, nofun⟩
  obtain rfl := List.eq_of_mem_replicate hl
  unfold ScalarType.zero
  split
  · next hf => exact hf
  · next hf => exact ⟨Bool.eq_false_iff.2 hf, by unfold Scan.Fits; decide⟩

namespace Context

/-- Texts can express the statements listed below a block. -/
structure Expressible (c : Context) (root : BlockId) : Prop where
  intact : c.Intact
  finite : c.FiniteBelow root
  present : (c.block? root).isSome = true
  written : ∀ {b s stmt}, Relation.ReflTransGen c.Nests b root → s ∈ c.listed b →
    c.stmt? s = some stmt → stmt.Written

namespace Expressible

variable {c c' : Context} {root : BlockId} {slot : Slot}

theorem written_of_mem_preorder (h : c.Expressible root) {p : StmtId × Stmt}
    (hp : p ∈ (c.tree root).preorder) : p.2.Written := by
  obtain ⟨b, hb, hbelow⟩ := (mem_ids_tree_iff h.intact h.finite).1 (Tree.mem_ids_of_mem_preorder hp)
  exact h.written hbelow hb (stmt?_of_mem_treeAt hp)

/-- A context that lists what was listed before with other operands, and new statements without
blocks. -/
theorem of_listed (h : c.Expressible root) (hintact : c'.Intact)
    (hsize : c.blocks.size ≤ c'.blocks.size)
    (hlisted : ∀ {b s stmt}, s ∈ c'.listed b → c'.stmt? s = some stmt →
      (∃ old, s ∈ c.listed b ∧ c.stmt? s = some old ∧ stmt.kind.blocks = old.kind.blocks ∧
        (old.Written → stmt.Written)) ∨
      stmt.kind.blocks = [] ∧ stmt.Written) : c'.Expressible root := by
  have hnests : ∀ b d, c'.Nests b d → c.Nests b d := by
    rintro b d ⟨s, stmt, hs, hstmt, hb⟩
    rcases hlisted hs hstmt with ⟨old, hs', hold, hblocks, -⟩ | ⟨hnone, -⟩
    · exact ⟨s, old, hs', hold, hblocks ▸ hb⟩
    · rw [hnone] at hb
      cases hb
  refine ⟨hintact, h.finite.of_nests hnests, ?_, fun hb hs hstmt => ?_⟩
  · exact isSome_block?_iff.2 (Nat.lt_of_lt_of_le (isSome_block?_iff.1 h.present) hsize)
  · rcases hlisted hs hstmt with ⟨old, hs', hold, -, hwritten⟩ | ⟨-, hwritten⟩
    · exact hwritten (h.written (Relation.ReflTransGen.mono hnests _ _ hb) hs' hold)
    · exact hwritten

theorem createStmt (h : c.Expressible root) {kind : Kind} {type? : Option ValueType} {s : StmtId}
    (hc : Context.createStmt kind type? c = .ok (s, c')) : c'.Expressible root := by
  have hcr := createStmt_eq_ok hc
  refine h.of_listed (h.intact.createStmt hc) (Nat.le_of_eq hcr.blocks_size.symm)
    fun {b t stmt} ht hstmt => .inl ?_
  rw [hcr.listed] at ht
  have hne : t ≠ s := by
    rintro rfl
    have := h.intact.home ht
    simp [home?, Context.stmt?, hcr.id_eq] at this
  rw [hcr.stmt?, if_neg hne] at hstmt
  exact ⟨stmt, ht, hstmt, rfl, id⟩

theorem insertAfter (h : c.Expressible root) {anchor s : StmtId}
    (hs : ∀ stmt, c.stmt? s = some stmt → stmt.kind.blocks = [] ∧ stmt.Written)
    (hinsert : Context.insertAfter anchor s c = .ok ((), c')) : c'.Expressible root := by
  obtain ⟨stmt, b, i, hstmt, hnone, hp, rfl⟩ := insertAfter_eq_ok hinsert
  have hlt := (List.getElem?_eq_some_iff.1 (place?_eq_some hp).2).1
  have hpresent := isSome_block?_of_mem_listed (List.getElem_mem hlt)
  refine h.of_listed (h.intact.list hstmt hnone hpresent hlt)
    (by simp [list, modifyBlock, modifyStmt]) fun {d t u} ht hu => ?_
  rw [stmt?_list] at hu
  by_cases heq : s = t
  · subst heq
    rw [if_pos rfl, hstmt] at hu
    obtain rfl := Option.some.inj hu
    obtain ⟨hblocks, hwritten⟩ := hs stmt hstmt
    exact .inr ⟨hblocks, hwritten.kind, hwritten.typed, hwritten.untyped⟩
  · rw [if_neg heq] at hu
    rw [listed_list _ _ _ _ _ hpresent] at ht
    refine .inl ⟨u, ?_, hu, rfl, id⟩
    split at ht
    · exact (List.eq_or_mem_of_mem_insertIdx ht).resolve_left (Ne.symm heq)
    · exact ht

theorem erase (h : c.Expressible root) {s : StmtId}
    (herase : Context.erase s c = .ok ((), c')) : c'.Expressible root := by
  obtain ⟨b, i, hp, -, rfl⟩ := erase_eq_ok herase
  have hi := (place?_eq_some hp).2
  refine h.of_listed (h.intact.unlist hi) (by simp [unlist, modifyBlock, modifyStmt])
    fun {d t stmt} ht hstmt => .inl ?_
  rw [listed_unlist_eq_filter h.intact hi] at ht
  obtain ⟨ht, hne⟩ := List.mem_filter.1 ht
  rw [stmt?_unlist, if_neg fun heq => by simp [heq] at hne] at hstmt
  exact ⟨stmt, ht, hstmt, rfl, id⟩

theorem replaceAllUses (h : c.Expressible root) {old new : StmtId}
    (hreplace : Context.replaceAllUses old new c = .ok ((), c')) : c'.Expressible root := by
  rcases replaceAllUses_eq_ok hreplace with rfl | ⟨-, rfl⟩
  · exact h
  · refine h.of_listed (h.intact.redirected old new) (Nat.le_refl _) fun hs hstmt => .inl ?_
    rw [stmt?_redirected] at hstmt
    obtain ⟨before, hbefore, rfl⟩ := Option.map_eq_some_iff.1 hstmt
    exact ⟨before, hs, hbefore, Kind.blocks_mapOperands _ _, fun hw => hw.mapOperands _⟩

/-- A load is folded to zeros of the type of its slot. -/
theorem written_zeros (h : c.Expressible root) (hslot : slot ∈ (c.tree root).slots) {used : Bool}
    {load : StmtId} {type : ValueType}
    (ha : slot.analyze (c.tree root) used = .error (.rewrite (.zeroFold load type)))
    (b? : Option BlockId) : Stmt.Written ⟨type.zeros, some type, b?⟩ := by
  obtain ⟨declaration, scope, hsite, hkind, htype, -⟩ := Slot.exists_site_of_mem_slots
    (shaped_tree c root) (nodup_ids_treeAt h.intact h.finite _) (fun _ hp => hp) (by simp) hslot
  have hdeclaration := h.written_of_mem_preorder (Tree.mem_preorder_of_mem_sites hsite)
  obtain ⟨type', htype', hpos, hle⟩ := hdeclaration.typed (by rw [hkind]; rfl)
  rcases Slot.analyze_eq_rewrite ha [] with ⟨x, -, hasks⟩ | ⟨st, -, hleft⟩
  · obtain ⟨s, stmt, first, second, rest, -, -, hrewrite⟩ := hasks
    obtain ⟨whole, -, hwhole, -, ⟨-, heq⟩ | ⟨-, v, -, heq⟩⟩ := Slot.scanLoad_eq_rewrite hrewrite
    · obtain ⟨-, rfl⟩ := Rewrite.zeroFold.inj heq
      obtain rfl := Option.some.inj (hwhole.symm.trans (htype.trans htype'))
      exact .zeros hpos hle b?
    · cases heq
  · rcases leftover?_eq_some hleft with ⟨_, heq, -⟩ | ⟨_, heq, -⟩ | ⟨heq, -⟩ <;> cases heq

/-- A rewrite that an analysis asks for and that is not refused. -/
theorem apply (h : c.Expressible root) (hslot : slot ∈ (c.tree root).slots) {used : Bool}
    {rewrite : Rewrite} (ha : slot.analyze (c.tree root) used = .error (.rewrite rewrite))
    {event : Event} (happly : rewrite.apply slot.id c = .ok (event, c')) : c'.Expressible root := by
  have hremove : ∀ {s d} {e : Event}, d.Expressible root →
      (Context.erase s >>= fun _ => pure e : Edit Event) d = .ok (event, c') →
      c'.Expressible root := by
    intro s d e hd hrun
    obtain ⟨⟨⟩, d', herase, hpure⟩ := Edit.exists_of_bind hrun
    obtain ⟨-, rfl⟩ := Prod.mk.inj (Except.ok.inj hpure)
    exact hd.erase herase
  cases rewrite with
  | deadStore | deadAtomic | deadAlloca => exact hremove h happly
  | forward load value =>
    obtain ⟨⟨⟩, d, hreplace, happly⟩ := Edit.exists_of_bind happly
    exact hremove (h.replaceAllUses hreplace) happly
  | zeroFold load type =>
    obtain ⟨zero, d₁, hcreate, happly⟩ := Edit.exists_of_bind happly
    obtain ⟨⟨⟩, d₂, hinsert, happly⟩ := Edit.exists_of_bind happly
    obtain ⟨⟨⟩, d₃, hreplace, happly⟩ := Edit.exists_of_bind happly
    refine hremove
      (((h.createStmt hcreate).insertAfter (fun stmt hstmt => ?_) hinsert).replaceAllUses
      hreplace) happly
    rw [(createStmt_eq_ok hcreate).stmt?, if_pos rfl] at hstmt
    obtain rfl := Option.some.inj hstmt
    exact ⟨rfl, h.written_zeros hslot ha none⟩

/-- Sweeps that are not refused. -/
theorem sweeps {w : Work} (h : w.context.Expressible root) {bound : Nat} {outcome : Outcome}
    (hrun : KernelIR.sweeps root bound w.progress w.context = .ok (outcome, c')) :
    c'.Expressible root := by
  induction bound generalizing w with
  | zero =>
    cases hrun
    exact h
  | succ bound ih =>
    rw [Work.sweeps_succ h.present] at hrun
    cases hhalt : (w.sweep root).halt? with
    | none =>
      rw [hhalt] at hrun
      cases hrun
      exact h
    | some p =>
      obtain ⟨s, rewrite | error⟩ := p
      · rw [hhalt] at hrun
        obtain ⟨slot, hslot, rfl, -, ha⟩ := sweep_halt hhalt
        cases happly : rewrite.apply slot.id w.context with
        | error misuse =>
          simp only [happly] at hrun
          cases hrun
        | ok result =>
          obtain ⟨event, d⟩ := result
          simp only [happly] at hrun
          exact ih (w := ⟨w.advance root rewrite event, d⟩) (h.apply hslot ha happly) hrun
      · rw [hhalt] at hrun
        cases hrun
        exact h

/-- Statements that see their operands can be expressed where they stand. -/
theorem readable {kernel : Kernel} (h : c.Expressible kernel.body)
    (hname : Scan.IsName kernel.name.toList) (hverify : c.verify kernel = .ok ()) :
    c.Readable kernel where
  intact := h.intact
  finite := h.finite
  present := h.present
  name := hname
  written p hp := ⟨h.written_of_mem_preorder (Tree.mem_preorder_of_mem_sites hp), fun _ hv =>
    (((verify_eq_ok_iff h.intact kernel).1 hverify).fits p hp).mem_scope hv⟩

end Expressible

theorem Readable.expressible {c : Context} {kernel : Kernel} (h : c.Readable kernel) :
    c.Expressible kernel.body := by
  refine ⟨h.intact, h.finite, h.present, fun {b s stmt} hb hs hstmt => ?_⟩
  obtain ⟨u, hu⟩ := Tree.mem_ids.1 ((mem_ids_tree_iff h.intact h.finite).2 ⟨b, hs, hb⟩)
  obtain rfl := Option.some.inj (hstmt.symm.trans (stmt?_of_mem_treeAt hu))
  obtain ⟨p, hp, -, heq⟩ := Tree.exists_site_of_mem_preorder hu []
  exact heq ▸ (h.written p hp).stmt

end Context

/-- Parsing undoes printing, for every kernel that is parsed and for what optimizing makes of it
with any limit of sweeps, if that is valid. It is if the kernel is valid. -/
theorem roundTrips_of_parseKernel {c₀ c d : Context} {text : List Char} {kernel : Kernel}
    (h₀ : Parsed c₀) (hparse : parseKernel text c₀ = .ok (.ok kernel, c)) (hd : Parsed d) :
    c.RoundTrips kernel d ∧
      (∀ (maxSweeps? : Option Nat) outcome c',
        optimizeSlots kernel.body maxSweeps? c = .ok (outcome, c') →
        c'.verify kernel = .ok () → c'.RoundTrips kernel d) ∧
      (c.verify kernel = .ok () → ∀ maxSweeps? : Option Nat, ∃ outcome c',
        optimizeSlots kernel.body maxSweeps? c = .ok (outcome, c') ∧
        c'.verify kernel = .ok () ∧ c'.RoundTrips kernel d) := by
  have hreadable := h₀.tidy.readable hparse
  have hoptimized : ∀ (maxSweeps? : Option Nat) outcome c',
      optimizeSlots kernel.body maxSweeps? c = .ok (outcome, c') →
      c'.verify kernel = .ok () → c'.RoundTrips kernel d := by
    intro maxSweeps? outcome c' hrun hverify
    have hexpressible := Context.Expressible.sweeps (w := .start c) hreadable.expressible hrun
    exact (hexpressible.readable hreadable.name hverify).roundTrips hd.tidy
  refine ⟨hreadable.roundTrips hd.tidy, hoptimized, fun hverify maxSweeps? => ?_⟩
  have hsound := h₀.tidy.sound hparse hverify
  obtain ⟨outcome, w, hrun, hreach, -⟩ := hsound.optimizeSlots maxSweeps?
  have hw := hreach.sound hsound
  have hverify' := (Context.verify_eq_ok_iff hw.intact kernel).2 hw.valid
  exact ⟨outcome, w.context, hrun, hverify', hoptimized maxSweeps? outcome _ hrun hverify'⟩

open LoopKernel in
/-- A kernel with a load in a loop, before and after it is optimized. -/
theorem roundTrips_of_parseKernel_loop :
    parseKernel text .empty = .ok (.ok ⟨"k", ⟨0⟩⟩, context) ∧
      context.verify ⟨"k", ⟨0⟩⟩ = .ok () ∧ context.RoundTrips ⟨"k", ⟨0⟩⟩ .empty ∧
      ∃ outcome c', optimizeSlots ⟨0⟩ none context = .ok (outcome, c') ∧
        c'.verify ⟨"k", ⟨0⟩⟩ = .ok () ∧ c'.RoundTrips ⟨"k", ⟨0⟩⟩ .empty := by
  obtain ⟨hparsed, -, hoptimized⟩ := roundTrips_of_parseKernel .empty parse .empty
  exact ⟨parse, verify, hparsed, hoptimized verify none⟩

end KernelIR
