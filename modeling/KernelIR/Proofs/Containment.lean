import KernelIR.Proofs.Independence
import KernelIR.Proofs.Text.Progress

/-!
# Failures are contained

Parsing is never refused, whatever the text and whatever the context. What it makes is put behind
what is there (`Context.Appends`) : each operation of the parser is about statements and blocks that
are newer than all old ones (`Context.Adds`), so old statements and blocks stay as they are, and no
use of an old value is recorded. This needs nothing of the context, which may have been made in any
way. A text that the grammar refuses leaves it as it was, and is refused at a place in the text
(`parseKernel_contained`).
-/

namespace KernelIR

namespace Context

variable {c c' c'' : Context} {n m : Nat}

/-- All that is there stays as it is. What is recorded besides is of new values by new
statements. -/
structure Appends (c c' : Context) : Prop where
  stmt? : ∀ {s}, (c.stmt? s).isSome = true → c'.stmt? s = c.stmt? s
  block? : ∀ {b}, (c.block? b).isSome = true → c'.block? b = c.block? b
  chain : ∀ {s}, (c.stmt? s).isSome = true → c'.chain s = c.chain s
  uses : ∃ l, c'.uses = c.uses ++ l ∧
    ∀ u ∈ l, c.stmts.size ≤ u.value.index ∧ c.stmts.size ≤ u.user.index

theorem Adds.spares (h : Adds n m c c') (hn : n ≤ c.stmts.size) (hm : m ≤ c.blocks.size) :
    c.Spares (.since n m) c' := by
  cases h with
  | createBlock hc => exact spares_createBlock hm hc
  | createStmt hops hblocks _ hc =>
    exact spares_createStmt hn (fun v hv => (hops v hv).1) hblocks hc
  | push _ hfrom _ hc =>
    obtain ⟨stmt, block, -, -, -, rfl⟩ := push_eq_ok hc
    exact spares_list hfrom.1 hfrom.2 _

theorem Adds.exists_uses (h : Adds n m c c') (hn : n ≤ c.stmts.size) : ∃ l, c'.uses = c.uses ++ l ∧
    ∀ u ∈ l, n ≤ u.value.index ∧ n ≤ u.user.index := by
  cases h with
  | createBlock hc =>
    obtain ⟨rfl, rfl⟩ := createBlock_eq_ok hc
    exact ⟨[], (List.append_nil _).symm, by simp⟩
  | @createStmt kind _ s hops _ _ hc =>
    have hcr := createStmt_eq_ok hc
    refine ⟨kind.uses s, hcr.uses, fun u hu => ?_⟩
    obtain ⟨huser, hop⟩ := Kind.mem_uses.1 hu
    exact ⟨(hops _ (List.mem_of_getElem? hop)).1, by rw [huser, hcr.id_eq]; exact hn⟩
  | push _ _ _ hc =>
    obtain ⟨stmt, block, -, -, -, rfl⟩ := push_eq_ok hc
    exact ⟨[], (List.append_nil _).symm, by simp⟩

/-- What a parser adds is new to what was there when it began. -/
theorem Grows.spares (h : c.Grows n m c') (hn : n ≤ c.stmts.size) (hm : m ≤ c.blocks.size) :
    c.Spares (.since n m) c' ∧ ∃ l, c'.uses = c.uses ++ l ∧
      ∀ u ∈ l, n ≤ u.value.index ∧ n ≤ u.user.index := by
  induction h with
  | refl => exact ⟨.refl _ _, [], (List.append_nil _).symm, by simp⟩
  | tail hgrows hadds ih =>
    obtain ⟨hstmts, hblocks⟩ := Grows.size_le hgrows
    obtain ⟨hspares, l, huses, hl⟩ := ih
    obtain ⟨l', huses', hl'⟩ := hadds.exists_uses (Nat.le_trans hn hstmts)
    refine ⟨hspares.trans (hadds.spares (Nat.le_trans hn hstmts) (Nat.le_trans hm hblocks)),
      l ++ l', by rw [huses', huses, List.append_assoc], fun u hu => ?_⟩
    exact (List.mem_append.1 hu).elim (hl u) (hl' u)

theorem Grows.appends (h : c.Grows c.stmts.size c.blocks.size c') : c.Appends c' := by
  obtain ⟨hspares, huses⟩ := h.spares (Nat.le_refl _) (Nat.le_refl _)
  exact {
    stmt? := fun hs => hspares.stmt? (Nat.not_le.2 (isSome_stmt?_iff.1 hs))
    block? := fun hb => hspares.block? (Nat.not_le.2 (isSome_block?_iff.1 hb))
    chain := fun hs => hspares.chain (Nat.not_le.2 (isSome_stmt?_iff.1 hs))
    uses := huses }

end Context

/-- The grammar refuses a text without a look at the context. -/
theorem parseKernel_of_refused {text : List Char} {e : ParseError} (h : readKernel text = .error e)
    (c : Context) : parseKernel text c = .ok (.error e, c) := by
  unfold parseKernel
  rw [h]
  rfl

/-- For every text and every context, parsing comes to a result, and no bound on the text has a part
in it. All that was there stays as it is. An error is reported between two characters of the text,
and at its beginning if it is about names; any other error leaves the whole context as it was. -/
theorem parseKernel_contained (text : List Char) (c : Context) :
    (∀ depth, text.length < depth → Scan.kernel depth text = Scan.kernel (text.length + 1) text) ∧
    ∃ result c', parseKernel text c = .ok (result, c') ∧ c.Appends c' ∧
      ∀ e, result = .error e → e.offset ≤ byteLength text ∧ e.Within text ∧
        (∀ error, e = .unresolved error → e.offset = 0) ∧
        ((∀ error, e ≠ .unresolved error) → c' = c) := by
  refine ⟨fun depth hd => Scan.kernel_eq_of_length_lt hd (Nat.lt_succ_self _), ?_⟩
  obtain ⟨result, c', hparse⟩ := exists_parseKernel text c
  refine ⟨result, c', hparse, (Context.grows_parseKernel hparse).1.appends, ?_⟩
  rintro e rfl
  cases hread : readKernel text with
  | error e' =>
    obtain ⟨heq, rfl⟩ :=
      Prod.mk.inj (Except.ok.inj ((parseKernel_of_refused hread c).symm.trans hparse))
    obtain rfl := Except.error.inj heq
    obtain ⟨hwithin, hnames⟩ := within_of_readKernel hread
    exact ⟨hwithin.offset_le, hwithin, fun error he => absurd he (hnames error), fun _ => rfl⟩
  | ok p =>
    obtain ⟨result, c'', hparse', herror, hok⟩ := parseKernel_of_readKernel hread c
    obtain ⟨rfl, rfl⟩ := Prod.mk.inj (Except.ok.inj (hparse'.symm.trans hparse))
    obtain ⟨error, rfl⟩ : ∃ error, e = .unresolved error := by
      cases hbuild : p.2.build [] ⟨c.blocks.size⟩ c.stmts.size (c.blocks.size + 1) with
      | error error => exact ⟨error, Except.error.inj (herror error hbuild)⟩
      | ok v => cases (hok v hbuild).1
    have hwithin : (ParseError.unresolved error).Within text := ⟨[], text, rfl, rfl⟩
    exact ⟨hwithin.offset_le, hwithin, fun _ _ => rfl, fun hne => absurd rfl (hne error)⟩

end KernelIR
