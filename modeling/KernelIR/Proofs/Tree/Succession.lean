import KernelIR.Proofs.Execution.Simulation

/-!
# Statements in succession

In a block one statement leads to a later one (`Tree.leadsTo`) if nothing between them, nested
statements included, gets in the way. What gets in the way, and between which statements, is given
by tests of statements.

A test that an exchange respects (`Exchange.Respects`) gives the same for statements before and
after it, and does not depend on the ones that are taken out and put in. Then an exchange neither
makes nor breaks a succession (`Tree.leadsTo_exchange`).
-/

namespace KernelIR

namespace Tree

/-- All statements of a tree pass a test. -/
def all (q : Stmt → Bool) (t : Tree) : Bool :=
  t.preorder.all fun p => q p.2

/-- The block goes on to a statement that passes `r`, through statements that pass `q` with all
that is nested in them. -/
def meets (q r : Stmt → Bool) : Tree → Bool
  | nil => false
  | cons _ stmt first second rest =>
    r stmt || q stmt && first.all q && second.all q && rest.meets q r

/-- In some block of the tree a statement that passes `p` is followed by one that passes `r`, and
all between them, with what is nested there, passes `q`. -/
def leadsTo (p q r : Stmt → Bool) : Tree → Bool
  | nil => false
  | cons _ stmt first second rest =>
    p stmt && rest.meets q r || first.leadsTo p q r || second.leadsTo p q r || rest.leadsTo p q r

variable {p q r : Stmt → Bool} {t : Tree}

@[simp] theorem all_nil : nil.all q = true := rfl

@[simp] theorem all_cons {id : StmtId} {stmt : Stmt} {first second rest : Tree} :
    (cons id stmt first second rest).all q =
      (q stmt && first.all q && second.all q && rest.all q) := by
  simp [all, preorder, Bool.and_assoc]

/-- A test passes on all statements of a tree, those that are nested included. -/
theorem all_eq_true_iff : t.all q = true ↔ ∀ x ∈ t.preorder, q x.2 = true :=
  List.all_eq_true

/-- Nothing leads on if nothing begins a succession. -/
theorem leadsTo_eq_false_of_forall (h : ∀ x ∈ t.preorder, p x.2 = false) :
    t.leadsTo p q r = false := by
  induction t with
  | nil => rfl
  | cons id stmt first second rest ih₁ ih₂ ih₃ =>
    simp only [preorder, List.mem_cons, List.mem_append] at h
    simp [leadsTo, h (id, stmt) (.inl rfl), ih₁ fun x hx => h x (by tauto),
      ih₂ fun x hx => h x (by tauto), ih₃ fun x hx => h x (by tauto)]

/-- A succession that begins only behind a slot is one of the statements behind it. -/
theorem leadsTo_following {slot : Slot} (hn : t.ids.Nodup) (hslot : slot ∈ t.slots)
    (hp : ∀ x ∈ t.preorder, p x.2 = true → x.1 ∈ slot.following.ids) :
    t.leadsTo p q r = slot.following.leadsTo p q r := by
  induction t with
  | nil => cases hslot
  | cons id stmt first second rest ih₁ ih₂ ih₃ =>
    simp only [ids_cons, List.nodup_cons, List.nodup_append, List.mem_append] at hn
    obtain ⟨hid, ⟨hn₁, hn₂, hd₁⟩, hn₃, hd₂⟩ := hn
    simp only [preorder, List.mem_cons, List.mem_append] at hp
    have hpart : ∀ {u : Tree}, slot ∈ u.slots → slot.following.ids ⊆ u.ids := by
      intro u hs s hm
      obtain ⟨v, hv⟩ := mem_ids.1 hm
      exact mem_ids_of_mem_preorder ((Slot.subset_of_mem_slots hs).2 hv)
    -- a part that has no statement in common with what is behind the slot begins no succession
    have hapart : ∀ {u : Tree}, (∀ x ∈ u.preorder, p x.2 = true → x.1 ∈ slot.following.ids) →
        (∀ s ∈ u.ids, s ∉ slot.following.ids) → u.leadsTo p q r = false := fun hu hd =>
      leadsTo_eq_false_of_forall fun x hx => by
        by_contra hpx
        exact hd x.1 (mem_ids_of_mem_preorder hx) (hu x hx (by simpa using hpx))
    have hhead : id ∉ slot.following.ids → p stmt = false := fun hnot => by
      by_contra hps
      exact hnot (hp (id, stmt) (.inl rfl) (by simpa using hps))
    have hp₁ := fun x hx => hp x (.inr (.inl (.inl hx)))
    have hp₂ := fun x hx => hp x (.inr (.inl (.inr hx)))
    have hp₃ := fun x hx => hp x (.inr (.inr hx))
    have hnested : slot ∈ first.slots ++ second.slots ++ rest.slots →
        (cons id stmt first second rest).leadsTo p q r = slot.following.leadsTo p q r := by
      simp only [List.mem_append]
      rintro ((hs | hs) | hs)
      · have hsub := hpart hs
        rw [leadsTo, hhead fun hm => hid (.inl (.inl (hsub hm))), ih₁ hn₁ hs hp₁,
          hapart hp₂ fun s hm hf => hd₁ s (hsub hf) s hm rfl,
          hapart hp₃ fun s hm hf => hd₂ s (.inl (hsub hf)) s hm rfl]
        simp
      · have hsub := hpart hs
        rw [leadsTo, hhead fun hm => hid (.inl (.inr (hsub hm))), ih₂ hn₂ hs hp₂,
          hapart hp₁ fun s hm hf => hd₁ s hm s (hsub hf) rfl,
          hapart hp₃ fun s hm hf => hd₂ s (.inr (hsub hf)) s hm rfl]
        simp
      · have hsub := hpart hs
        rw [leadsTo, hhead fun hm => hid (.inr (hsub hm)), ih₃ hn₃ hs hp₃,
          hapart hp₁ fun s hm hf => hd₂ s (.inl hm) s (hsub hf) rfl,
          hapart hp₂ fun s hm hf => hd₂ s (.inr hm) s (hsub hf) rfl]
        simp
    simp only [slots] at hslot
    split at hslot
    · rcases List.mem_cons.1 hslot with rfl | hslot
      · rw [leadsTo, hhead fun hm => hid (.inr hm), hapart hp₁ fun s hm hf =>
          hd₂ s (.inl hm) s hf rfl,
          hapart hp₂ fun s hm hf => hd₂ s (.inr hm) s hf rfl]
        simp
      · exact hnested hslot
    · exact hnested hslot

end Tree

/-! ## Exchanges -/

/-- What a test tells of statements is the same after an exchange, and of the one that is taken out
and the one that is put in it tells `b`. -/
structure Exchange.Respects (e : Exchange) (t : Tree) (q : Stmt → Bool) (b : Bool) : Prop where
  old : ∀ stmt, (e.old, stmt) ∈ t.preorder → q stmt = b
  new : ∀ new stmt, e.new? = some (new, stmt) → q stmt = b
  kept : ∀ p ∈ t.preorder, q (p.2.mapKind (Kind.replace e.old e.value)) = q p.2

namespace Exchange.Respects

variable {e : Exchange} {q : Stmt → Bool} {b : Bool}

/-- An exchange respects a test on fewer statements, too. -/
theorem mono {t t' : Tree} (h : e.Respects t q b) (hsub : t'.preorder ⊆ t.preorder) :
    e.Respects t' q b :=
  ⟨fun u hu => h.old u (hsub hu), h.new, fun p hp => h.kept p (hsub hp)⟩

/-- It does so in each part of a tree. -/
theorem of_cons {id : StmtId} {stmt : Stmt} {first second rest : Tree}
    (h : e.Respects (.cons id stmt first second rest) q b) :
    e.Respects first q b ∧ e.Respects second q b ∧ e.Respects rest q b := by
  refine ⟨h.mono ?_, h.mono ?_, h.mono ?_⟩ <;> intro p hp <;> simp [Tree.preorder, hp]

/-- It respects the opposite of a test. -/
theorem not {t : Tree} (h : e.Respects t q b) : e.Respects t (fun stmt => !q stmt) !b :=
  ⟨fun u hu => congrArg Bool.not (h.old u hu), fun s u hu => congrArg Bool.not (h.new s u hu),
    fun p hp => congrArg Bool.not (h.kept p hp)⟩

end Exchange.Respects

namespace Tree

variable {e : Exchange} {t : Tree} {p q r : Stmt → Bool}

/-- What passes a test on all statements does so after an exchange that respects the test. -/
theorem all_exchange (hapt : e.Apt t) (ht : t.Shaped) (hq : e.Respects t q true) :
    (t.exchange e).all q = t.all q := by
  induction t with
  | nil => rfl
  | cons id stmt first second rest ih₁ ih₂ ih₃ =>
    obtain ⟨hapt₁, hapt₂, hapt₃⟩ := hapt.of_cons
    obtain ⟨hq₁, hq₂, hq₃⟩ := hq.of_cons
    have ih₃ := ih₃ hapt₃ ht.2.2.2.2 hq₃
    rw [exchange]
    split
    · next hid =>
      subst hid
      obtain ⟨rfl, rfl⟩ := eq_nil_of_isAccess ht (hapt.old stmt List.mem_cons_self)
      have hold := hq.old stmt List.mem_cons_self
      cases hnew : e.new? with
      | none => simp [hold, ih₃]
      | some x => simp [hold, hq.new x.1 x.2 hnew, ih₃]
    · simp [hq.kept (id, stmt) List.mem_cons_self, ih₁ hapt₁ ht.2.2.1 hq₁,
        ih₂ hapt₂ ht.2.2.2.1 hq₂, ih₃]

/-- An exchange does not make a statement that a test finds, and does not take it out. -/
theorem forall_exchange (hapt : e.Apt t) (ht : t.Shaped) (hq : e.Respects t q false) :
    (∀ x ∈ (t.exchange e).preorder, q x.2 = false) ↔ ∀ x ∈ t.preorder, q x.2 = false := by
  have hall := all_exchange hapt ht hq.not
  rw [Bool.eq_iff_iff, all_eq_true_iff, all_eq_true_iff] at hall
  simpa only [Bool.not_eq_true'] using hall

/-- What a block goes on to stays if the exchange respects both tests. -/
theorem meets_exchange (hapt : e.Apt t) (ht : t.Shaped) (hq : e.Respects t q true)
    (hr : e.Respects t r false) : (t.exchange e).meets q r = t.meets q r := by
  induction t with
  | nil => rfl
  | cons id stmt first second rest _ _ ih =>
    obtain ⟨hapt₁, hapt₂, hapt₃⟩ := hapt.of_cons
    obtain ⟨hq₁, hq₂, hq₃⟩ := hq.of_cons
    have ih := ih hapt₃ ht.2.2.2.2 hq₃ hr.of_cons.2.2
    rw [exchange]
    split
    · next hid =>
      subst hid
      obtain ⟨rfl, rfl⟩ := eq_nil_of_isAccess ht (hapt.old stmt List.mem_cons_self)
      have hqold := hq.old stmt List.mem_cons_self
      have hrold := hr.old stmt List.mem_cons_self
      cases hnew : e.new? with
      | none => simp [meets, hqold, hrold, ih]
      | some x => simp [meets, hqold, hrold, hq.new x.1 x.2 hnew, hr.new x.1 x.2 hnew, ih]
    · simp [meets, hq.kept (id, stmt) List.mem_cons_self, hr.kept (id, stmt) List.mem_cons_self,
        all_exchange hapt₁ ht.2.2.1 hq₁, all_exchange hapt₂ ht.2.2.2.1 hq₂, ih]

/-- An exchange that respects all three tests neither makes nor breaks a succession. -/
theorem leadsTo_exchange (hapt : e.Apt t) (ht : t.Shaped) (hp : e.Respects t p false)
    (hq : e.Respects t q true) (hr : e.Respects t r false) :
    (t.exchange e).leadsTo p q r = t.leadsTo p q r := by
  induction t with
  | nil => rfl
  | cons id stmt first second rest ih₁ ih₂ ih₃ =>
    obtain ⟨hapt₁, hapt₂, hapt₃⟩ := hapt.of_cons
    obtain ⟨hp₁, hp₂, hp₃⟩ := hp.of_cons
    obtain ⟨hq₁, hq₂, hq₃⟩ := hq.of_cons
    obtain ⟨hr₁, hr₂, hr₃⟩ := hr.of_cons
    have ih₃ := ih₃ hapt₃ ht.2.2.2.2 hp₃ hq₃ hr₃
    rw [exchange]
    split
    · next hid =>
      subst hid
      obtain ⟨rfl, rfl⟩ := eq_nil_of_isAccess ht (hapt.old stmt List.mem_cons_self)
      have hold := hp.old stmt List.mem_cons_self
      cases hnew : e.new? with
      | none => simp [leadsTo, hold, ih₃]
      | some x => simp [leadsTo, hold, hp.new x.1 x.2 hnew, ih₃]
    · simp [leadsTo, hp.kept (id, stmt) List.mem_cons_self,
        meets_exchange hapt₃ ht.2.2.2.2 hq₃ hr₃, ih₁ hapt₁ ht.2.2.1 hp₁ hq₁ hr₁,
        ih₂ hapt₂ ht.2.2.2.1 hp₂ hq₂ hr₂, ih₃]

end Tree

end KernelIR
