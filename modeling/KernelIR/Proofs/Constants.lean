import KernelIR.Proofs.RoundTrip

/-!
# Constants that are printed and parsed

A constant whose lanes are numerically equal is printed as its first lane, and is parsed to lanes
that are all like this one. Numbers that are equal are the same, but for zeros : these are equal
whatever their signs are. So a lane comes back as it was, bit for bit, unless it is a zero among
zeros and the first of them has the other sign (`Constant.LosesSign`). Of the NaNs only one can be
written, and nothing is said of them here.
-/

namespace KernelIR

namespace Constant

/-- All lanes are zeros, and the given one has not the sign of the first. -/
def LosesSign (lanes : List Constant) (lane : Constant) : Prop :=
  ∃ x y : Binary64, lanes.head? = some (float x) ∧ lane = float y ∧ y.negative ≠ x.negative ∧
    ∀ other ∈ lanes, ∃ z : Binary64, other = float z ∧ z.magnitude = 0

/-- Lanes that agree are the same, or are zeros of both signs. -/
theorem eq_or_of_agrees {a b : Constant} (h : a.agrees b = true) : a = b ∨
    ∃ x y : Binary64, a = float x ∧ b = float y ∧ x.magnitude = 0 ∧ y.magnitude = 0 ∧
      x.negative ≠ y.negative := by
  cases a with
  | int i =>
    cases b with
    | int j => exact .inl (congrArg int (eq_of_beq h))
    | float y => cases h
  | float x =>
    cases b with
    | int j => cases h
    | float y =>
      have h : x.equal y = true := h
      by_cases heq : x = y
      · exact .inl (congrArg float heq)
      · refine .inr ⟨x, y, rfl, rfl, ?_⟩
        obtain ⟨hx, hy⟩ : x.magnitude = 0 ∧ y.magnitude = 0 := by
          simp only [Binary64.equal, Bool.and_eq_true, Bool.or_eq_true, beq_iff_eq] at h
          exact h.2.resolve_left heq
        refine ⟨hx, hy, fun hsign => heq ?_⟩
        obtain ⟨s, m, hm⟩ := x
        obtain ⟨s', m', hm'⟩ := y
        simp_all

/-- Zeros agree, whatever their signs are. -/
theorem agrees_of_zero {x y : Binary64} (hx : x.magnitude = 0) (hy : y.magnitude = 0) :
    (float x).agrees (float y) = true := by
  change x.equal y = true
  simp [Binary64.equal, Binary64.isNaN, hx, hy]

end Constant

open Constant in
/-- A lane is read back as it was, unless it loses its sign. -/
theorem getElem?_rereadLanes_iff {lanes : List Constant} {lane : Constant} {i : Nat}
    (hi : lanes[i]? = some lane) (hnan : lane.isNaN = false) :
    (rereadLanes lanes)[i]? = some lane ↔ ¬LosesSign lanes lane := by
  cases lanes with
  | nil => cases hi
  | cons first rest =>
    have hmem : lane ∈ first :: rest := List.mem_of_getElem? hi
    have hlt : i < (first :: rest).length := (List.getElem?_eq_some_iff.1 hi).1
    rw [rereadLanes]
    split
    · next hall =>
      have hagree := List.all_eq_true.1 hall
      rw [List.getElem?_replicate_of_lt hlt, Option.some.injEq]
      constructor
      · rintro rfl ⟨x, y, hx, hy, hsign, -⟩
        obtain rfl : first = .float x := Option.some.inj hx
        cases hy
        exact hsign rfl
      · intro hkept
        rcases eq_or_of_agrees (hagree lane hmem) with heq | ⟨y, x, hy, rfl, hy₀, hx₀, hsign⟩
        · exact heq.symm
        · refine absurd ⟨x, y, rfl, hy, hsign, fun other hother => ?_⟩ hkept
          rcases eq_or_of_agrees (hagree other hother) with rfl | ⟨z, _, rfl, -, hz, -⟩
          · exact ⟨x, rfl, hx₀⟩
          · exact ⟨z, rfl, hz⟩
    · next hall =>
      rw [List.getElem?_map, hi, Option.map_some, reread_of_not_isNaN hnan]
      refine iff_of_true rfl ?_
      rintro ⟨x, y, hx, -, -, hzeros⟩
      obtain rfl : first = .float x := Option.some.inj hx
      obtain ⟨_, heq, hx₀⟩ := hzeros _ List.mem_cons_self
      cases heq
      refine hall (List.all_eq_true.2 fun other hother => ?_)
      obtain ⟨z, rfl, hz₀⟩ := hzeros other hother
      exact agrees_of_zero hz₀ hx₀

theorem length_rereadLanes (lanes : List Constant) : (rereadLanes lanes).length = lanes.length := by
  cases lanes with
  | nil => rfl
  | cons lane lanes =>
    rw [rereadLanes]
    split <;> simp

/-- A kernel that is parsed has a text, and parsing this text gives a kernel with constants at the
same places, of the same types and with as many lanes. Each lane that is not a NaN is the same
integer or the same number bit for bit, if and only if it does not lose its sign. -/
theorem lanes_of_parseKernel {c₀ c d : Context} {text : List Char} {kernel : Kernel}
    (h₀ : Parsed c₀) (hparse : parseKernel text c₀ = .ok (.ok kernel, c)) (hd : Parsed d) :
    ∃ text' kernel' d', c.printKernel kernel = .ok text' ∧
      parseKernel text' d = .ok (.ok kernel', d') ∧
      (d'.tree kernel'.body).size = (c.tree kernel.body).size ∧
      ∀ (n : Nat) (s : StmtId) (stmt : Stmt) (lanes : List Constant),
        (c.tree kernel.body).preorder[n]? = some (s, stmt) → stmt.kind = .const lanes →
        ∃ s' stmt' lanes', (d'.tree kernel'.body).preorder[n]? = some (s', stmt') ∧
          stmt'.kind = .const lanes' ∧ stmt'.type? = stmt.type? ∧ lanes'.length = lanes.length ∧
          ∀ (i : Nat) lane, lanes[i]? = some lane → lane.isNaN = false →
            (lanes'[i]? = some lane ↔ ¬lane.LosesSign lanes) := by
  obtain ⟨text', d', hprint, hparse', hlike⟩ := (h₀.tidy.readable hparse).exists_parse hd.tidy
  refine ⟨text', _, d', hprint, hparse', ?_, fun n s stmt lanes hn hconst => ?_⟩
  · rw [← Tree.length_preorder, ← Tree.length_preorder, hlike.preorder.length_eq]
  · obtain ⟨⟨s', stmt'⟩, hn', hkind, htype⟩ := hlike.exists_of_getElem? hn
    obtain ⟨lanes', hconst', rfl⟩ := Kind.Like.exists_const (hconst ▸ hkind)
    exact ⟨s', stmt', _, hn', hconst', htype.symm, length_rereadLanes lanes,
      fun i lane hi hnan => getElem?_rereadLanes_iff hi hnan⟩

namespace SignKernel

/-- A constant of zeros of both signs, and a constant of a zero and another number. -/
def text : List Char :=
  "kernel @k \x7b %c = const [0.0, -0.0] : f32x2 %d = const [-0.0, 1.5] : f32x2 print %d \x7d".toList

def plus : Constant :=
  .float (.ofMagnitude false 0)

def minus : Constant :=
  .float (.ofMagnitude true 0)

def other : Constant :=
  .float (.ofMagnitude false 0x3FF8000000000000)

/-- The context with the given lanes of the first constant. -/
def context (lanes : List Constant) : Context where
  stmts := #[⟨.const lanes, some ⟨.f32, 2⟩, some ⟨0⟩⟩,
    ⟨.const [minus, other], some ⟨.f32, 2⟩, some ⟨0⟩⟩, ⟨.print ⟨1⟩, none, some ⟨0⟩⟩]
  blocks := #[⟨[⟨0⟩, ⟨1⟩, ⟨2⟩], none⟩]
  uses := [⟨⟨1⟩, ⟨2⟩, 0⟩]

theorem parse : parseKernel text .empty = .ok (.ok ⟨"k", ⟨0⟩⟩, context [plus, minus]) := by
  decide +kernel

end SignKernel

open SignKernel in
/-- The second constant comes back as it was, the sign of its zero included, and so does the first
lane of the first constant. -/
theorem lanes_of_parseKernel_signs :
    parseKernel text .empty = .ok (.ok ⟨"k", ⟨0⟩⟩, context [plus, minus]) ∧
    ∃ text' kernel' c', (context [plus, minus]).printKernel ⟨"k", ⟨0⟩⟩ = .ok text' ∧
      parseKernel text' .empty = .ok (.ok kernel', c') ∧
      (∃ s' stmt' lanes', (c'.tree kernel'.body).preorder[0]? = some (s', stmt') ∧
        stmt'.kind = .const lanes' ∧ lanes'[0]? = some plus ∧ lanes'[1]? ≠ some minus) ∧
      ∃ s' stmt' lanes', (c'.tree kernel'.body).preorder[1]? = some (s', stmt') ∧
        stmt'.kind = .const lanes' ∧ lanes'[0]? = some minus ∧ lanes'[1]? = some other := by
  obtain ⟨text', kernel', c', hprint, hparse, -, hlanes⟩ := lanes_of_parseKernel .empty parse .empty
  refine ⟨parse, text', kernel', c', hprint, hparse, ?_, ?_⟩
  · obtain ⟨s', stmt', lanes', hn, hconst, -, -, hlane⟩ := hlanes 0 ⟨0⟩ _ [plus, minus] rfl rfl
    refine ⟨s', stmt', lanes', hn, hconst, (hlane 0 plus rfl (by decide)).2 ?_, fun h => ?_⟩
    · rintro ⟨x, y, hx, hy, hsign, -⟩
      cases hx
      cases hy
      exact hsign rfl
    · refine (hlane 1 minus rfl (by decide)).1 h ⟨_, _, rfl, rfl, by decide, ?_⟩
      rintro lane (_ | ⟨_, _ | ⟨_, ⟨⟩⟩⟩)
      · exact ⟨_, rfl, rfl⟩
      · exact ⟨_, rfl, rfl⟩
  · obtain ⟨s', stmt', lanes', hn, hconst, -, -, hlane⟩ := hlanes 1 ⟨1⟩ _ [minus, other] rfl rfl
    have hkept : ∀ lane : Constant, ¬lane.LosesSign [minus, other] := by
      rintro lane ⟨x, y, -, -, -, hzeros⟩
      obtain ⟨z, hz, hz₀⟩ := hzeros other (by simp)
      cases hz
      exact absurd hz₀ (by decide)
    exact ⟨s', stmt', lanes', hn, hconst, (hlane 0 minus rfl (by decide)).2 (hkept _),
      (hlane 1 other rfl (by decide)).2 (hkept _)⟩

open SignKernel in
/-- The second lane of the first constant is a negative zero, and comes back as a positive one. -/
theorem exists_lost_sign : ∃ text',
    parseKernel text .empty = .ok (.ok ⟨"k", ⟨0⟩⟩, context [plus, minus]) ∧
    (context [plus, minus]).printKernel ⟨"k", ⟨0⟩⟩ = .ok text' ∧
    parseKernel text' .empty = .ok (.ok ⟨"k", ⟨0⟩⟩, context [plus, plus]) ∧ minus ≠ plus := by
  refine ⟨"kernel @k \x7b\n  %0 = const 0.0 : f32x2\n  %1 = const [-0.0, 1.5] : f32x2\n".toList ++
    "  print %1\n\x7d\n".toList, parse, ?_, ?_, ?_⟩ <;> decide +kernel

end KernelIR
