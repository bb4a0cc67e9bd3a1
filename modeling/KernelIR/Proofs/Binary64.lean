import Mathlib.Tactic.Ring
import KernelIR.Binary64.Shortest

/-!
# Decimals that read back

The decimal that a finite number is written with rounds back to it
(`Binary64.ofDecimal_shortest`) : the search only takes decimals that do, and the expansion
behind it is exact. Rounding depends on the size only (`Binary64.nearest_eq`), so this holds
of every decimal of the same size (`Binary64.ofDecimal_scale`).
-/

namespace KernelIR

/-! ## Numerals -/

/-- A number has at most as many digits as the power of ten above it says. -/
theorem length_natText_le_iff {n k : Nat} (hk : 0 < k) : (natText n).length ≤ k ↔ n < 10 ^ k :=
  Nat.length_toDigits_le_iff (by decide) hk

theorem length_natText_pos (n : Nat) : 0 < (natText n).length :=
  Nat.length_toDigits_pos

theorem length_natText_le {n k : Nat} (hk : 0 < k) (h : n < 10 ^ k) : (natText n).length ≤ k :=
  (length_natText_le_iff hk).2 h

/-- The next number has at most one digit more. -/
theorem length_natText_succ_le {n k : Nat} (h : (natText n).length ≤ k) :
    (natText (n + 1)).length ≤ k + 1 := by
  have hk : 0 < k := Nat.lt_of_lt_of_le (length_natText_pos n) h
  refine length_natText_le (Nat.succ_pos k) ?_
  have hlt := (length_natText_le_iff hk).1 h
  rw [Nat.pow_succ]
  omega

/-- The digits of a factor are counted separately. -/
theorem length_natText_le_of_le_mul {v u n a b k : Nat} (hv : v ≤ u * n) (hu : u < 10 ^ a)
    (hn : n ≤ 10 ^ b) (hk : 0 < k) (hab : a + b ≤ k) : (natText v).length ≤ k := by
  refine length_natText_le hk (Nat.lt_of_le_of_lt hv (Nat.lt_of_lt_of_le ?_
    (Nat.pow_le_pow_right (by decide) hab)))
  calc u * n ≤ u * 10 ^ b := Nat.mul_le_mul_left u hn
    _ < 10 ^ a * 10 ^ b := (Nat.mul_lt_mul_right (Nat.pow_pos (by decide))).2 hu
    _ = 10 ^ (a + b) := (Nat.pow_add 10 a b).symm

theorem pow_ten_le (k : Nat) : Nat.pow 10 k ≤ 10 ^ k :=
  Nat.le_refl _

theorem lt_length_natText_mul {u n k : Nat} (hk : 0 < k) (hu : 0 < u) (hn : 10 ^ k ≤ n) :
    k < (natText (u * n)).length := by
  rw [← Nat.not_le, length_natText_le_iff hk, Nat.not_lt]
  exact Nat.le_trans hn (Nat.le_mul_of_pos_left n hu)

/-- A multiple by a power of ten is written with as many zeros behind it. -/
theorem natText_mul_pow {n : Nat} (hn : n ≠ 0) (k : Nat) :
    natText (n * 10 ^ k) = natText n ++ List.replicate k '0' := by
  induction k with
  | zero => simp
  | succ k ih =>
    have hpos : 0 < n * 10 ^ k := Nat.mul_pos (Nat.pos_of_ne_zero hn) (Nat.pow_pos (by decide))
    have happend := Nat.toDigits_append_toDigits (b := 10) (d := 0) (by decide) hpos (by decide)
    have hmul : n * 10 ^ (k + 1) = 10 * (n * 10 ^ k) + 0 := by
      rw [Nat.pow_succ, ← Nat.mul_assoc, Nat.mul_comm, Nat.add_zero]
    rw [natText, hmul, ← happend, Nat.toDigits_zero, ← natText, ih, List.append_assoc,
      List.replicate_succ']

/-- No zero stands in front of other digits. -/
theorem head?_natText {n : Nat} (hn : n ≠ 0) : (natText n).head? ≠ some '0' := by
  induction n using Nat.strongRecOn with
  | ind n ih =>
    rw [natText, Nat.toDigits_eq_if (by decide)]
    split
    · next hlt =>
      have hdigits : ∀ m < 10, m ≠ 0 → Nat.digitChar m ≠ '0' := by decide
      simpa using hdigits n hlt hn
    · next hge =>
      have hdiv : n / 10 ≠ 0 := by omega
      have hhead := ih (n / 10) (by omega) hdiv
      obtain ⟨c, cs, hcs⟩ := List.exists_cons_of_ne_nil (natText_ne_nil (n / 10))
      rw [hcs] at hhead
      rw [← natText, hcs]
      exact hhead

/-! ## Rounding -/

/-- Rounding a quotient does not depend on how the fraction is reduced. -/
theorem roundQuotient_mul {k : Nat} (hk : 0 < k) (a d : Nat) :
    roundQuotient (a * k) (d * k) = roundQuotient a d := by
  have hlt : 2 * (a % d * k) < d * k ↔ 2 * (a % d) < d := by
    rw [← Nat.mul_assoc]
    exact Nat.mul_lt_mul_right hk
  have heq : 2 * (a % d * k) = d * k ↔ 2 * (a % d) = d := by
    rw [← Nat.mul_assoc]
    exact Nat.mul_left_inj hk.ne'
  simp only [roundQuotient, Nat.mul_mod_mul_right, Nat.mul_div_mul_right _ _ hk, hlt, heq]

/-- A quotient without remainder is its own rounding. -/
theorem roundQuotient_of_dvd {a d : Nat} (hd : 0 < d) : roundQuotient (a * d) d = a := by
  rw [roundQuotient, if_pos, Nat.mul_div_cancel _ hd]
  simp [hd]

namespace Binary64

theorem nearest_mul {k : Nat} (hk : 0 < k) (a d : Nat) : nearest (a * k) (d * k) = nearest a d := by
  have hplace : lastPlace (a * k) (d * k) = lastPlace a d := by
    rw [lastPlace, lastPlace, Nat.mul_div_mul_right _ _ hk]
  rw [nearest, nearest, hplace, Nat.mul_right_comm, roundQuotient_mul hk]

/-- Quotients of the same size are rounded to the same magnitude. -/
theorem nearest_eq {a d a' d' : Nat} (hd : 0 < d) (hd' : 0 < d') (h : a * d' = a' * d) :
    nearest a d = nearest a' d' := by
  rw [← nearest_mul hd' a d, ← nearest_mul hd a' d', h, Nat.mul_comm d d']

/-- Equal fractions are rounded to the same double. -/
theorem ofRatio_eq (negative : Bool) {a d a' d' : Nat} (hd : 0 < d) (hd' : 0 < d')
    (h : a * d' = a' * d) : ofRatio negative a d = ofRatio negative a' d' := by
  rw [ofRatio, ofRatio, nearest_eq hd hd' (by rw [Nat.mul_right_comm, h, Nat.mul_right_comm])]

theorem binade_eq : binade = 2 ^ 52 := by decide

/-- The last place of a whole number is fixed by its number of bits. -/
theorem lastPlace_eq {u p : Nat} (hlow : 2 ^ (52 + p) ≤ u) (hhigh : u < 2 ^ (53 + p)) :
    lastPlace u 1 = p := by
  have hne : u ≠ 0 := by
    have := Nat.pow_pos (n := 52 + p) (show 0 < 2 by decide)
    omega
  have hle := (Nat.le_log2 hne).2 hlow
  have hlt := (Nat.log2_lt hne).2 hhigh
  rw [lastPlace, Nat.div_one]
  omega

/-- A finite magnitude is nearest to its own size. -/
theorem nearest_units {m : Nat} (hm : m < infinityBits) : nearest (units m) 1 = m := by
  unfold units
  split
  · next hlt =>
    have hplace : lastPlace m 1 = 0 := by
      rw [lastPlace, Nat.div_one]
      by_cases hzero : m = 0
      · simp [hzero]
      · have := (Nat.log2_lt (k := 53) hzero).2 (by rw [binade_eq] at hlt; omega)
        omega
    have hround := roundQuotient_of_dvd (a := m) (d := 1) (by decide)
    rw [Nat.mul_one] at hround
    rw [nearest, hplace, Nat.pow_eq, Nat.pow_zero, Nat.mul_one, hround]
    omega
  · next hge =>
    have hquotient : 2 ≤ m / binade := (Nat.le_div_iff_mul_le (by decide)).2 (by omega)
    have hrest : m % binade < binade := Nat.mod_lt _ (by decide)
    obtain ⟨p, hp⟩ : ∃ p, m / binade = p + 1 := ⟨m / binade - 1, by omega⟩
    have hpos : 0 < 2 ^ p := Nat.pow_pos (by decide)
    have hplace : lastPlace ((binade + m % binade) * 2 ^ p) 1 = p := by
      refine lastPlace_eq ?_ ?_
      · rw [Nat.pow_add, ← binade_eq]
        exact Nat.mul_le_mul_right _ (Nat.le_add_right _ _)
      · rw [Nat.pow_add]
        refine Nat.mul_lt_mul_of_pos_right ?_ hpos
        rw [binade_eq] at hrest ⊢
        omega
    have hm' : binade * (m / binade) + m % binade = m := Nat.div_add_mod m binade
    rw [hp, Nat.add_sub_cancel, nearest, Nat.pow_eq, hplace, Nat.pow_eq, Nat.one_mul,
      roundQuotient_of_dvd hpos]
    rw [hp, Nat.mul_add, Nat.mul_comm binade p] at hm'
    omega

/-! ## Decimals of the same size -/

/-- Zeros moved from the coefficient to the exponent leave the leading place where it is. -/
theorem leading_scale {c : Nat} (hc : c ≠ 0) (k : Nat) (e : Int) :
    Decimal.leading ⟨c * 10 ^ k, e - k⟩ = Decimal.leading ⟨c, e⟩ := by
  simp only [Decimal.leading, natText_mul_pow hc, List.length_append, List.length_replicate]
  omega

/-- The decimal point may stand elsewhere. -/
theorem ofDecimal_scale (negative : Bool) {c : Nat} (hc : c ≠ 0) (k : Nat) {e : Int}
    (he : e ≤ 400) : ofDecimal negative ⟨c * 10 ^ k, e - k⟩ = ofDecimal negative ⟨c, e⟩ := by
  have hmul : c * 10 ^ k ≠ 0 := Nat.mul_ne_zero hc (Nat.pow_pos (by decide)).ne'
  unfold ofDecimal
  rw [leading_scale hc]
  simp only [hmul, hc, false_or]
  split
  · rfl
  · rw [if_neg (by omega), if_neg (by omega)]
    refine ofRatio_eq negative (Nat.pow_pos (by decide)) (Nat.pow_pos (by decide)) ?_
    have hexp : k + (e - k).toNat + (-e).toNat = e.toNat + (-(e - k)).toNat := by omega
    calc c * 10 ^ k * Nat.pow 10 (e - k).toNat * Nat.pow 10 (-e).toNat
        = c * 10 ^ (k + (e - k).toNat + (-e).toNat) := by
          simp only [Nat.pow_eq, Nat.pow_add]
          ring
      _ = c * Nat.pow 10 e.toNat * Nat.pow 10 (-(e - k)).toNat := by
          rw [hexp]
          simp only [Nat.pow_eq, Nat.pow_add]
          ring

/-! ## The shortest decimal -/

theorem units_pos {m : Nat} (hm : m ≠ 0) : 0 < units m := by
  unfold units
  split
  · exact Nat.pos_of_ne_zero hm
  · exact Nat.mul_pos (Nat.add_pos_left (by decide) _) (Nat.pow_pos (by decide))

theorem units_le {m n : Nat} (hm : m < infinityBits) (hn : 2046 ≤ n) :
    units m ≤ 2 * binade * 2 ^ n := by
  unfold units
  split
  · next hlt => exact Nat.le_trans hlt.le (Nat.le_mul_of_pos_right _ (Nat.pow_pos (by decide)))
  · have hrest : m % binade < binade := Nat.mod_lt _ (by decide)
    have hquotient : m / binade < 2047 := Nat.div_lt_of_lt_mul (by rwa [Nat.mul_comm])
    exact Nat.mul_le_mul (by omega) (Nat.pow_le_pow_right (by decide) (by omega))

/-- Every finite double is below a fixed power of ten, counted in units of the smallest. -/
theorem units_lt {m : Nat} (hm : m < infinityBits) : units m < 10 ^ 700 := by
  have hbound : 2 * binade * 2 ^ 2046 < 10 ^ 700 := by decide +kernel
  exact Nat.lt_of_le_of_lt (units_le hm (Nat.le_refl 2046)) hbound

theorem ofMagnitude_self {x : Binary64} (hx : x.magnitude ≤ infinityBits) :
    ofMagnitude x.negative x.magnitude = x := by
  obtain ⟨negative, magnitude, hlt⟩ := x
  simp only [ofMagnitude, mk.injEq, true_and]
  exact Nat.min_eq_left hx

/-- A finite double is the rounding of its own value, written with all the decimals of its smallest
unit. -/
theorem ofRatio_units {x : Binary64} (hx : x.magnitude < infinityBits) (n : Nat)
    (hn : n = 1074) :
    ofRatio x.negative (units x.magnitude * Nat.pow 5 n * Nat.pow 10 0) (Nat.pow 10 n) = x := by
  have hsize : nearest (units x.magnitude * Nat.pow 5 n * Nat.pow 10 0 * Nat.pow 2 n)
    (Nat.pow 10 n) =
      x.magnitude := by
    refine (nearest_eq (Nat.pow_pos (by decide)) Nat.one_pos ?_).trans (nearest_units hx)
    have hpow : 10 ^ n = 5 ^ n * 2 ^ n := by rw [← Nat.mul_pow]
    simp only [Nat.pow_eq, hpow]
    ring
  rw [ofRatio, ← hn, hsize]
  exact ofMagnitude_self hx.le

theorem pow_five_large : 10 ^ 674 ≤ Nat.pow 5 1074 := by decide +kernel

theorem pow_five_small : Nat.pow 5 1074 ≤ 10 ^ 1000 := by decide +kernel

/-- The expansion is exact. -/
theorem ofDecimal_expansion {x : Binary64} (hx : x.magnitude < infinityBits)
    (hzero : x.magnitude ≠ 0) : ofDecimal x.negative x.expansion = x := by
  have hunits := units_pos hzero
  have hlength := lt_length_natText_mul (by decide) hunits pow_five_large
  have hne : units x.magnitude * Nat.pow 5 1074 ≠ 0 :=
    Nat.mul_ne_zero hunits.ne' (Nat.pow_pos (by decide)).ne'
  have hexact := ofRatio_units hx 1074 rfl
  unfold ofDecimal expansion Decimal.leading
  dsimp only
  rw [if_neg (by omega), if_neg (by omega)]
  exact hexact

/-- Whichever of the two decimals around a double is chosen, it reads back as the double. -/
theorem of_enclosing {x : Binary64} {below above d : Decimal} {near : Bool}
    (h : (if x.readsBack below && near then some below
      else if x.readsBack above then some above else none) = some d) :
    x.readsBack d = true ∧ (d = below ∨ d = above) := by
  split at h
  · next hbelow =>
    obtain rfl := Option.some.inj h
    rw [Bool.and_eq_true] at hbelow
    exact ⟨hbelow.1, .inl rfl⟩
  · split at h
    · next habove =>
      obtain rfl := Option.some.inj h
      exact ⟨habove, .inr rfl⟩
    · cases h

/-- A decimal found for a number of digits reads back, since only such ones are found. -/
theorem readsBack_of_withDigits? {x : Binary64} {place : Int} {count : Nat} {d : Decimal}
    (h : x.withDigits? place count = some d) : x.readsBack d = true :=
  (of_enclosing h).1

/-- A finite number other than zero is the one nearest to its shortest decimal. -/
theorem ofDecimal_shortest {x : Binary64} (hx : x.magnitude < infinityBits)
    (hzero : x.magnitude ≠ 0) : ofDecimal x.negative x.shortest = x := by
  unfold shortest
  dsimp only
  cases hfound : (List.range' 1 17).findSome? fun (count : Nat) =>
      x.withDigits? (x.leading - count + 1) count with
  | none => exact ofDecimal_expansion hx hzero
  | some d =>
    obtain ⟨count, -, hd⟩ := List.exists_of_findSome?_eq_some hfound
    simpa [readsBack] using readsBack_of_withDigits? hd

/-- The shortest decimal of a nonzero double is not zero. -/
theorem coefficient_shortest_ne_zero {x : Binary64} (hx : x.magnitude < infinityBits)
    (hzero : x.magnitude ≠ 0) : x.shortest.coefficient ≠ 0 := by
  intro hcoefficient
  have hround := ofDecimal_shortest hx hzero
  rw [ofDecimal, if_pos (.inl hcoefficient)] at hround
  exact hzero (congrArg magnitude hround).symm

/-! ## The first digit -/

theorem leading_bounds {x : Binary64} (hx : x.magnitude < infinityBits) :
    -401 < x.leading ∧ x.leading < 700 := by
  have hle : (natText (units x.magnitude * Nat.pow 10 400 / Nat.pow 2 1074)).length ≤ 1100 :=
    length_natText_le_of_le_mul (Nat.div_le_self _ _) (units_lt hx) (pow_ten_le 400) (by decide)
      (by decide)
  have hpos := length_natText_pos (units x.magnitude * Nat.pow 10 400 / Nat.pow 2 1074)
  unfold leading
  omega

/-- The first digit of a decimal that encloses a number. -/
theorem leading_withDigits? {x : Binary64} (hx : x.magnitude < infinityBits) {place : Int}
    {count : Nat} {d : Decimal} (h : x.withDigits? place count = some d)
    (hplace : -1000 < place ∧ place < 1000)
    (hcount : count < 100) : -3000 < d.leading ∧ d.leading < 3000 := by
  have hlength : ∀ lower, lower ≤ units x.magnitude * Nat.pow 10 (-place).toNat →
      (natText lower).length ≤ 1700 ∧ (natText (lower + 1)).length ≤ 1701 := by
    intro lower hlower
    have hle := length_natText_le_of_le_mul (k := 1700) hlower (units_lt hx) (pow_ten_le _)
      (by decide) (by omega)
    exact ⟨hle, length_natText_succ_le hle⟩
  obtain ⟨hlower, hupper⟩ :=
    hlength _ (Nat.div_le_self (units x.magnitude * Nat.pow 10 (-place).toNat)
    (Nat.pow 2 1074 * Nat.pow 10 place.toNat))
  have hone : (natText 1).length = 1 := rfl
  obtain rfl | habove := (of_enclosing h).2
  · simp only [Decimal.leading]
    omega
  · split at habove <;> subst habove <;> simp only [Decimal.leading] <;> omega

theorem leading_shortest {x : Binary64} (hx : x.magnitude < infinityBits) :
    -3000 < x.shortest.leading ∧ x.shortest.leading < 3000 := by
  have hfirst := leading_bounds hx
  unfold shortest
  dsimp only
  cases hfound : (List.range' 1 17).findSome? fun (count : Nat) =>
      x.withDigits? (x.leading - count + 1) count with
  | none =>
    have hlength : (natText (units x.magnitude * Nat.pow 5 1074)).length ≤ 1700 :=
      length_natText_le_of_le_mul (Nat.le_refl _) (units_lt hx) pow_five_small (by decide)
        (by decide)
    have hpos := length_natText_pos (units x.magnitude * Nat.pow 5 1074)
    simp only [Option.getD_none, expansion, Decimal.leading]
    omega
  | some d =>
    obtain ⟨count, hcount, hd⟩ := List.exists_of_findSome?_eq_some hfound
    rw [List.mem_range'_1] at hcount
    exact leading_withDigits? hx hd (by omega) (by omega)

end Binary64

end KernelIR
