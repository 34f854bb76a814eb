import PageQuery.Proofs.Rounding

/-!
# Rounded sums, differences and quotients

`IsRounded q x`: the double `x` is the number `q` rounded, which is infinity for a number beyond the
doubles.  The operations round what the numbers add up to or divide to (`isRounded_add`,
`isRounded_sub`, `isRounded_div`).

Rounding keeps the order of numbers, in which the places of doubles stand (`IsRounded.place_le`), and
leaves alone what is a double (`IsRounded.exact`), such as a whole number up to `2 ^ 53`
(`IsInteger`).
-/

namespace PageQuery.Binary64

variable {p q : ℚ} {x y : Binary64}

/-! ### Places and values -/

/-- the places of doubles stand as their values do -/
theorem place_le_place : x.place ≤ y.place ↔ x.value ≤ y.value := by
  have hle : ∀ r s : Nat, (unitsOfRank r / unitsPerOne : ℚ) ≤ unitsOfRank s / unitsPerOne ↔ r ≤ s := by
    intro r s
    rw [div_le_div_iff_of_pos_right unitsPerOne_pos, Nat.cast_le]
    exact unitsOfRank_strictMono.le_iff_le
  have hzero : (unitsOfRank 0 / unitsPerOne : ℚ) = 0 := by
    rw [unitsOfRank_zero, Nat.cast_zero, zero_div]
  obtain ⟨negative, r⟩ := x
  obtain ⟨negative', s⟩ := y
  have hr := unitsOfRank_div_nonneg r
  have hs := unitsOfRank_div_nonneg s
  rw [value_eq, value_eq]
  cases negative with
  | false =>
    cases negative' with
    | false => exact Int.ofNat_le.trans (hle r s).symm
    | true =>
      -- only zero is on both sides
      show (r : Int) ≤ -(s : Int) ↔ (unitsOfRank r / unitsPerOne : ℚ) ≤ -(unitsOfRank s / unitsPerOne)
      constructor
      · intro h
        obtain ⟨rfl, rfl⟩ : r = 0 ∧ s = 0 := by omega
        rw [hzero, neg_zero]
      · intro h
        have hr0 := (hle r 0).1 (by linarith)
        have hs0 := (hle s 0).1 (by linarith)
        omega
  | true =>
    cases negative' with
    | false =>
      show -(r : Int) ≤ (s : Int) ↔ -(unitsOfRank r / unitsPerOne : ℚ) ≤ unitsOfRank s / unitsPerOne
      exact iff_of_true (by omega) (by linarith)
    | true => exact neg_le_neg_iff.trans (Int.ofNat_le.trans ((hle s r).symm.trans neg_le_neg_iff.symm))

theorem place_lt_place : x.place < y.place ↔ x.value < y.value := by
  rw [← not_le, place_le_place, not_le]

theorem place_eq_place : x.place = y.place ↔ x.value = y.value := by
  rw [le_antisymm_iff, place_le_place, place_le_place, ← le_antisymm_iff]

theorem value_zero : value zero = 0 := value_eq_zero_of_rank rfl

theorem natAbs_place (x : Binary64) : x.place.natAbs = x.rank := by
  unfold place
  split
  · omega
  · omega

theorem rank_eq_of_place_eq (h : x.place = y.place) : x.rank = y.rank := by
  rw [← natAbs_place x, ← natAbs_place y, h]

/-- a place is one of a double, but zero is one of two -/
theorem eq_of_place_eq (h : x.place = y.place) (hy : y.place ≠ 0) : x = y := by
  have hrank := rank_eq_of_place_eq h
  obtain ⟨negative, r⟩ := x
  obtain ⟨negative', s⟩ := y
  obtain rfl : r = s := hrank
  unfold place at h hy
  cases negative with
  | false =>
    cases negative' with
    | false => rfl
    | true => simp at h hy; omega
  | true =>
    cases negative' with
    | false => simp at h hy; omega
    | true => rfl

theorem place_eq_zero_iff : x.place = 0 ↔ x.isZero = true := by
  have habs := natAbs_place x
  rw [isZero, beq_iff_eq]
  omega

theorem negative_of_place_pos (h : 0 < x.place) : x.negative = false := by
  unfold place at h
  split at h
  · omega
  · simpa using ‹¬x.negative = true›

theorem value_neg_iff : x.value < 0 ↔ x.negative = true ∧ 0 < x.rank := by
  rw [← value_zero, ← place_lt_place]
  show x.place < 0 ↔ _
  unfold place
  cases x.negative with
  | false => simp
  | true => simp

theorem value_pos_iff : 0 < x.value ↔ x.negative = false ∧ 0 < x.rank := by
  rw [← value_zero, ← place_lt_place]
  show 0 < x.place ↔ _
  unfold place
  cases x.negative with
  | false => simp
  | true => simp

theorem isNaN_of_isFinite (h : x.isFinite = true) : x.isNaN = false := by
  have hrank := isFinite_iff.1 h
  exact decide_eq_false (by omega)

theorem isInfinite_of_isFinite (h : x.isFinite = true) : x.isInfinite = false := by
  have hrank := isFinite_iff.1 h
  exact beq_eq_false_iff_ne.2 (by omega)

theorem isFinite_of_not (hnan : ¬x.isNaN = true) (hinfinite : ¬x.isInfinite = true) :
    x.isFinite = true := by
  have hle : ¬infinityRank < x.rank := by simpa [isNaN] using hnan
  have hne : ¬x.rank = infinityRank := by simpa [isInfinite] using hinfinite
  exact isFinite_iff.2 (by omega)

theorem le_iff (hx : x.isNaN = false) (hy : y.isNaN = false) :
    le x y = true ↔ x.value ≤ y.value := by
  rw [← place_le_place, le, hx, hy]
  simp

theorem lt_iff (hx : x.isNaN = false) (hy : y.isNaN = false) :
    lt x y = true ↔ x.value < y.value := by
  rw [← place_lt_place, lt, hx, hy]
  simp

theorem abs_value_mul (x : Binary64) : |x.value| * unitsPerOne = unitsOfRank x.rank := by
  rw [value_eq, abs_signedValue _ (unitsOfRank_div_nonneg _), div_mul_cancel₀ _ unitsPerOne_pos.ne']

/-! ### Rounded numbers -/

/-- **Rounded numbers.**  The magnitude of the double is the one of the number, rounded, and the sign
is the one of the number. -/
structure IsRounded (q : ℚ) (x : Binary64) : Prop where
  rank : ∃ r, RoundsTo (|q| * unitsPerOne) r ∧ x.rank = min infinityRank r
  below : q < 0 → x.negative = true
  above : 0 < q → x.negative = false

/-- a finite double is its value rounded -/
theorem isRounded_value (hx : x.isFinite = true) : IsRounded x.value x := by
  have hrank := isFinite_iff.1 hx
  refine ⟨⟨x.rank, ?_, by omega⟩, fun h => (value_neg_iff.1 h).1, fun h => (value_pos_iff.1 h).1⟩
  rw [abs_value_mul]
  exact roundsTo_unitsOfRank x.rank

namespace IsRounded

theorem rank_le_infinityRank (h : IsRounded q x) : x.rank ≤ infinityRank := by
  obtain ⟨r, -, hrank⟩ := h.rank
  omega

theorem rank_eq_zero (h : IsRounded 0 x) : x.rank = 0 := by
  obtain ⟨r, hr, hrank⟩ := h.rank
  rw [abs_zero, zero_mul] at hr
  obtain rfl := hr.unique (roundsTo_zero le_rfl (by norm_num))
  omega

theorem nonneg (h : IsRounded q x) (hx : x.negative = false) : 0 ≤ q := by
  by_contra hlt
  rw [h.below (not_le.1 hlt)] at hx
  cases hx

theorem nonpos (h : IsRounded q x) (hx : x.negative = true) : q ≤ 0 := by
  by_contra hlt
  rw [h.above (not_le.1 hlt)] at hx
  cases hx

theorem rank_le (hx : IsRounded p x) (hy : IsRounded q y) (h : |p| ≤ |q|) : x.rank ≤ y.rank := by
  obtain ⟨r, hr, hxrank⟩ := hx.rank
  obtain ⟨s, hs, hyrank⟩ := hy.rank
  have hle := hr.mono hs (mul_le_mul_of_nonneg_right h unitsPerOne_pos.le)
  omega

/-- **Rounding keeps the order of numbers.** -/
theorem place_le (hx : IsRounded p x) (hy : IsRounded q y) (h : p ≤ q) : x.place ≤ y.place := by
  unfold place
  cases hxsign : x.negative with
  | false =>
    have hp := hx.nonneg hxsign
    rw [if_neg Bool.false_ne_true]
    cases hysign : y.negative with
    | false =>
      have hle := hx.rank_le hy (by rwa [abs_of_nonneg hp, abs_of_nonneg (hp.trans h)])
      rw [if_neg Bool.false_ne_true]
      omega
    | true =>
      -- both are zero
      have hq := hy.nonpos hysign
      obtain rfl : p = 0 := le_antisymm (h.trans hq) hp
      obtain rfl : q = 0 := le_antisymm hq h
      have hx0 := hx.rank_eq_zero
      have hy0 := hy.rank_eq_zero
      rw [if_pos rfl]
      omega
  | true =>
    rw [if_pos rfl]
    cases hysign : y.negative with
    | false =>
      rw [if_neg Bool.false_ne_true]
      omega
    | true =>
      have hq := hy.nonpos hysign
      have hle := hy.rank_le hx (by
        rw [abs_of_nonpos hq, abs_of_nonpos (h.trans hq)]
        exact neg_le_neg h)
      rw [if_pos rfl]
      omega

/-- **What is a double is left alone.** -/
theorem exact (hx : IsRounded y.value x) (hy : y.isFinite = true) :
    x.isFinite = true ∧ x.value = y.value := by
  have hplace : x.place = y.place :=
    le_antisymm (hx.place_le (isRounded_value hy) le_rfl)
      ((isRounded_value hy).place_le hx le_rfl)
  refine ⟨isFinite_iff.2 ?_, place_eq_place.1 hplace⟩
  rw [rank_eq_of_place_eq hplace]
  exact isFinite_iff.1 hy

end IsRounded

theorem isRounded_ofRatio {negative : Bool} {n d : Nat} (hd : 0 < d)
    (hq : |q| * unitsPerOne * d = n) (hbelow : q < 0 → negative = true)
    (habove : 0 < q → negative = false) : IsRounded q (ofRatio negative n d) := by
  obtain ⟨r, hr, heq⟩ := ofRatio_spec negative n hd hq
  rw [heq]
  exact ⟨⟨r, hr, rfl⟩, hbelow, habove⟩

theorem isRounded_zero (negative : Bool) : IsRounded 0 ⟨negative, 0⟩ := by
  refine ⟨⟨0, ?_, rfl⟩, fun h => absurd h (lt_irrefl 0), fun h => absurd h (lt_irrefl 0)⟩
  rw [abs_zero, zero_mul]
  exact roundsTo_zero le_rfl (by norm_num)

/-! ### Operations -/

/-- a number of units, positive or negative -/
theorem isRounded_units {s : Int} {negative : Bool} (hbelow : s < 0 → negative = true)
    (habove : 0 < s → negative = false) :
    IsRounded (s / unitsPerOne) (ofRatio negative s.natAbs 1) := by
  have hpos := unitsPerOne_pos
  refine isRounded_ofRatio Nat.one_pos ?_ (fun h => hbelow ?_) (fun h => habove ?_)
  · rw [abs_div, abs_of_pos hpos, div_mul_cancel₀ _ hpos.ne', Nat.cast_one, mul_one,
      Nat.cast_natAbs, Int.cast_abs]
  · exact_mod_cast neg_of_div_neg_left h hpos.le
  · exact_mod_cast (div_pos_iff_of_pos_right hpos).1 h

theorem isRounded_add (hx : x.isFinite = true) (hy : y.isFinite = true) :
    IsRounded (x.value + y.value) (x.add y) := by
  have hsum : x.value + y.value = ((x.scaled + y.scaled : Int) : ℚ) / unitsPerOne := by
    rw [Int.cast_add, add_div]
    rfl
  unfold add
  rw [hsum, isNaN_of_isFinite hx, isNaN_of_isFinite hy, isInfinite_of_isFinite hx,
    isInfinite_of_isFinite hy]
  dsimp only
  generalize x.scaled + y.scaled = s
  by_cases hs : s = 0
  · subst hs
    rw [Int.cast_zero, zero_div]
    exact isRounded_zero _
  · have hne : ¬(s == 0) = true := by simpa using hs
    rw [if_neg (by decide), if_neg (by decide), if_neg (by decide), if_neg hne]
    apply isRounded_units
    · intro h
      simpa using h
    · intro h
      simpa using h.le

theorem neg_isFinite (x : Binary64) : x.neg.isFinite = x.isFinite := rfl

theorem value_neg (x : Binary64) : x.neg.value = -x.value := by
  rw [value_eq, value_eq]
  unfold neg signedValue
  cases x.negative with
  | false => rfl
  | true => exact (neg_neg _).symm

theorem isRounded_sub (hx : x.isFinite = true) (hy : y.isFinite = true) :
    IsRounded (x.value - y.value) (x.sub y) := by
  rw [sub_eq_add_neg, ← value_neg]
  exact isRounded_add hx ((neg_isFinite y).trans hy)

/-- the magnitude of a quotient, in units and times the units of the divisor -/
theorem abs_div_value_mul (x : Binary64) (hy : y.isZero = false) :
    |x.value / y.value| * unitsPerOne * y.units = (x.units * unitsPerOne : ℕ) := by
  have hx := abs_value_mul x
  have hyunits := abs_value_mul y
  have hne : |y.value| ≠ 0 := by
    rw [abs_ne_zero, ← value_zero, Ne, ← place_eq_place]
    intro hplace
    rw [place_eq_zero_iff.1 hplace] at hy
    cases hy
  calc |x.value / y.value| * unitsPerOne * (y.units : ℚ)
      = |x.value| / |y.value| * unitsPerOne * (|y.value| * unitsPerOne) := by
        rw [abs_div, hyunits]
        rfl
    _ = |x.value| * unitsPerOne * unitsPerOne := by
        rw [mul_mul_mul_comm, div_mul_cancel₀ _ hne, mul_assoc]
    _ = (x.units * unitsPerOne : ℕ) := by
        rw [hx, Nat.cast_mul]
        rfl

theorem isRounded_div (hx : x.isFinite = true) (hy : y.isFinite = true)
    (hzero : y.isZero = false) : IsRounded (x.value / y.value) (x.div y) := by
  have hunits : unitsOfRank 0 < y.units :=
    unitsOfRank_strictMono (Nat.pos_of_ne_zero (beq_eq_false_iff_ne.1 hzero))
  unfold div
  rw [isNaN_of_isFinite hx, isNaN_of_isFinite hy, isInfinite_of_isFinite hx,
    isInfinite_of_isFinite hy, hzero]
  dsimp only
  rw [if_neg (by decide), if_neg (by decide), if_neg (by decide), if_neg (by decide)]
  refine isRounded_ofRatio (by omega) (abs_div_value_mul x hzero) (fun h => ?_) (fun h => ?_)
  · rcases div_neg_iff.1 h with ⟨hx, hy⟩ | ⟨hx, hy⟩
    · rw [(value_pos_iff.1 hx).1, (value_neg_iff.1 hy).1]
      rfl
    · rw [(value_neg_iff.1 hx).1, (value_pos_iff.1 hy).1]
      rfl
  · rcases div_pos_iff.1 h with ⟨hx, hy⟩ | ⟨hx, hy⟩
    · rw [(value_pos_iff.1 hx).1, (value_pos_iff.1 hy).1]
      rfl
    · rw [(value_neg_iff.1 hx).1, (value_neg_iff.1 hy).1]
      rfl

/-- only of finite numbers the sum is finite -/
theorem isFinite_of_add (h : (x.add y).isFinite = true) :
    x.isFinite = true ∧ y.isFinite = true := by
  have hnan : nan.isFinite = false := by decide
  unfold add at h
  split at h
  · rw [hnan] at h
    cases h
  · rename_i hne
    rw [Bool.or_eq_true, not_or] at hne
    split at h
    · split at h
      · rw [hnan] at h
        cases h
      · rw [isInfinite_of_isFinite h] at *
        contradiction
    · split at h
      · rw [isInfinite_of_isFinite h] at *
        contradiction
      · exact ⟨isFinite_of_not hne.1 ‹_›, isFinite_of_not hne.2 ‹_›⟩

theorem isFinite_of_div (h : (x.div y).isFinite = true) : x.isFinite = true ∧ y.isNaN = false := by
  have hnan : nan.isFinite = false := by decide
  have hinfinity : ∀ s, isFinite ⟨s, infinityRank⟩ = false := by decide
  unfold div at h
  dsimp only at h
  split at h
  · rw [hnan] at h
    cases h
  · rename_i hne
    rw [Bool.or_eq_true, not_or] at hne
    split at h
    · split at h
      · rw [hnan] at h
        cases h
      · rw [hinfinity] at h
        cases h
    · exact ⟨isFinite_of_not hne.1 ‹_›, by simpa using hne.2⟩

/-! ### Whole numbers -/

/-- a whole number of up to 53 digits, and of zeros behind them, is the value of a rank -/
theorem exists_unitsOfRank_mul {n i : Nat} (hn : n ≤ 2 ^ 53) (hi : i ≤ 900) :
    ∃ r, r < infinityRank ∧ unitsOfRank r = n * 2 ^ i * unitsPerOne := by
  rcases Nat.eq_zero_or_pos n with rfl | hpos
  · exact ⟨0, by decide, by rw [unitsOfRank_zero, Nat.zero_mul, Nat.zero_mul]⟩
  · -- so many digits are missing to fill the binade
    obtain ⟨j, hj⟩ : ∃ j, j = 52 - n.log2 := ⟨_, rfl⟩
    have hlow : 2 ^ n.log2 ≤ n := Nat.log2_self_le (Nat.ne_of_gt hpos)
    have hhigh : n < 2 ^ (n.log2 + 1) := Nat.lt_log2_self
    have hge : 2 ^ 52 ≤ n * 2 ^ j :=
      calc 2 ^ 52 ≤ 2 ^ (n.log2 + j) := Nat.pow_le_pow_right (by decide) (by omega)
        _ = 2 ^ n.log2 * 2 ^ j := Nat.pow_add 2 _ _
        _ ≤ n * 2 ^ j := Nat.mul_le_mul_right _ hlow
    have hle : n * 2 ^ j ≤ 2 ^ 53 := by
      rcases Nat.eq_zero_or_pos j with rfl | hjpos
      · rwa [Nat.pow_zero, Nat.mul_one]
      · calc n * 2 ^ j ≤ 2 ^ (n.log2 + 1) * 2 ^ j := Nat.mul_le_mul_right _ hhigh.le
          _ = 2 ^ (n.log2 + 1 + j) := (Nat.pow_add 2 _ _).symm
          _ ≤ 2 ^ 53 := Nat.pow_le_pow_right (by decide) (by omega)
    refine ⟨(i + (1074 - j)) * Nat.pow 2 52 + n * 2 ^ j, ?_, ?_⟩
    · have hk : (i + (1074 - j)) * Nat.pow 2 52 ≤ 1974 * Nat.pow 2 52 :=
        Nat.mul_le_mul_right _ (by omega)
      have htop : 1974 * Nat.pow 2 52 + 2 ^ 53 < infinityRank := by decide
      exact (Nat.add_le_add hk hle).trans_lt htop
    · have hunit : 2 ^ j * 2 ^ (1074 - j) = unitsPerOne := by
        unfold unitsPerOne
        generalize hk : 1074 = k
        exact pow_mul_pow_sub 2 (by omega)
      rw [unitsOfRank_binade hle (Or.inr hge), Nat.pow_add, ← hunit]
      ring

/-- a whole number up to `2 ^ 53` is the value of a rank -/
theorem exists_unitsOfRank {n : Nat} (hn : n ≤ 2 ^ 53) :
    ∃ r, r < infinityRank ∧ unitsOfRank r = n * unitsPerOne := by
  obtain ⟨r, hr, hunits⟩ := exists_unitsOfRank_mul hn (Nat.zero_le 900)
  rw [Nat.pow_zero, Nat.mul_one] at hunits
  exact ⟨r, hr, hunits⟩

/-- the double is this whole number -/
structure IsInteger (x : Binary64) (n : Int) : Prop where
  finite : x.isFinite = true
  value : x.value = n

/-- a whole number up to `2 ^ 53`, with a sign or without one, is a double -/
theorem exists_isInteger {n : Int} (hn : |n| ≤ 2 ^ 53) : ∃ x, IsInteger x n := by
  have habs : |n| = n.natAbs := Int.abs_eq_natAbs n
  obtain ⟨r, hr, hunits⟩ := exists_unitsOfRank (n := n.natAbs) (by omega)
  refine ⟨⟨decide (n < 0), r⟩, isFinite_iff.2 hr, ?_⟩
  rw [value_eq]
  dsimp only
  rw [hunits, Nat.cast_mul, mul_div_cancel_right₀ _ unitsPerOne_pos.ne', Nat.cast_natAbs]
  unfold signedValue
  by_cases hneg : n < 0
  · rw [if_pos (decide_eq_true hneg), abs_of_neg hneg, Int.cast_neg, neg_neg]
  · rw [if_neg (by simpa using hneg), abs_of_nonneg (not_lt.1 hneg)]

/-- such a number is left alone -/
theorem IsRounded.isInteger {n : Int} (h : IsRounded n x) (hn : |n| ≤ 2 ^ 53) : IsInteger x n := by
  obtain ⟨y, hy, hvalue⟩ := exists_isInteger hn
  rw [← hvalue] at h
  obtain ⟨hfinite, hx⟩ := h.exact hy
  exact ⟨hfinite, hx.trans hvalue⟩

/-- a double that has such a value is finite -/
theorem isInteger_of_value_eq {n : Int} (h : x.value = n) (hn : |n| ≤ 2 ^ 53) : IsInteger x n := by
  obtain ⟨y, hy, hvalue⟩ := exists_isInteger hn
  have hrank : x.rank = y.rank :=
    rank_eq_of_place_eq (place_eq_place.2 (h.trans hvalue.symm))
  exact ⟨isFinite_iff.2 (hrank ▸ isFinite_iff.1 hy), h⟩

end PageQuery.Binary64
