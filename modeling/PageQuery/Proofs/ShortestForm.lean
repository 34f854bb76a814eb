import PageQuery.Proofs.Positional
import PageQuery.Proofs.Rounding

/-!
# The shortest form of a double

`IsShortest x d`: of the decimals that round to `x`, none has fewer digits than `d`, of those with as
many none is nearer to `x`, and of two equally near ones `d` is the greater.

The search for it goes over grids, the coarsest first, and ends at the first that has a point in the
interval of the double (`IsCoarsest`).  A point of a finer grid has more digits, or lies just below a
power of ten that is nearer to the double (`two_mul_lt_of_nine_ten`).  So what is found is the one
shortest form: `isShortest_iff`.
-/

namespace PageQuery

/-! ### Numbers of digits -/

namespace Number

/-- how many digits write a whole number -/
def digitCount (n : Nat) : Nat := (digitChars n).length

variable {a b c k : Nat}

theorem digitCount_pos (n : Nat) : 0 < digitCount n := Nat.length_toDigits_pos

theorem digitCount_le_iff (hk : 0 < k) : digitCount a ≤ k ↔ a < 10 ^ k :=
  Nat.length_toDigits_le_iff (by decide) hk

theorem lt_ten_pow_digitCount (n : Nat) : n < 10 ^ digitCount n :=
  (digitCount_le_iff (digitCount_pos n)).1 (Nat.le_refl _)

theorem digitCount_mono (h : a ≤ b) : digitCount a ≤ digitCount b :=
  (digitCount_le_iff (digitCount_pos b)).2 (Nat.lt_of_le_of_lt h (lt_ten_pow_digitCount b))

theorem lt_digitCount (h : 10 ^ k ≤ a) : k < digitCount a := by
  rcases Nat.eq_zero_or_pos k with rfl | hk
  · exact digitCount_pos a
  · by_contra hle
    have hlt := (digitCount_le_iff hk).1 (Nat.le_of_not_lt hle)
    omega

theorem ten_pow_le (ha : 0 < a) (hk : k < digitCount a) : 10 ^ k ≤ a := by
  rcases Nat.eq_zero_or_pos k with rfl | hpos
  · exact ha
  · by_contra hlt
    have hle := (digitCount_le_iff hpos).2 (Nat.lt_of_not_le hlt)
    omega

/-- every place more is a digit more -/
theorem digitCount_add_le (ha : 0 < a) (h : a * 10 ^ k ≤ c) : digitCount a + k ≤ digitCount c := by
  have hpos := digitCount_pos a
  have hfirst : 10 ^ (digitCount a - 1) ≤ a := ten_pow_le ha (by omega)
  have hplaces : 10 ^ (digitCount a - 1 + k) ≤ c := by
    rw [Nat.pow_add]
    exact Nat.le_trans (Nat.mul_le_mul_right _ hfirst) h
  have hlt := lt_digitCount hplaces
  omega

theorem ten_pow_digitCount_mod (n : Nat) : 10 ^ digitCount n % 10 = 0 := by
  obtain ⟨k, hk⟩ := Nat.exists_eq_succ_of_ne_zero (Nat.ne_of_gt (digitCount_pos n))
  rw [hk, Nat.pow_succ, Nat.mul_mod_left]

/-- the number of digits changes at a multiple of ten -/
theorem digitCount_eq (hab : a ≤ b) (h : ∀ c, a ≤ c → c ≤ b → c % 10 ≠ 0) :
    digitCount a = digitCount b := by
  apply Nat.le_antisymm (digitCount_mono hab)
  apply (digitCount_le_iff (digitCount_pos a)).2
  by_contra hb
  have ha := lt_ten_pow_digitCount a
  exact h (10 ^ digitCount a) (by omega) (by omega) (ten_pow_digitCount_mod a)

theorem digitCount_succ (h : (a + 1) % 10 ≠ 0) : digitCount (a + 1) = digitCount a := by
  apply Nat.le_antisymm _ (digitCount_mono (Nat.le_succ a))
  apply (digitCount_le_iff (digitCount_pos a)).2
  have ha := lt_ten_pow_digitCount a
  have hten := ten_pow_digitCount_mod a
  have hne : a + 1 ≠ 10 ^ digitCount a := by
    intro heq
    rw [← heq] at hten
    exact h hten
  omega

end Number

namespace Decimal

open Binary64 Number

/-! ### Picks -/

namespace Interval

variable {i : Interval} {grid : Nat}

theorem contains_between {a b x : Nat} (ha : i.contains a = true) (hb : i.contains b = true)
    (hax : a ≤ x) (hxb : x ≤ b) : i.contains x = true := by
  obtain ⟨halow, hahigh, haopen⟩ := contains_iff.1 ha
  obtain ⟨hblow, hbhigh, hbopen⟩ := contains_iff.1 hb
  refine contains_iff.2 ⟨by omega, by omega, ?_⟩
  rcases haopen with hclosed | haopen
  · exact Or.inl hclosed
  · refine hbopen.imp_right fun _ => ?_
    omega

/-- of the multiples of a grid in the interval the nearest to the value, and of two such the
greater -/
structure IsBest (i : Interval) (grid n : Nat) : Prop where
  inside : i.contains (2 * grid * n) = true
  nearest : ∀ c, i.contains (2 * grid * c) = true →
    |(i.value : ℤ) - (2 * grid * n : ℕ)| ≤ |(i.value : ℤ) - (2 * grid * c : ℕ)|
  upper : ∀ c, i.contains (2 * grid * c) = true →
    |(i.value : ℤ) - (2 * grid * n : ℕ)| = |(i.value : ℤ) - (2 * grid * c : ℕ)| → c ≤ n

/-! What the interval holds of a grid is judged at the two multiples around the value. -/

section Around

variable {a : Nat} (hvalue : i.contains i.value = true) (hlow : 2 * grid * a ≤ i.value)
  (hhigh : i.value < 2 * grid * (a + 1))

include hvalue hlow hhigh

/-- a multiple in the interval is one of the two around the value or lies beyond it -/
theorem contains_around {c : Nat} (hc : i.contains (2 * grid * c) = true) :
    c ≤ a ∧ i.contains (2 * grid * a) = true ∨
      a + 1 ≤ c ∧ i.contains (2 * grid * (a + 1)) = true := by
  rcases Nat.lt_or_ge a c with h | h
  · have habove : 2 * grid * (a + 1) ≤ 2 * grid * c := Nat.mul_le_mul_left _ h
    exact Or.inr ⟨h, contains_between hvalue hc (by omega) habove⟩
  · have hbelow : 2 * grid * c ≤ 2 * grid * a := Nat.mul_le_mul_left _ h
    exact Or.inl ⟨h, contains_between hc hvalue hbelow hlow⟩

theorem isBest_below (ha : i.contains (2 * grid * a) = true)
    (hnear : i.contains (2 * grid * (a + 1)) = true →
      i.value - 2 * grid * a < 2 * grid * (a + 1) - i.value) : i.IsBest grid a := by
  refine ⟨ha, fun c hc => ?_, fun c hc heq => ?_⟩
  · rcases contains_around hvalue hlow hhigh hc with ⟨h, -⟩ | ⟨h, hcontains⟩
    · have hbelow : 2 * grid * c ≤ 2 * grid * a := Nat.mul_le_mul_left _ h
      rw [abs_of_nonneg (by omega), abs_of_nonneg (by omega)]
      omega
    · have habove : 2 * grid * (a + 1) ≤ 2 * grid * c := Nat.mul_le_mul_left _ h
      have hnear := hnear hcontains
      rw [abs_of_nonneg (by omega), abs_of_nonpos (by omega)]
      omega
  · rcases contains_around hvalue hlow hhigh hc with ⟨h, -⟩ | ⟨h, hcontains⟩
    · exact h
    · have habove : 2 * grid * (a + 1) ≤ 2 * grid * c := Nat.mul_le_mul_left _ h
      have hnear := hnear hcontains
      rw [abs_of_nonneg (by omega), abs_of_nonpos (by omega)] at heq
      omega

theorem isBest_above (ha : i.contains (2 * grid * (a + 1)) = true)
    (hnear : i.contains (2 * grid * a) = true →
      2 * grid * (a + 1) - i.value ≤ i.value - 2 * grid * a) : i.IsBest grid (a + 1) := by
  refine ⟨ha, fun c hc => ?_, fun c hc heq => ?_⟩
  · rcases contains_around hvalue hlow hhigh hc with ⟨h, hcontains⟩ | ⟨h, -⟩
    · have hbelow : 2 * grid * c ≤ 2 * grid * a := Nat.mul_le_mul_left _ h
      have hnear := hnear hcontains
      rw [abs_of_nonpos (by omega), abs_of_nonneg (by omega)]
      omega
    · have habove : 2 * grid * (a + 1) ≤ 2 * grid * c := Nat.mul_le_mul_left _ h
      rw [abs_of_nonpos (by omega), abs_of_nonpos (by omega)]
      omega
  · by_contra h
    -- the grid is no point, for the two multiples differ
    have hgrid : 0 < 2 * grid := by
      by_contra hzero
      rw [Nat.eq_zero_of_not_pos hzero] at hlow hhigh
      omega
    have hbeyond : 2 * grid * (a + 1) < 2 * grid * c :=
      Nat.mul_lt_mul_of_pos_left (Nat.lt_of_not_le h) hgrid
    rw [abs_of_nonpos (by omega), abs_of_nonpos (by omega)] at heq
    omega

end Around

theorem pick_spec (hgrid : 0 < grid) (hvalue : i.contains i.value = true) :
    (i.pick .upper grid = none ∧ ∀ c, i.contains (2 * grid * c) = false) ∨
      ∃ n, i.pick .upper grid = some n ∧ i.IsBest grid n := by
  have hlow : 2 * grid * (i.value / (2 * grid)) ≤ i.value := Nat.mul_div_le _ _
  have hhigh : i.value < 2 * grid * (i.value / (2 * grid) + 1) :=
    Nat.lt_mul_div_succ _ (by omega)
  unfold pick
  dsimp only
  generalize i.value / (2 * grid) = a at *
  cases ha : i.contains (2 * grid * a) with
  | false =>
    have hno : ¬ i.contains (2 * grid * a) = true := by simp [ha]
    cases hb : i.contains (2 * grid * (a + 1)) with
    | false =>
      refine Or.inl ⟨rfl, fun c => eq_false_of_ne_true fun hc => ?_⟩
      rcases contains_around hvalue hlow hhigh hc with ⟨-, h⟩ | ⟨-, h⟩
      · exact hno h
      · exact absurd h (by simp [hb])
    | true =>
      exact Or.inr ⟨a + 1, rfl, isBest_above hvalue hlow hhigh hb fun h => absurd h hno⟩
  | true =>
    cases hb : i.contains (2 * grid * (a + 1)) with
    | false =>
      exact Or.inr ⟨a, rfl, isBest_below hvalue hlow hhigh ha fun h => absurd h (by simp [hb])⟩
    | true =>
      refine Or.inr ?_
      dsimp only
      split
      · exact ⟨a, rfl, isBest_below hvalue hlow hhigh ha fun _ => ‹_›⟩
      · have hle : 2 * grid * (a + 1) - i.value ≤ i.value - 2 * grid * a := by omega
        exact ⟨a + 1, ite_self _, isBest_above hvalue hlow hhigh hb fun _ => hle⟩

/-- **The search** ends on the first grid that has a point in the interval. -/
theorem search_best (hvalue : i.contains i.value = true) (heven : i.value % 2 = 0) (q : Nat) :
    ∃ g, g ≤ q ∧ (i.search .upper q).exponent = (g : Int) - 1074 ∧
      i.IsBest (Nat.pow 10 g) (i.search .upper q).digits ∧
        ∀ g', g < g' → g' ≤ q → ∀ c, i.contains (2 * Nat.pow 10 g' * c) = false := by
  induction q with
  | zero =>
    have hdigits : 2 * Nat.pow 10 0 * (i.search .upper 0).digits = i.value := by
      show 2 * 1 * (i.value / 2) = i.value
      omega
    refine ⟨0, Nat.le_refl 0, rfl, ⟨hdigits.symm ▸ hvalue, fun c _ => ?_, fun c _ heq => ?_⟩, ?_⟩
    · rw [hdigits, sub_self, abs_zero]
      exact abs_nonneg _
    · rw [hdigits, sub_self, abs_zero, eq_comm, abs_eq_zero, ← hdigits] at heq
      have hone : Nat.pow 10 0 = 1 := rfl
      rw [hone] at heq
      omega
    · intro g' hg hle
      omega
  | succ q ih =>
    have hgrid : 0 < Nat.pow 10 (q + 1) := Nat.pow_pos (by decide)
    unfold search
    rcases pick_spec hgrid hvalue with ⟨hpick, hnone⟩ | ⟨n, hpick, hbest⟩
    · obtain ⟨g, hg, hexponent, hbest, hcoarser⟩ := ih
      rw [hpick]
      refine ⟨g, by omega, hexponent, hbest, fun g' hlt hle => ?_⟩
      rcases Nat.eq_or_lt_of_le hle with rfl | hlt'
      · exact hnone
      · exact hcoarser g' hlt (by omega)
    · rw [hpick]
      refine ⟨q + 1, Nat.le_refl _, rfl, hbest, fun g' hlt hle => ?_⟩
      omega

end Interval

/-! ### The coarsest grid -/

theorem ten_pow_le_two_pow {j k : Nat} (h : 10 * k ≤ j) : 10 ^ (3 * k) ≤ 2 ^ j := by
  calc 10 ^ (3 * k) = (10 ^ 3) ^ k := Nat.pow_mul 10 3 k
    _ ≤ (2 ^ 10) ^ k := Nat.pow_le_pow_left (by decide) k
    _ = 2 ^ (10 * k) := (Nat.pow_mul 2 10 k).symm
    _ ≤ 2 ^ j := Nat.pow_le_pow_right (by decide) h

/-- the value of a rank is below the grid that the search starts from -/
theorem unitsOfRank_mul_lt (r : Nat) :
    unitsOfRank r * stepsPerUnit < 10 ^ coarsestGrid r := by
  have hlt : unitsOfRank r < 2 ^ ((unitsOfRank r).log2 + 1) := Nat.lt_log2_self
  have hpos := stepsPerUnit_pos
  have hten : 2 ^ 1074 * stepsPerUnit = 10 ^ 1074 := by
    unfold stepsPerUnit
    generalize 1074 = n
    exact (Nat.mul_pow 2 5 n).symm
  unfold coarsestGrid
  generalize unitsOfRank r = u, stepsPerUnit = s, 1074 = n at *
  generalize u.log2 + 1 = b at *
  have hsteps := Nat.mul_lt_mul_of_pos_right hlt hpos
  dsimp only
  split
  · obtain ⟨k, rfl⟩ := Nat.exists_eq_add_of_le ‹n ≤ b›
    have hk : 2 ^ k ≤ 10 ^ (k / 3 + 1) := by
      exact_mod_cast two_pow_le_ten_pow (show k ≤ 3 * (k / 3 + 1) by omega)
    calc u * s < 2 ^ (n + k) * s := hsteps
      _ = 2 ^ k * 10 ^ n := by rw [← hten, Nat.pow_add]; ring
      _ ≤ 10 ^ (k / 3 + 1) * 10 ^ n := Nat.mul_le_mul_right _ hk
      _ = 10 ^ ((n + k - n) / 3 + 1 + n) := by rw [← Nat.pow_add, Nat.add_sub_cancel_left]
  · obtain ⟨j, rfl⟩ := Nat.exists_eq_add_of_le (show b ≤ n by omega)
    have hj : 10 ^ (3 * (j / 10)) ≤ 2 ^ j := ten_pow_le_two_pow (by omega)
    have hcut : b + j - 3 * ((b + j - b) / 10) + 3 * (j / 10) = b + j := by omega
    refine Nat.lt_of_mul_lt_mul_right (a := 2 ^ j) ?_
    calc u * s * 2 ^ j < 2 ^ b * s * 2 ^ j := Nat.mul_lt_mul_of_pos_right hsteps (by positivity)
      _ = 10 ^ (b + j) := by rw [← hten, Nat.pow_add]; ring
      _ = 10 ^ (b + j - 3 * ((b + j - b) / 10)) * 10 ^ (3 * (j / 10)) := by
        rw [← Nat.pow_add, hcut]
      _ ≤ 10 ^ (b + j - 3 * ((b + j - b) / 10)) * 2 ^ j := Nat.mul_le_mul_left _ hj

/-- a rank above zero is not beyond the next one by more than its value -/
theorem unitsOfRank_succ_le {r : Nat} (hr : 0 < r) : unitsOfRank (r + 1) ≤ 2 * unitsOfRank r := by
  obtain ⟨g, -, hsucc, -, hg⟩ := exists_step r
  have hone : unitsOfRank 0 < unitsOfRank r := unitsOfRank_strictMono hr
  rcases hg with rfl | hg
  · omega
  · have hle : 1 * g ≤ Nat.pow 2 52 * g := Nat.mul_le_mul_right _ (by decide)
    omega

/-- nothing on a grid beyond the one that the search starts from rounds to the rank -/
theorem not_contains_of_coarsestGrid_lt {r g : Nat} (hr : 0 < r) (hg : coarsestGrid r < g)
    (c : Nat) : (Interval.ofRank r).contains (2 * Nat.pow 10 g * c) = false := by
  have hsteps := unitsOfRank_mul_lt r
  have hgrid : 10 * 10 ^ coarsestGrid r ≤ Nat.pow 10 g := by
    calc 10 * 10 ^ coarsestGrid r = 10 ^ (coarsestGrid r + 1) := (Nat.pow_succ').symm
      _ ≤ 10 ^ g := Nat.pow_le_pow_right (by decide) hg
  have hhigh : (Interval.ofRank r).high ≤ 3 * unitsOfRank r * stepsPerUnit := by
    have := unitsOfRank_succ_le hr
    exact Nat.mul_le_mul_right _ (by omega)
  have hlow : 0 < (Interval.ofRank r).low := by
    have hone : unitsOfRank 0 < unitsOfRank r := unitsOfRank_strictMono hr
    exact Nat.mul_pos (by omega) stepsPerUnit_pos
  refine eq_false_of_ne_true fun hcontains => ?_
  obtain ⟨hge, hle, -⟩ := Interval.contains_iff.1 hcontains
  rcases Nat.eq_zero_or_pos c with rfl | hc
  · omega
  · have hone : 2 * Nat.pow 10 g * 1 ≤ 2 * Nat.pow 10 g * c := Nat.mul_le_mul_left _ hc
    rw [Nat.mul_assoc] at hhigh
    omega

/-! ### Decimals that round to a rank -/

/-- the decimal rounds to the double of this rank -/
def RoundsToRank (d : Decimal) (r : Nat) : Prop := RoundsTo (d.value * unitsPerOne) r

/-- how far the decimal is from the double of the rank, in units -/
def distance (d : Decimal) (r : Nat) : ℚ := |unitsOfRank r - d.value * unitsPerOne|

variable {r : Nat} {d e : Decimal}

theorem ten_zpow_eq : (10 : ℚ) ^ (1074 : ℤ) = unitsPerOne * stepsPerUnit := by
  unfold unitsPerOne stepsPerUnit
  rw [zpow_ofNat]
  generalize 1074 = n
  rw [Nat.pow_eq, Nat.pow_eq, ← Nat.cast_mul, ← Nat.mul_pow, Nat.cast_pow]
  rfl

theorem stepsPerUnit_cast_pos : (0 : ℚ) < stepsPerUnit := Nat.cast_pos.2 stepsPerUnit_pos

/-- the steps of a decimal are its units, each of so many steps -/
theorem steps_eq (h : -1074 ≤ d.exponent) :
    (d.steps : ℚ) = d.value * unitsPerOne * stepsPerUnit := by
  rw [← value_mul_zpow h, ten_zpow_eq, mul_assoc]

/-- the interval of a rank holds what rounds to it -/
theorem contains_iff_roundsToRank (h : -1074 ≤ d.exponent) :
    (Interval.ofRank r).contains (2 * d.steps) = true ↔ d.RoundsToRank r := by
  have hpos := stepsPerUnit_cast_pos
  have hsteps := steps_eq h
  have hlow : ((Interval.ofRank r).low : ℚ) =
      (unitsOfRank (r - 1) + unitsOfRank r) * stepsPerUnit := by
    unfold Interval.ofRank
    push_cast
    rfl
  have hhigh : ((Interval.ofRank r).high : ℚ) =
      (unitsOfRank r + unitsOfRank (r + 1)) * stepsPerUnit := by
    unfold Interval.ofRank
    push_cast
    rfl
  have htwice : ((2 * d.steps : ℕ) : ℚ) = 2 * (d.value * unitsPerOne) * stepsPerUnit := by
    rw [Nat.cast_mul, Nat.cast_ofNat, hsteps]
    ring
  have hclosed : (Interval.ofRank r).closed = true ↔ r % 2 = 0 := beq_iff_eq
  rw [Interval.contains_iff, hclosed, ← Nat.cast_le (α := ℚ), ← Nat.cast_le (α := ℚ), hlow, hhigh,
    htwice, mul_le_mul_iff_left₀ hpos, mul_le_mul_iff_left₀ hpos]
  have hlow_ne : (Interval.ofRank r).low ≠ 2 * d.steps ↔
      (unitsOfRank (r - 1) + unitsOfRank r : ℚ) ≠ 2 * (d.value * unitsPerOne) := by
    rw [Ne, ← Nat.cast_inj (R := ℚ), hlow, htwice, mul_left_inj' hpos.ne']
  have hhigh_ne : 2 * d.steps ≠ (Interval.ofRank r).high ↔
      2 * (d.value * unitsPerOne) ≠ (unitsOfRank r + unitsOfRank (r + 1) : ℚ) := by
    rw [Ne, ← Nat.cast_inj (R := ℚ), hhigh, htwice, mul_left_inj' hpos.ne']
  rw [hlow_ne, hhigh_ne]
  constructor
  · rintro ⟨hle, hge, hopen⟩
    refine ⟨hle, hge, hopen.imp_right fun ⟨hne, hne'⟩ => ?_⟩
    exact ⟨lt_of_le_of_ne hle hne, lt_of_le_of_ne hge hne'⟩
  · rintro ⟨hle, hge, hopen⟩
    exact ⟨hle, hge, hopen.imp_right fun ⟨hlt, hlt'⟩ => ⟨ne_of_lt hlt, ne_of_lt hlt'⟩⟩

/-- distances in half steps -/
theorem abs_sub_steps (h : -1074 ≤ d.exponent) :
    ((|((Interval.ofRank r).value : ℤ) - (2 * d.steps : ℕ)| : ℤ) : ℚ) =
      2 * stepsPerUnit * d.distance r := by
  have hvalue : ((Interval.ofRank r).value : ℚ) = 2 * unitsOfRank r * stepsPerUnit := by
    unfold Interval.ofRank
    push_cast
    rfl
  have hdifference : (2 * unitsOfRank r * stepsPerUnit -
      2 * (d.value * unitsPerOne * stepsPerUnit) : ℚ) =
        2 * stepsPerUnit * (unitsOfRank r - d.value * unitsPerOne) := by
    ring
  unfold distance
  rw [Int.cast_abs, Int.cast_sub, Int.cast_natCast, Int.cast_natCast, Nat.cast_mul, Nat.cast_ofNat,
    steps_eq h, hvalue, hdifference, abs_mul,
    abs_of_nonneg (mul_nonneg zero_le_two stepsPerUnit_cast_pos.le)]

/-- a decimal on the coarsest grid on which one rounds to the rank, the nearest of those on the grid,
and of two such the greater -/
structure IsCoarsest (r : Nat) (d : Decimal) : Prop where
  rounds : d.RoundsToRank r
  coarsest : ∀ e : Decimal, e.RoundsToRank r → e.exponent ≤ d.exponent
  nearest : ∀ c, (⟨c, d.exponent⟩ : Decimal).RoundsToRank r →
    d.distance r ≤ (⟨c, d.exponent⟩ : Decimal).distance r
  upper : ∀ c, (⟨c, d.exponent⟩ : Decimal).RoundsToRank r →
    d.distance r = (⟨c, d.exponent⟩ : Decimal).distance r → c ≤ d.digits

theorem steps_of_exponent {c g : Nat} {q : Int} (h : q = (g : Int) - 1074) :
    2 * (⟨c, q⟩ : Decimal).steps = 2 * Nat.pow 10 g * c := by
  subst h
  have hgrid : ((g : Int) - 1074 + 1074).toNat = g := by omega
  show 2 * (c * Nat.pow 10 ((g : Int) - 1074 + 1074).toNat) = _
  rw [hgrid, Nat.mul_assoc, Nat.mul_comm c]

/-- **What is found is on the coarsest grid.** -/
theorem isCoarsest_shortest (hr : 0 < r) : IsCoarsest r (shortest .upper r) := by
  obtain ⟨g, -, hexponent, hbest, hcoarser⟩ :=
    Interval.search_best (Interval.contains_value r) (value_even r) (coarsestGrid r)
  unfold shortest
  generalize (Interval.ofRank r).search .upper (coarsestGrid r) = d at *
  obtain ⟨n, q⟩ := d
  dsimp only at hexponent hbest
  have hfine : (-1074 : Int) ≤ q := by omega
  have hdistance : ∀ c, ((|((Interval.ofRank r).value : ℤ) - (2 * Nat.pow 10 g * c : ℕ)| : ℤ) : ℚ) =
      2 * stepsPerUnit * (⟨c, q⟩ : Decimal).distance r := by
    intro c
    rw [← steps_of_exponent hexponent]
    exact abs_sub_steps hfine
  have hcontains : ∀ c, (Interval.ofRank r).contains (2 * Nat.pow 10 g * c) = true ↔
      (⟨c, q⟩ : Decimal).RoundsToRank r := by
    intro c
    rw [← steps_of_exponent hexponent]
    exact contains_iff_roundsToRank hfine
  have hpos : (0 : ℚ) < 2 * stepsPerUnit := mul_pos two_pos stepsPerUnit_cast_pos
  refine ⟨(hcontains n).1 hbest.inside, fun e he => ?_, fun c hc => ?_, fun c hc heq => ?_⟩
  · by_contra hlt
    dsimp only at hlt
    obtain ⟨g', hg'⟩ := Int.eq_ofNat_of_zero_le (show 0 ≤ e.exponent + 1074 by omega)
    have hsteps : 2 * e.steps = 2 * Nat.pow 10 g' * e.digits := steps_of_exponent (by omega)
    have hnot : (Interval.ofRank r).contains (2 * Nat.pow 10 g' * e.digits) = false := by
      by_cases hg : g' ≤ coarsestGrid r
      · exact hcoarser g' (by omega) hg e.digits
      · exact not_contains_of_coarsestGrid_lt hr (by omega) e.digits
    rw [← hsteps] at hnot
    exact absurd ((contains_iff_roundsToRank (by omega)).2 he) (by simp [hnot])
  · have hle := hbest.nearest c ((hcontains c).2 hc)
    rw [← Int.cast_le (R := ℚ), hdistance, hdistance] at hle
    exact le_of_mul_le_mul_left hle hpos
  · refine hbest.upper c ((hcontains c).2 hc) ?_
    rw [← Int.cast_inj (α := ℚ), hdistance, hdistance, heq]

/-! ### Coarse decimals against fine ones -/

/-- how many digits a decimal has -/
def length (d : Decimal) : Nat := digitCount d.digits

/-- the power of ten of the first digit -/
def leading (d : Decimal) : Int := d.exponent + d.length - 1

theorem value_add (c j : Nat) (q : Int) :
    (⟨c, q + j⟩ : Decimal).value = (⟨c * 10 ^ j, q⟩ : Decimal).value := by
  unfold value
  rw [zpow_add₀ (by norm_num), zpow_natCast]
  push_cast
  ring

theorem value_le_value {b c : Nat} (q : Int) :
    (⟨b, q⟩ : Decimal).value ≤ (⟨c, q⟩ : Decimal).value ↔ b ≤ c := by
  have hpos : (0 : ℚ) < 10 ^ q := by positivity
  unfold value
  rw [mul_le_mul_iff_left₀ hpos, Nat.cast_le]

/-- what lies between two decimals that round to a rank rounds to it -/
theorem RoundsToRank.between {d e f : Decimal} (hd : d.RoundsToRank r) (he : e.RoundsToRank r)
    (hdf : d.value ≤ f.value) (hfe : f.value ≤ e.value) : f.RoundsToRank r :=
  RoundsTo.between hd he (mul_le_mul_of_nonneg_right hdf unitsPerOne_pos.le)
    (mul_le_mul_of_nonneg_right hfe unitsPerOne_pos.le)

theorem RoundsToRank.digits_pos (hr : 0 < r) (h : d.RoundsToRank r) : 0 < d.digits := by
  rcases Nat.eq_zero_or_pos d.digits with hzero | hpos
  · exfalso
    have hvalue : d.value * unitsPerOne = 0 := by
      rw [value, hzero, Nat.cast_zero, zero_mul, zero_mul]
    rw [RoundsToRank, hvalue] at h
    exact Nat.ne_of_gt hr (h.unique (roundsTo_zero le_rfl (by norm_num)))
  · exact hpos

theorem ten_zpow_neg_mul (k : Nat) : (10 : ℚ) ^ (-(k : ℤ)) * (Nat.pow 10 k : ℕ) = 1 := by
  rw [← ten_zpow_natCast]
  exact zpow_neg_mul_zpow_self _ (by norm_num)

/-- a place of `1 / a` in units, from whole numbers -/
theorem place_mul_bounds {a u : Nat} {b : ℚ} (hb : 0 < b) (hinv : b * a = 1)
    (hbelow : 3 * a < 20 * u) (habove : 19 * u < 4 * a) : 3 / 20 < b * u ∧ b * u < 4 / 19 := by
  rw [← Nat.cast_lt (α := ℚ)] at hbelow habove
  have hbelow := mul_lt_mul_of_pos_left hbelow hb
  have habove := mul_lt_mul_of_pos_left habove hb
  push_cast at hbelow habove
  constructor
  · linarith
  · linarith

/-- a unit is a little less than five of the last decimal place of the least doubles -/
theorem place_bounds : (3 / 20 : ℚ) < 10 ^ (-324 : ℤ) * unitsPerOne ∧
    (10 ^ (-324 : ℤ) * unitsPerOne : ℚ) < 4 / 19 :=
  place_mul_bounds (by positivity) (ten_zpow_neg_mul 324) (by decide +kernel) (by decide +kernel)

/-- **Powers of ten.**  Where nine tenths of a power of ten and the power itself round to one rank,
the value is nearer to the power. -/
theorem two_mul_lt_of_nine_ten {q : Int} (hr : 0 < r)
    (hnine : (⟨9, q⟩ : Decimal).RoundsToRank r) (hten : (⟨1, q + 1⟩ : Decimal).RoundsToRank r) :
    (19 * (10 ^ q * unitsPerOne) : ℚ) < 2 * unitsOfRank r := by
  have hlow := hnine.low
  have hhigh := hten.high
  have hpos : (0 : ℚ) < 10 ^ q * unitsPerOne := mul_pos (by positivity) unitsPerOne_pos
  have hnine_value : (⟨9, q⟩ : Decimal).value = 9 * 10 ^ q := by simp [value]
  have hten_value : (⟨1, q + 1⟩ : Decimal).value = 10 * 10 ^ q := by
    rw [value, zpow_add_one₀ (by norm_num)]
    push_cast
    ring
  rw [hnine_value, mul_assoc] at hlow
  rw [hten_value, mul_assoc] at hhigh
  obtain ⟨g, hg, hsucc, hpred, hsize⟩ := exists_step r
  have hg : (0 : ℚ) < g := Nat.cast_pos.2 hg
  have hsucc : (unitsOfRank (r + 1) : ℚ) = unitsOfRank r + g := by exact_mod_cast hsucc
  have hpred : (unitsOfRank r : ℚ) ≤ unitsOfRank (r - 1) + g := by exact_mod_cast hpred
  have hone : (1 : ℚ) ≤ unitsOfRank r := by
    have hlt := unitsOfRank_strictMono hr
    exact_mod_cast (show 1 ≤ unitsOfRank r by omega)
  by_contra hle
  -- the place is one of at most a step
  have hplace : (10 ^ q * unitsPerOne : ℚ) ≤ g := by linarith
  rcases hsize with rfl | hsize
  · -- only among the least doubles, where the place is a fifth of a unit or less
    rw [Nat.cast_one] at *
    obtain ⟨hbelow, habove⟩ := place_bounds
    rcases Int.lt_trichotomy q (-324) with hq | rfl | hq
    · have hpow : (10 : ℚ) ^ (q + 1) ≤ 10 ^ (-324 : ℤ) := zpow_le_zpow_right₀ (by norm_num) (by omega)
      rw [zpow_add_one₀ (by norm_num)] at hpow
      have hfine := mul_le_mul_of_nonneg_right hpow unitsPerOne_pos.le
      linarith
    · have htwo : unitsOfRank r < 2 := by
        have hlt : (unitsOfRank r : ℚ) < 2 := by linarith
        exact_mod_cast hlt
      have hle : (unitsOfRank r : ℚ) ≤ 1 := by exact_mod_cast (show unitsOfRank r ≤ 1 by omega)
      linarith
    · have hpow : (10 : ℚ) ^ (-324 + 1 : ℤ) ≤ 10 ^ q := zpow_le_zpow_right₀ (by norm_num) (by omega)
      rw [zpow_add_one₀ (by norm_num)] at hpow
      have hcoarse := mul_le_mul_of_nonneg_right hpow unitsPerOne_pos.le
      linarith
  · have hsize : (2 ^ 52 * g : ℚ) ≤ unitsOfRank r := by exact_mod_cast hsize
    linarith

namespace IsCoarsest

/-- no point of its grid that rounds to the rank is on a coarser one -/
theorem mod_ten_ne_zero (h : IsCoarsest r d) {c : Nat}
    (hc : (⟨c, d.exponent⟩ : Decimal).RoundsToRank r) : c % 10 ≠ 0 := by
  intro hten
  have hvalue : (⟨c / 10, d.exponent + (1 : ℕ)⟩ : Decimal).value =
      (⟨c, d.exponent⟩ : Decimal).value := by
    rw [value_add, pow_one, Nat.div_mul_cancel (Nat.dvd_of_mod_eq_zero hten)]
  have hcoarse := h.coarsest ⟨c / 10, d.exponent + (1 : ℕ)⟩ (by rwa [RoundsToRank, hvalue])
  dsimp only at hcoarse
  omega

/-- the points of its grid that round to the rank have equally many digits -/
theorem digitCount_eq (h : IsCoarsest r d) {b c : Nat}
    (hb : (⟨b, d.exponent⟩ : Decimal).RoundsToRank r)
    (hc : (⟨c, d.exponent⟩ : Decimal).RoundsToRank r) : digitCount b = digitCount c := by
  wlog hbc : b ≤ c generalizing b c
  · exact (this hc hb (Nat.le_of_not_le hbc)).symm
  apply Number.digitCount_eq hbc
  intro x hbx hxc
  exact h.mod_ten_ne_zero (hb.between hc ((value_le_value _).2 hbx) ((value_le_value _).2 hxc))

/-- a decimal below a power of ten on the grid: it has as many digits only if it is farther -/
theorem length_of_below_ten (h : IsCoarsest r d) (hr : 0 < r) (he : e.RoundsToRank r) {j : Nat}
    (hj : 0 < j) (hexponent : d.exponent = e.exponent + j) (hbelow : e.digits < 10 ^ j) :
    d.length ≤ e.length ∧ (e.length = d.length → d.distance r < e.distance r) := by
  obtain ⟨c, q⟩ := e
  dsimp only at hexponent hbelow
  have hdpos := h.rounds.digits_pos hr
  have hone : (⟨1, d.exponent⟩ : Decimal).RoundsToRank r := by
    refine he.between h.rounds ?_ ((value_le_value _).2 hdpos)
    rw [hexponent, value_add, value_le_value]
    omega
  have hlength : d.length = 1 := by
    have hcount : d.length = digitCount 1 := h.digitCount_eq h.rounds hone
    rw [hcount]
    decide
  refine ⟨by rw [hlength]; exact digitCount_pos c, fun heq => ?_⟩
  -- nine tenths of the power lie between the two
  have hdigit : c < 10 ^ 1 := (digitCount_le_iff Nat.one_pos).1 (Nat.le_of_eq (heq.trans hlength))
  obtain ⟨i, rfl⟩ := Nat.exists_eq_succ_of_ne_zero (Nat.ne_of_gt hj)
  have hi : 0 < 10 ^ i := Nat.pow_pos (by decide)
  have hexponent : d.exponent = q + i + 1 := by
    rw [hexponent]
    push_cast
    ring
  have hle : (⟨c, q⟩ : Decimal).value ≤ (⟨9, q + i⟩ : Decimal).value := by
    rw [value_add, value_le_value]
    omega
  have hnine : (⟨9, q + i⟩ : Decimal).RoundsToRank r := by
    refine he.between hone hle ?_
    have hten : (⟨1, d.exponent⟩ : Decimal).value = (⟨10, q + i⟩ : Decimal).value := by
      rw [hexponent]
      exact value_add 1 1 (q + i)
    rw [hten, value_le_value]
    decide
  have hnear := two_mul_lt_of_nine_ten hr hnine (hexponent ▸ hone)
  have hbest := h.nearest 1 hone
  have hpos : (0 : ℚ) < 10 ^ (q + i) * unitsPerOne := mul_pos (by positivity) unitsPerOne_pos
  have hten : (⟨1, d.exponent⟩ : Decimal).value * unitsPerOne =
      10 * (10 ^ (q + i) * unitsPerOne) := by
    rw [value, hexponent, zpow_add_one₀ (by norm_num)]
    push_cast
    ring
  have hfar : (⟨c, q⟩ : Decimal).value * unitsPerOne ≤ 9 * (10 ^ (q + i) * unitsPerOne) := by
    have hle := mul_le_mul_of_nonneg_right hle unitsPerOne_pos.le
    have hnine : (⟨9, q + i⟩ : Decimal).value = 9 * 10 ^ (q + i) := by simp [value]
    rwa [hnine, mul_assoc] at hle
  refine hbest.trans_lt ?_
  unfold distance
  rw [hten, abs_of_nonneg (a := unitsOfRank r - (⟨c, q⟩ : Decimal).value * unitsPerOne) (by linarith)]
  refine abs_lt.2 ⟨?_, ?_⟩
  · linarith
  · linarith

/-- a decimal between two points of the grid has more digits: one of the two rounds to the rank -/
theorem length_lt_of_above_ten (h : IsCoarsest r d) (he : e.RoundsToRank r) {j : Nat}
    (hj : 0 < j) (hexponent : d.exponent = e.exponent + j) (habove : 10 ^ j ≤ e.digits) :
    d.length < e.length := by
  obtain ⟨c, q⟩ := e
  obtain ⟨n, q'⟩ := d
  dsimp only at hexponent habove
  have hgrid : 0 < 10 ^ j := Nat.pow_pos (by decide)
  have hvalue : ∀ k, (⟨k, q'⟩ : Decimal).value = (⟨k * 10 ^ j, q⟩ : Decimal).value := by
    intro k
    rw [hexponent, value_add]
  have hfloor : c / 10 ^ j * 10 ^ j ≤ c := Nat.div_mul_le_self c (10 ^ j)
  have hceil : c < 10 ^ j * (c / 10 ^ j + 1) := Nat.lt_mul_div_succ c hgrid
  have hmore := digitCount_add_le (Nat.div_pos habove hgrid) hfloor
  show digitCount n < digitCount c
  rcases Nat.lt_or_ge (c / 10 ^ j) n with hlt | hge
  · have hnext : (⟨c / 10 ^ j + 1, q'⟩ : Decimal).RoundsToRank r := by
      refine he.between h.rounds ?_ ((value_le_value _).2 hlt)
      rw [hvalue, value_le_value, Nat.mul_comm]
      exact hceil.le
    have hcount := h.digitCount_eq h.rounds hnext
    rw [digitCount_succ (h.mod_ten_ne_zero hnext)] at hcount
    omega
  · have hbelow : (⟨c / 10 ^ j, q'⟩ : Decimal).RoundsToRank r := by
      refine h.rounds.between he ((value_le_value _).2 hge) ?_
      rw [hvalue, value_le_value]
      exact hfloor
    have hcount := h.digitCount_eq h.rounds hbelow
    omega

/-- **A decimal on the coarsest grid is a shortest one.**  Any other has at least as many digits, and with
as many it is at least as far. -/
theorem length_le (h : IsCoarsest r d) (hr : 0 < r) (he : e.RoundsToRank r) :
    d.length ≤ e.length ∧ (e.length = d.length → d.distance r ≤ e.distance r ∧
      (d.distance r = e.distance r → e.value ≤ d.value)) := by
  obtain ⟨j, hj⟩ := Int.eq_ofNat_of_zero_le (show 0 ≤ d.exponent - e.exponent by
    have := h.coarsest e he
    omega)
  have hexponent : d.exponent = e.exponent + j := by omega
  rcases Nat.eq_zero_or_pos j with rfl | hjpos
  · -- both are on the one grid
    obtain ⟨c, q⟩ := e
    obtain rfl : d.exponent = q := by simpa using hexponent
    refine ⟨Nat.le_of_eq (h.digitCount_eq h.rounds he), fun _ => ⟨h.nearest c he, fun heq => ?_⟩⟩
    exact (value_le_value _).2 (h.upper c he heq)
  by_cases hbelow : e.digits < 10 ^ j
  · obtain ⟨hle, hfar⟩ := h.length_of_below_ten hr he hjpos hexponent hbelow
    refine ⟨hle, fun heq => ⟨(hfar heq).le, fun hsame => ?_⟩⟩
    exact absurd hsame (hfar heq).ne
  · have hlonger := h.length_lt_of_above_ten he hjpos hexponent (Nat.le_of_not_lt hbelow)
    exact ⟨hlonger.le, fun heq => absurd heq (Nat.ne_of_gt hlonger)⟩

end IsCoarsest

/-! ### Shortest forms -/

theorem value_nonneg (d : Decimal) : 0 ≤ d.value := by
  unfold value
  positivity

/-- a decimal is told by its value, if its last digit is no zero -/
theorem eq_of_value_eq (hd : d.digits % 10 ≠ 0) (he : e.digits % 10 ≠ 0)
    (h : d.value = e.value) : d = e := by
  wlog hle : d.exponent ≤ e.exponent generalizing d e
  · exact (this he hd h.symm (by omega)).symm
  obtain ⟨b, q⟩ := d
  obtain ⟨c, q'⟩ := e
  obtain ⟨j, hj⟩ := Int.eq_ofNat_of_zero_le (show 0 ≤ q' - q from Int.sub_nonneg_of_le hle)
  obtain rfl : q' = q + j := by omega
  rw [value_add] at h
  have hdigits : b = c * 10 ^ j :=
    Nat.le_antisymm ((value_le_value q).1 h.le) ((value_le_value q).1 h.ge)
  rcases Nat.eq_zero_or_pos j with rfl | hpos
  · simp [hdigits]
  · obtain ⟨i, rfl⟩ := Nat.exists_eq_succ_of_ne_zero (Nat.ne_of_gt hpos)
    exfalso
    apply hd
    show b % 10 = 0
    rw [hdigits, Nat.pow_succ, ← Nat.mul_assoc, Nat.mul_mod_left]

end Decimal

open Binary64 Decimal

/-- **The shortest form of a double**: a decimal without a zero at its end that rounds to the double.
No decimal that does has fewer digits, none with as many is nearer, and of two equally near ones it is
the greater. -/
structure IsShortest (x : Binary64) (d : Decimal) : Prop where
  lastDigit : d.digits % 10 ≠ 0
  rounds : IsNearest (signedValue x.negative d.value) x
  fewest : ∀ e : Decimal, IsNearest (signedValue x.negative e.value) x →
    d.length ≤ e.length
  nearest : ∀ e : Decimal, IsNearest (signedValue x.negative e.value) x →
    e.length = d.length → |(|x.value| - d.value)| ≤ |(|x.value| - e.value)|
  upper : ∀ e : Decimal, IsNearest (signedValue x.negative e.value) x →
    e.length = d.length → |(|x.value| - d.value)| = |(|x.value| - e.value)| → e.value ≤ d.value

namespace IsShortest

variable {x : Binary64} {d e : Decimal}

/-- a double has one shortest form only -/
theorem unique (hd : IsShortest x d) (he : IsShortest x e) : d = e := by
  have hlength : e.length = d.length :=
    Nat.le_antisymm (he.fewest d hd.rounds) (hd.fewest e he.rounds)
  have hdistance :=
    le_antisymm (hd.nearest e he.rounds hlength) (he.nearest d hd.rounds hlength.symm)
  apply eq_of_value_eq hd.lastDigit he.lastDigit
  apply le_antisymm
  · exact he.upper d hd.rounds hlength.symm hdistance.symm
  · exact hd.upper e he.rounds hlength hdistance

end IsShortest

namespace Decimal

variable {x : Binary64} {d : Decimal}

theorem isNearest_iff_roundsToRank (hx : x.isFinite = true) :
    IsNearest (signedValue x.negative d.value) x ↔ d.RoundsToRank x.rank := by
  rw [isNearest_iff_roundsTo d.value_nonneg]
  exact and_iff_left (isFinite_iff.1 hx)

theorem distance_eq : d.distance x.rank = |(|x.value| - d.value)| * unitsPerOne := by
  have hunits : (unitsOfRank x.rank / unitsPerOne - d.value : ℚ) * unitsPerOne =
      unitsOfRank x.rank - d.value * unitsPerOne := by
    rw [sub_mul, div_mul_cancel₀ _ unitsPerOne_pos.ne']
  rw [value_eq, abs_signedValue _ (unitsOfRank_div_nonneg _), distance, ← hunits, abs_mul,
    abs_of_pos unitsPerOne_pos]

/-- **The shortest form is what the search finds.** -/
theorem isShortest_iff (hx : x.isFinite = true) (hzero : x.isZero = false) :
    IsShortest x d ↔ d = shortest .upper x.rank := by
  have hr : 0 < x.rank := Nat.pos_of_ne_zero (by simpa [isZero] using hzero)
  have hcoarsest := isCoarsest_shortest hr
  have hshortest : IsShortest x (shortest .upper x.rank) := by
    generalize shortest .upper x.rank = d at *
    refine ⟨hcoarsest.mod_ten_ne_zero hcoarsest.rounds,
      (isNearest_iff_roundsToRank hx).2 hcoarsest.rounds, fun e he => ?_, fun e he hlength => ?_,
      fun e he hlength heq => ?_⟩
    · exact (hcoarsest.length_le hr ((isNearest_iff_roundsToRank hx).1 he)).1
    · obtain ⟨-, hbest⟩ := hcoarsest.length_le hr ((isNearest_iff_roundsToRank hx).1 he)
      have hle := (hbest hlength).1
      rw [distance_eq, distance_eq] at hle
      exact le_of_mul_le_mul_right hle unitsPerOne_pos
    · obtain ⟨-, hbest⟩ := hcoarsest.length_le hr ((isNearest_iff_roundsToRank hx).1 he)
      apply (hbest hlength).2
      rw [distance_eq, distance_eq, heq]
  constructor
  · intro hd
    exact hd.unique hshortest
  · rintro rfl
    exact hshortest

end Decimal

end PageQuery
