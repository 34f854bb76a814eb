import Mathlib.Algebra.Order.Field.Power
import Mathlib.Algebra.Order.Ring.Rat
import Mathlib.Data.Nat.Cast.Order.Field
import Mathlib.Tactic.Linarith
import Mathlib.Tactic.Ring
import PageQuery.Proofs.Shortest

/-!
# Rounding to the nearest double

`IsNearest q x`: the finite double `x` is the one nearest to the number `q`, of two equally near ones
the one of even rank, and `q` is nearer to it than to what would follow the greatest double.

A number in units rounds to the rank between whose midpoints it lies (`RoundsTo`), which is what
`rankOfRatio` finds up to infinity (`rankOfRatio_spec`), and what `IsNearest` asks
(`isNearest_iff_roundsTo`).  So decimals are read as the double nearest to them:
`ofDecimal_eq_iff`.
-/

namespace PageQuery.Binary64

/-! ### Values -/

/-- the number that a finite double denotes -/
def value (x : Binary64) : ℚ := x.scaled / unitsPerOne

/-- the number with this sign and magnitude -/
def signedValue (negative : Bool) (m : ℚ) : ℚ := if negative then -m else m

/-- **Nearest doubles.**  `2 ^ 1024` would follow the greatest double, `2 ^ 970` is half the step to
it. -/
structure IsNearest (q : ℚ) (x : Binary64) : Prop where
  finite : x.isFinite = true
  inRange : |q| < 2 ^ 1024 - 2 ^ 970
  nearest : ∀ y : Binary64, y.isFinite = true → |x.value - q| ≤ |y.value - q|
  even : ∀ y : Binary64, y.isFinite = true → y.value ≠ x.value → |x.value - q| = |y.value - q| →
    x.rank % 2 = 0

/-- the number of units lies between the midpoints to the neighbours of a rank, and on one only if
the rank is even -/
structure RoundsTo (q : ℚ) (r : Nat) : Prop where
  low : (unitsOfRank (r - 1) + unitsOfRank r : ℚ) ≤ 2 * q
  high : 2 * q ≤ unitsOfRank r + unitsOfRank (r + 1)
  even : r % 2 = 0 ∨
    (unitsOfRank (r - 1) + unitsOfRank r : ℚ) < 2 * q ∧ 2 * q < unitsOfRank r + unitsOfRank (r + 1)

theorem unitsOfRank_zero : unitsOfRank 0 = 0 := unitsOfRank_of_lt (by decide)

theorem unitsOfRank_cast_lt {r s : Nat} (h : r < s) : (unitsOfRank r : ℚ) < unitsOfRank s :=
  Nat.cast_lt.2 (unitsOfRank_strictMono h)

theorem unitsOfRank_cast_le {r s : Nat} (h : r ≤ s) : (unitsOfRank r : ℚ) ≤ unitsOfRank s :=
  Nat.cast_le.2 (unitsOfRank_strictMono.monotone h)

/-- a number rounds to one rank only -/
theorem RoundsTo.unique {q : ℚ} {r s : Nat} (hr : RoundsTo q r) (hs : RoundsTo q s) : r = s := by
  wlog h : r ≤ s generalizing r s
  · exact (this hs hr (Nat.le_of_not_le h)).symm
  rcases Nat.eq_or_lt_of_le h with h | h
  · exact h
  · exfalso
    have hhigh := hr.high
    have hlow := hs.low
    have hbelow := unitsOfRank_cast_le (show r ≤ s - 1 by omega)
    have habove := unitsOfRank_cast_le (show r + 1 ≤ s by omega)
    by_cases hnext : s = r + 1
    · -- the common midpoint belongs to the even one of two neighbours
      rcases hr.even with hr | ⟨-, hr⟩
      · rcases hs.even with hs | ⟨hs, -⟩
        · omega
        · linarith
      · linarith
    · have := unitsOfRank_cast_lt (show r < s - 1 by omega)
      linarith

/-- what lies between two numbers that round to a rank rounds to it -/
theorem RoundsTo.between {a b q : ℚ} {r : Nat} (ha : RoundsTo a r) (hb : RoundsTo b r)
    (haq : a ≤ q) (hqb : q ≤ b) : RoundsTo q r := by
  refine ⟨by linarith [ha.low], by linarith [hb.high], ?_⟩
  rcases ha.even with heven | ⟨hlow, -⟩
  · exact Or.inl heven
  · refine hb.even.imp_right fun ⟨_, hhigh⟩ => ?_
    constructor
    · linarith
    · linarith

/-- the value of a rank rounds to it -/
theorem roundsTo_unitsOfRank (r : Nat) : RoundsTo (unitsOfRank r) r := by
  have hbelow := unitsOfRank_cast_le (Nat.sub_le r 1)
  have habove := unitsOfRank_cast_lt (Nat.lt_succ_self r)
  refine ⟨by linarith, by linarith, ?_⟩
  rcases Nat.eq_zero_or_pos r with rfl | hr
  · exact Or.inl rfl
  · have hlt := unitsOfRank_cast_lt (Nat.sub_lt hr Nat.one_pos)
    exact Or.inr ⟨by linarith, by linarith⟩

/-- **Rounding keeps the order.** -/
theorem RoundsTo.mono {p q : ℚ} {r s : Nat} (hp : RoundsTo p r) (hq : RoundsTo q s) (h : p ≤ q) :
    r ≤ s := by
  by_contra hlt
  have hlow := hp.low
  have hhigh := hq.high
  have hbelow := unitsOfRank_cast_le (show s ≤ r - 1 by omega)
  have habove := unitsOfRank_cast_le (show s + 1 ≤ r by omega)
  obtain rfl : p = q := by linarith
  exact hlt (hp.unique hq).le

/-! ### Units of one binade -/

theorem two_pow_53 : Nat.pow 2 53 = 2 * Nat.pow 2 52 := by decide

/-- the ranks of a binade and the first of the next one are steps of `2 ^ k` units apart -/
theorem unitsOfRank_binade {k m : Nat} (hm : m ≤ Nat.pow 2 53) (hk : k = 0 ∨ Nat.pow 2 52 ≤ m) :
    unitsOfRank (k * Nat.pow 2 52 + m) = m * 2 ^ k := by
  have hpos : 0 < Nat.pow 2 52 := by decide
  have hbelow : ∀ {r}, r < Nat.pow 2 52 → unitsOfRank r = r := unitsOfRank_of_lt
  have hnormal : ∀ k {j}, j < Nat.pow 2 52 →
      unitsOfRank ((k + 1) * Nat.pow 2 52 + j) = (Nat.pow 2 52 + j) * 2 ^ k :=
    fun k _ hj => unitsOfRank_normal k hj
  rw [two_pow_53] at hm
  generalize Nat.pow 2 52 = M at *
  by_cases hlt : m < M
  · obtain rfl : k = 0 := by omega
    rw [Nat.zero_mul, Nat.zero_add, hbelow hlt, Nat.pow_zero, Nat.mul_one]
  · obtain ⟨j, rfl⟩ := Nat.exists_eq_add_of_le (Nat.le_of_not_lt hlt)
    by_cases hj : j < M
    · rw [← hnormal k hj]
      congr 1
      ring
    · obtain rfl : j = M := by omega
      have hr : k * j + (j + j) = (k + 1 + 1) * j + 0 := by ring
      rw [hr, hnormal (k + 1) hpos]
      ring

/-- the next rank is at least a step above -/
theorem le_unitsOfRank_succ {k m : Nat} (hm : m ≤ Nat.pow 2 53)
    (hk : k = 0 ∨ Nat.pow 2 52 ≤ m) :
    (m + 1) * 2 ^ k ≤ unitsOfRank (k * Nat.pow 2 52 + m + 1) := by
  have hpos : 0 < Nat.pow 2 52 := by decide
  have hsteps : ∀ {k m}, m ≤ Nat.pow 2 53 → k = 0 ∨ Nat.pow 2 52 ≤ m →
      unitsOfRank (k * Nat.pow 2 52 + m) = m * 2 ^ k := unitsOfRank_binade
  rw [two_pow_53] at *
  generalize Nat.pow 2 52 = M at *
  by_cases hlt : m < 2 * M
  · rw [Nat.add_assoc, hsteps hlt (hk.imp_right Nat.le_succ_of_le)]
  · -- the next binade goes on in steps of twice the size
    obtain rfl : m = 2 * M := by omega
    have hr : k * M + 2 * M + 1 = (k + 1) * M + (M + 1) := by ring
    rw [hr, hsteps (by omega) (Or.inr (Nat.le_succ M))]
    calc (2 * M + 1) * 2 ^ k ≤ (2 * M + 2) * 2 ^ k := Nat.mul_le_mul_right _ (Nat.le_succ _)
      _ = (M + 1) * 2 ^ (k + 1) := by ring

/-- a rank counts the steps of its binade, less than up to the next one -/
theorem exists_binade (r : Nat) :
    ∃ k m, r = k * Nat.pow 2 52 + m ∧ m < Nat.pow 2 53 ∧ (k = 0 ∨ Nat.pow 2 52 ≤ m) := by
  rcases rank_cases r with hr | ⟨k, m, hm, rfl⟩
  · refine ⟨0, r, by rw [Nat.zero_mul, Nat.zero_add], ?_, Or.inl rfl⟩
    rw [two_pow_53]
    omega
  · refine ⟨k, Nat.pow 2 52 + m, by rw [Nat.succ_mul, Nat.add_assoc], ?_, Or.inr ?_⟩
    · rw [two_pow_53]
      omega
    · exact Nat.le_add_right _ _

/-- **The step from a rank to the next** is one unit or a small part of the value, and the step before
it is no larger. -/
theorem exists_step (r : Nat) :
    ∃ g, 0 < g ∧ unitsOfRank (r + 1) = unitsOfRank r + g ∧
      unitsOfRank r ≤ unitsOfRank (r - 1) + g ∧ (g = 1 ∨ Nat.pow 2 52 * g ≤ unitsOfRank r) := by
  obtain ⟨k, m, rfl, hm, hk⟩ := exists_binade r
  have hunits : unitsOfRank (k * Nat.pow 2 52 + m) = m * 2 ^ k := unitsOfRank_binade hm.le hk
  have hnext : unitsOfRank (k * Nat.pow 2 52 + m + 1) = (m + 1) * 2 ^ k := by
    rw [Nat.add_assoc]
    exact unitsOfRank_binade hm (hk.imp_right Nat.le_succ_of_le)
  refine ⟨2 ^ k, Nat.pow_pos (by decide), ?_, ?_, ?_⟩
  · rw [hnext, hunits, Nat.succ_mul]
  · rcases Nat.eq_zero_or_pos m with rfl | hpos
    · rw [hunits, Nat.zero_mul]
      exact Nat.zero_le _
    · by_cases hfirst : k = 0 ∨ Nat.pow 2 52 ≤ m - 1
      · have hpred : unitsOfRank (k * Nat.pow 2 52 + (m - 1)) = (m - 1) * 2 ^ k :=
          unitsOfRank_binade (by omega) hfirst
        rw [hunits, Nat.add_sub_assoc hpos, hpred, ← Nat.succ_mul]
        exact Nat.mul_le_mul_right _ (by omega)
      · -- at the start of a binade the step below is half as large
        obtain ⟨j, rfl⟩ := Nat.exists_eq_succ_of_ne_zero fun h => hfirst (Or.inl h)
        obtain rfl : m = Nat.pow 2 52 := by omega
        have hr : (j + 1) * Nat.pow 2 52 + Nat.pow 2 52 - 1 =
            j * Nat.pow 2 52 + (Nat.pow 2 53 - 1) := by
          rw [Nat.succ_mul, two_pow_53]
          omega
        have hpred : unitsOfRank (j * Nat.pow 2 52 + (Nat.pow 2 53 - 1)) =
            (Nat.pow 2 53 - 1) * 2 ^ j :=
          unitsOfRank_binade (Nat.sub_le _ _) (Or.inr (by decide))
        have htwice : Nat.pow 2 52 * 2 ^ (j + 1) = Nat.pow 2 53 * 2 ^ j := by
          rw [two_pow_53, Nat.pow_succ]
          ring
        rw [hunits, hr, hpred, htwice, Nat.sub_mul, Nat.pow_succ]
        omega
  · rw [hunits]
    rcases hk with rfl | hk
    · exact Or.inl rfl
    · exact Or.inr (Nat.mul_le_mul_right _ hk)

/-! ### Rounding of quotients -/

/-- the nearest whole number to a quotient: which of the two around it, and what is left -/
theorem divNearestEven_cases (n d : Nat) :
    divNearestEven n d = n / d ∧ 2 * (n % d) < d ∨
      divNearestEven n d = n / d + 1 ∧ d < 2 * (n % d) ∨
        2 * (n % d) = d ∧ divNearestEven n d % 2 = 0 ∧
          (divNearestEven n d = n / d ∨ divNearestEven n d = n / d + 1) := by
  unfold divNearestEven
  dsimp only
  split
  · omega
  · split
    · omega
    · omega

/-- it is half of one away at most, and exactly half only if it is even -/
theorem divNearestEven_spec {n d : Nat} (hd : 0 < d) :
    2 * (divNearestEven n d * d) ≤ 2 * n + d ∧ 2 * n ≤ 2 * (divNearestEven n d * d) + d ∧
      (divNearestEven n d % 2 = 0 ∨
        2 * (divNearestEven n d * d) < 2 * n + d ∧ 2 * n < 2 * (divNearestEven n d * d) + d) := by
  have hn : n / d * d + n % d = n := Nat.div_add_mod' n d
  have hr : n % d < d := Nat.mod_lt n hd
  have hsucc : (n / d + 1) * d = n / d * d + d := Nat.succ_mul _ _
  rcases divNearestEven_cases n d with ⟨h, hlow⟩ | ⟨h, hhigh⟩ | ⟨htie, heven, h | h⟩
  · rw [h]
    omega
  · rw [h, hsucc]
    omega
  · rw [h] at heven ⊢
    omega
  · rw [h] at heven ⊢
    rw [hsucc]
    omega

theorem divNearestEven_bounds (n d : Nat) :
    n / d ≤ divNearestEven n d ∧ divNearestEven n d ≤ n / d + 1 := by
  have := divNearestEven_cases n d
  omega

/-- a number within half a step of a multiple of the steps in its binade rounds to that multiple -/
theorem roundsTo_of_steps {k m : Nat} {q : ℚ} (hm : m ≤ Nat.pow 2 53)
    (hk : k = 0 ∨ Nat.pow 2 52 ≤ m) (hq : 0 ≤ q) (hbinade : k = 0 ∨ (Nat.pow 2 52 : ℕ) * 2 ^ k ≤ q)
    (hlow : 2 * (m * 2 ^ k) ≤ 2 * q + 2 ^ k) (hhigh : 2 * q ≤ 2 * (m * 2 ^ k) + 2 ^ k)
    (heven : m % 2 = 0 ∨
      2 * (m * 2 ^ k) < 2 * q + 2 ^ k ∧ 2 * q < 2 * (m * 2 ^ k) + 2 ^ k) :
    RoundsTo q (k * Nat.pow 2 52 + m) := by
  have hunits : (unitsOfRank (k * Nat.pow 2 52 + m) : ℚ) = m * 2 ^ k := by
    rw [unitsOfRank_binade hm hk, Nat.cast_mul, Nat.cast_pow, Nat.cast_ofNat]
  have hsucc : (m * 2 ^ k + 2 ^ k : ℚ) ≤ unitsOfRank (k * Nat.pow 2 52 + m + 1) := by
    have h := Nat.cast_le (α := ℚ) |>.2 (le_unitsOfRank_succ hm hk)
    push_cast at h
    linarith
  have hpred : ∀ j, m = j + 1 → k = 0 ∨ Nat.pow 2 52 ≤ j →
      (unitsOfRank (k * Nat.pow 2 52 + m - 1) : ℚ) + 2 ^ k = m * 2 ^ k := by
    rintro j rfl hj
    rw [← Nat.add_assoc, Nat.add_sub_cancel, unitsOfRank_binade (by omega) hj]
    push_cast
    ring
  have h52 : Nat.pow 2 52 = 2 * Nat.pow 2 51 := by decide
  have hparity : (k * Nat.pow 2 52 + m) % 2 = m % 2 := by
    rw [h52, Nat.mul_left_comm]
    omega
  refine ⟨?_, by linarith, ?_⟩
  · rcases Nat.eq_zero_or_pos m with rfl | hpos
    · obtain rfl : k = 0 := hk.resolve_right (by decide)
      rw [Nat.zero_mul, Nat.zero_add, Nat.zero_sub, unitsOfRank_zero]
      simpa using hq
    · by_cases hfirst : k = 0 ∨ Nat.pow 2 52 ≤ m - 1
      · have := hpred (m - 1) (Nat.succ_pred_eq_of_pos hpos).symm hfirst
        linarith
      · -- at the start of a binade the step below is half as large
        have hm : m = Nat.pow 2 52 := by omega
        have hbelow := unitsOfRank_cast_le (Nat.sub_le (k * Nat.pow 2 52 + m) 1)
        have hle := hbinade.resolve_left fun h => hfirst (Or.inl h)
        rw [← hm] at hle
        linarith
  · rw [hparity]
    rcases heven with heven | ⟨hlow, hhigh⟩
    · exact Or.inl heven
    · by_cases hodd : m % 2 = 0
      · exact Or.inl hodd
      · have := hpred (m - 1) (by omega) (hk.imp_right fun h => by omega)
        exact Or.inr ⟨by linarith, by linarith⟩

/-- a whole number has its binade to itself, up to the first rank of the next one -/
theorem log2_binade (q : Nat) :
    q < 2 ^ 53 * 2 ^ (q.log2 - 52) ∧ (q.log2 - 52 = 0 ∨ 2 ^ 52 * 2 ^ (q.log2 - 52) ≤ q) := by
  constructor
  · rw [← Nat.pow_add]
    refine Nat.lt_log2_self.trans_le (Nat.pow_le_pow_right (by decide) ?_)
    omega
  · rcases Nat.eq_zero_or_pos (q.log2 - 52) with hk | hk
    · exact Or.inl hk
    · have hlog : 52 + (q.log2 - 52) = q.log2 := by omega
      have hne : q ≠ 0 := by
        rintro rfl
        rw [Nat.log2_zero] at hk
        omega
      rw [← Nat.pow_add, hlog]
      exact Or.inr (Nat.log2_self_le hne)

/-- **Rounding of a quotient.**  Up to infinity, the rank found is the one that the quotient rounds
to. -/
theorem rankOfRatio_spec (n : Nat) {d : Nat} (hd : 0 < d) :
    ∃ r, RoundsTo (n / d) r ∧ rankOfRatio n d = min infinityRank r := by
  obtain ⟨hbelow, habove⟩ := log2_binade (n / d)
  let k := (n / d).log2 - 52
  have hpow : 0 < 2 ^ k := Nat.pow_pos (by decide)
  refine ⟨k * Nat.pow 2 52 + divNearestEven n (d * 2 ^ k), ?_, rfl⟩
  obtain ⟨hlow, hhigh, heven⟩ := divNearestEven_spec (n := n) (Nat.mul_pos hd hpow)
  obtain ⟨hge, hle⟩ := divNearestEven_bounds n (d * 2 ^ k)
  rw [← Nat.div_div_eq_div_mul] at hge hle
  generalize divNearestEven n (d * 2 ^ k) = m at *
  have hd' : (0 : ℚ) < d := Nat.cast_pos.2 hd
  have hn : (n / d : ℚ) * d = n := div_mul_cancel₀ _ hd'.ne'
  refine roundsTo_of_steps ?_ ?_ (div_nonneg (Nat.cast_nonneg n) hd'.le) ?_ ?_ ?_ ?_
  · have := (Nat.div_lt_iff_lt_mul hpow).2 hbelow
    show m ≤ 2 ^ 53
    omega
  · refine habove.imp_right fun h => le_trans ?_ hge
    exact (Nat.le_div_iff_mul_le hpow).2 h
  · refine habove.imp_right fun h => ?_
    have hfloor : ((n / d : ℕ) : ℚ) ≤ n / d := Nat.cast_div_le
    have h : ((2 ^ 52 * 2 ^ k : ℕ) : ℚ) ≤ (n / d : ℕ) := Nat.cast_le.2 h
    rw [Nat.cast_mul, Nat.cast_pow 2 k, Nat.cast_ofNat] at h
    exact h.trans hfloor
  · have h : ((2 * (m * (d * 2 ^ k)) : ℕ) : ℚ) ≤ (2 * n + d * 2 ^ k : ℕ) := Nat.cast_le.2 hlow
    push_cast at h
    refine le_of_mul_le_mul_right ?_ hd'
    linarith
  · have h : ((2 * n : ℕ) : ℚ) ≤ (2 * (m * (d * 2 ^ k)) + d * 2 ^ k : ℕ) := Nat.cast_le.2 hhigh
    push_cast at h
    refine le_of_mul_le_mul_right ?_ hd'
    linarith
  · refine heven.imp_right fun ⟨hlow, hhigh⟩ => ⟨?_, ?_⟩
    · have h : ((2 * (m * (d * 2 ^ k)) : ℕ) : ℚ) < (2 * n + d * 2 ^ k : ℕ) := Nat.cast_lt.2 hlow
      push_cast at h
      refine lt_of_mul_lt_mul_right ?_ hd'.le
      linarith
    · have h : ((2 * n : ℕ) : ℚ) < (2 * (m * (d * 2 ^ k)) + d * 2 ^ k : ℕ) := Nat.cast_lt.2 hhigh
      push_cast at h
      refine lt_of_mul_lt_mul_right ?_ hd'.le
      linarith

/-! ### Distances -/

section Distances

variable {a b t : ℚ}

theorem abs_sub_le_iff_add_le (h : a < b) : |b - t| ≤ |a - t| ↔ a + b ≤ 2 * t := by
  have hfactor : (a - t) ^ 2 - (b - t) ^ 2 = (b - a) * (2 * t - (a + b)) := by ring
  rw [← sq_le_sq, ← sub_nonneg, hfactor, mul_nonneg_iff_of_pos_left (sub_pos.2 h), sub_nonneg]

theorem abs_sub_le_iff_le_add (h : a < b) : |a - t| ≤ |b - t| ↔ 2 * t ≤ a + b := by
  have hfactor : (b - t) ^ 2 - (a - t) ^ 2 = (b - a) * (a + b - 2 * t) := by ring
  rw [← sq_le_sq, ← sub_nonneg, hfactor, mul_nonneg_iff_of_pos_left (sub_pos.2 h), sub_nonneg]

theorem abs_sub_eq_iff (h : a < b) : |a - t| = |b - t| ↔ 2 * t = a + b := by
  rw [le_antisymm_iff, abs_sub_le_iff_le_add h, abs_sub_le_iff_add_le h, ← le_antisymm_iff]

end Distances

/-- a rank is at least as near to what rounds to it as any other, and if another is as near it is
even -/
theorem RoundsTo.nearest {t : ℚ} {r : Nat} (h : RoundsTo t r) (s : Nat) :
    |unitsOfRank r - t| ≤ |unitsOfRank s - t| ∧
      (s ≠ r → |unitsOfRank r - t| = |unitsOfRank s - t| → r % 2 = 0) := by
  have hlow := h.low
  have hhigh := h.high
  rcases Nat.lt_trichotomy s r with hs | rfl | hs
  · have hlt := unitsOfRank_cast_lt hs
    have hle := unitsOfRank_cast_le (show s ≤ r - 1 by omega)
    refine ⟨(abs_sub_le_iff_add_le hlt).2 (by linarith), fun _ heq => ?_⟩
    have hmid := (abs_sub_eq_iff hlt).1 heq.symm
    refine h.even.resolve_right fun hopen => ?_
    linarith [hopen.1]
  · exact ⟨le_refl _, fun hne => absurd rfl hne⟩
  · have hlt := unitsOfRank_cast_lt hs
    have hle := unitsOfRank_cast_le (show r + 1 ≤ s by omega)
    refine ⟨(abs_sub_le_iff_le_add hlt).2 (by linarith), fun _ heq => ?_⟩
    have hmid := (abs_sub_eq_iff hlt).1 heq
    refine h.even.resolve_right fun hopen => ?_
    linarith [hopen.2]

/-- what is nearest to a finite rank among the finite ranks rounds to it -/
theorem roundsTo_of_nearest {t : ℚ} {r : Nat} (ht : 0 ≤ t)
    (htop : 2 * t < unitsOfRank (infinityRank - 1) + unitsOfRank infinityRank)
    (hr : r < infinityRank)
    (h : ∀ s, s < infinityRank → |unitsOfRank r - t| ≤ |unitsOfRank s - t| ∧
      (s ≠ r → |unitsOfRank r - t| = |unitsOfRank s - t| → r % 2 = 0)) : RoundsTo t r := by
  have hlow : ∀ j, r = j + 1 → (unitsOfRank j + unitsOfRank r : ℚ) ≤ 2 * t ∧
      (r % 2 = 0 ∨ (unitsOfRank j + unitsOfRank r : ℚ) < 2 * t) := by
    rintro j rfl
    have hlt := unitsOfRank_cast_lt (Nat.lt_succ_self j)
    obtain ⟨hnear, heven⟩ := h j (by omega)
    have hle := (abs_sub_le_iff_add_le hlt).1 hnear
    refine ⟨hle, or_iff_not_imp_left.2 fun hodd => lt_of_le_of_ne hle fun heq => hodd ?_⟩
    exact heven (by omega) ((abs_sub_eq_iff hlt).2 heq.symm).symm
  have hhigh : 2 * t ≤ unitsOfRank r + unitsOfRank (r + 1) ∧
      (r % 2 = 0 ∨ 2 * t < unitsOfRank r + unitsOfRank (r + 1)) := by
    by_cases hnext : r + 1 < infinityRank
    · have hlt := unitsOfRank_cast_lt (Nat.lt_succ_self r)
      obtain ⟨hnear, heven⟩ := h (r + 1) hnext
      have hle := (abs_sub_le_iff_le_add hlt).1 hnear
      refine ⟨hle, or_iff_not_imp_left.2 fun hodd => lt_of_le_of_ne hle fun heq => hodd ?_⟩
      exact heven (by omega) ((abs_sub_eq_iff hlt).2 heq)
    · -- the greatest finite rank
      have hlast : infinityRank = r + 1 := by omega
      rw [hlast, Nat.add_sub_cancel] at htop
      exact ⟨htop.le, Or.inr htop⟩
  cases r with
  | zero =>
    refine ⟨?_, hhigh.1, Or.inl rfl⟩
    rw [Nat.zero_sub, unitsOfRank_zero]
    simpa using ht
  | succ j =>
    obtain ⟨hle, hlt⟩ := hlow j rfl
    refine ⟨hle, hhigh.1, ?_⟩
    rcases hlt with heven | hlt
    · exact Or.inl heven
    · exact hhigh.2.imp_right fun h => ⟨hlt, h⟩

/-! ### The greatest double -/

theorem unitsPerOne_eq : (unitsPerOne : ℚ) = 2 ^ 1074 := by
  unfold unitsPerOne
  generalize 1074 = n
  exact Nat.cast_pow 2 n

theorem unitsPerOne_pos : (0 : ℚ) < unitsPerOne := by
  rw [unitsPerOne_eq]
  exact pow_pos two_pos _

theorem midpoint_eq (a b : Nat) :
    ((2 * 2 ^ 52 - 1) * 2 ^ (a + b + 1) + 2 ^ 52 * 2 ^ (a + b + 2) : ℚ) =
      2 * ((2 ^ (a + 54) - 2 ^ a) * 2 ^ b) := by
  ring

/-- half a step beyond the greatest double -/
theorem infinity_midpoint :
    (unitsOfRank (infinityRank - 1) + unitsOfRank infinityRank : ℚ) =
      2 * ((2 ^ 1024 - 2 ^ 970) * unitsPerOne) := by
  have hinfinity : infinityRank = 2046 * Nat.pow 2 52 + Nat.pow 2 52 := by decide
  have hgreatest : infinityRank - 1 = 2045 * Nat.pow 2 52 + (2 * Nat.pow 2 52 - 1) := by decide
  have htop : unitsOfRank infinityRank = Nat.pow 2 52 * 2 ^ 2046 := by
    rw [hinfinity]
    exact unitsOfRank_binade (by decide) (Or.inr (Nat.le_refl _))
  have hbelow : unitsOfRank (infinityRank - 1) = (2 * Nat.pow 2 52 - 1) * 2 ^ 2045 := by
    rw [hgreatest]
    exact unitsOfRank_binade (by decide) (Or.inr (by decide))
  have hcast : ((2 * Nat.pow 2 52 - 1 : ℕ) : ℚ) = 2 * 2 ^ 52 - 1 := by
    rw [Nat.cast_sub (by decide), Nat.cast_mul, Nat.pow_eq, Nat.cast_pow]
    norm_num
  rw [htop, hbelow, Nat.cast_mul, Nat.cast_mul, hcast, Nat.cast_pow 2 2045, Nat.cast_pow 2 2046,
    unitsPerOne_eq, Nat.pow_eq, Nat.cast_pow]
  exact midpoint_eq 970 1074

/-- a number rounds to a finite rank exactly if it is below that midpoint -/
theorem RoundsTo.lt_infinityRank_iff {t : ℚ} {r : Nat} (h : RoundsTo t r) :
    r < infinityRank ↔ 2 * t < unitsOfRank (infinityRank - 1) + unitsOfRank infinityRank := by
  have hlow := h.low
  have hhigh := h.high
  constructor
  · intro hr
    have hle := unitsOfRank_cast_le (show r ≤ infinityRank - 1 by omega)
    have hle' := unitsOfRank_cast_le (show r + 1 ≤ infinityRank by omega)
    rcases h.even with heven | hopen
    · -- the greatest rank is odd
      have hodd : (infinityRank - 1) % 2 = 1 := by decide
      have hlt := unitsOfRank_cast_lt (show r < infinityRank - 1 by omega)
      linarith
    · linarith [hopen.2]
  · intro ht
    by_contra hr
    have hle := unitsOfRank_cast_le (show infinityRank - 1 ≤ r - 1 by omega)
    have hle' := unitsOfRank_cast_le (show infinityRank ≤ r by omega)
    linarith

/-! ### Nearest doubles -/

section Nearest

variable {m : ℚ} {x y : Binary64}

theorem value_eq (x : Binary64) :
    x.value = signedValue x.negative (unitsOfRank x.rank / unitsPerOne) := by
  unfold value scaled signedValue units
  cases x.negative with
  | true => rw [if_pos rfl, if_pos rfl, Int.cast_neg, Int.cast_natCast, neg_div]
  | false => rw [if_neg Bool.false_ne_true, if_neg Bool.false_ne_true, Int.cast_natCast]

theorem unitsOfRank_div_nonneg (r : Nat) : (0 : ℚ) ≤ unitsOfRank r / unitsPerOne :=
  div_nonneg (Nat.cast_nonneg _) unitsPerOne_pos.le

theorem abs_signedValue (negative : Bool) (hm : 0 ≤ m) : |signedValue negative m| = m := by
  cases negative <;> simp [signedValue, abs_of_nonneg hm]

theorem abs_signedValue_sub (negative : Bool) (a b : ℚ) :
    |signedValue negative a - signedValue negative b| = |a - b| := by
  cases negative with
  | true =>
    rw [signedValue, signedValue, if_pos rfl, if_pos rfl, ← abs_neg]
    congr 1
    ring
  | false => rfl

theorem abs_signedValue_sub_not (negative : Bool) {a b : ℚ} (ha : 0 ≤ a) (hb : 0 ≤ b) :
    |signedValue (!negative) a - signedValue negative b| = a + b := by
  cases negative with
  | true =>
    show |a - -b| = a + b
    rw [sub_neg_eq_add, abs_of_nonneg (add_nonneg ha hb)]
  | false =>
    show |-a - b| = a + b
    rw [← neg_add', abs_neg, abs_of_nonneg (add_nonneg ha hb)]

theorem rank_eq_of_value_eq (hsign : y.negative = x.negative) (h : y.value = x.value) :
    y.rank = x.rank := by
  have hunits : |y.value| = |x.value| := congrArg _ h
  rw [value_eq, value_eq, hsign, abs_signedValue _ (unitsOfRank_div_nonneg _),
    abs_signedValue _ (unitsOfRank_div_nonneg _), div_left_inj' unitsPerOne_pos.ne'] at hunits
  exact unitsOfRank_strictMono.injective (Nat.cast_injective hunits)

theorem value_eq_zero_of_rank (h : x.rank = 0) : x.value = 0 := by
  rw [value_eq, h, unitsOfRank_zero, Nat.cast_zero, zero_div]
  cases x.negative with
  | true => exact neg_zero
  | false => rfl

/-- the distance to a double of the same sign, in units -/
theorem distance_same (h : y.negative = x.negative) :
    |y.value - signedValue x.negative m| * unitsPerOne = |unitsOfRank y.rank - m * unitsPerOne| := by
  have hpos := unitsPerOne_pos
  rw [value_eq, h, abs_signedValue_sub, ← abs_of_pos hpos, ← abs_mul, abs_of_pos hpos, sub_mul,
    div_mul_cancel₀ _ hpos.ne']

/-- the distance to a double of the other sign, in units -/
theorem distance_opposite (hm : 0 ≤ m) (h : y.negative ≠ x.negative) :
    |y.value - signedValue x.negative m| * unitsPerOne = unitsOfRank y.rank + m * unitsPerOne := by
  rw [value_eq, Bool.eq_not_of_ne h, abs_signedValue_sub_not _ (unitsOfRank_div_nonneg _) hm,
    add_mul, div_mul_cancel₀ _ unitsPerOne_pos.ne']

theorem isFinite_iff : x.isFinite = true ↔ x.rank < infinityRank := decide_eq_true_iff

theorem inRange_iff (negative : Bool) (hm : 0 ≤ m) :
    |signedValue negative m| < 2 ^ 1024 - 2 ^ 970 ↔
      2 * (m * unitsPerOne) < unitsOfRank (infinityRank - 1) + unitsOfRank infinityRank := by
  rw [abs_signedValue negative hm, infinity_midpoint, mul_lt_mul_iff_right₀ two_pos,
    mul_lt_mul_iff_left₀ unitsPerOne_pos]

/-- **Nearest is between the midpoints.**  The double nearest to a number is the one of its sign whose
rank its magnitude rounds to, if that is finite. -/
theorem isNearest_iff_roundsTo (hm : 0 ≤ m) :
    IsNearest (signedValue x.negative m) x ↔
      RoundsTo (m * unitsPerOne) x.rank ∧ x.rank < infinityRank := by
  have hpos := unitsPerOne_pos
  have hmul : 0 ≤ m * unitsPerOne := mul_nonneg hm hpos.le
  constructor
  · rintro ⟨hfinite, hrange, hnearest, heven⟩
    have hrank := isFinite_iff.1 hfinite
    refine ⟨roundsTo_of_nearest hmul ((inRange_iff _ hm).1 hrange) hrank fun s hs => ?_, hrank⟩
    let y : Binary64 := ⟨x.negative, s⟩
    have hy : y.isFinite = true := isFinite_iff.2 hs
    rw [← distance_same (x := x) (y := x) rfl, ← distance_same (x := x) (y := y) rfl]
    refine ⟨mul_le_mul_of_nonneg_right (hnearest y hy) hpos.le, fun hne heq => ?_⟩
    refine heven y hy (fun hvalue => hne ?_) (mul_right_cancel₀ hpos.ne' heq)
    exact rank_eq_of_value_eq (x := x) (y := y) rfl hvalue
  · rintro ⟨hround, hrank⟩
    have hxsame := distance_same (x := x) (y := x) (m := m) rfl
    have hzero := hround.nearest 0
    rw [unitsOfRank_zero, Nat.cast_zero, zero_sub, abs_neg, abs_of_nonneg hmul] at hzero
    refine ⟨isFinite_iff.2 hrank, (inRange_iff _ hm).2 (hround.lt_infinityRank_iff.1 hrank),
      fun y _ => ?_, fun y _ hne heq => ?_⟩
    · refine le_of_mul_le_mul_right ?_ hpos
      by_cases hsign : y.negative = x.negative
      · rw [hxsame, distance_same hsign]
        exact (hround.nearest y.rank).1
      · rw [hxsame, distance_opposite hm hsign]
        exact hzero.1.trans (le_add_of_nonneg_left (Nat.cast_nonneg _))
    · have heq := congrArg (· * (unitsPerOne : ℚ)) heq
      by_cases hsign : y.negative = x.negative
      · rw [hxsame, distance_same hsign] at heq
        refine (hround.nearest y.rank).2 (fun hrank => hne ?_) heq
        rw [value_eq y, value_eq x, hsign, hrank]
      · -- only zero can be as near on the other side
        rw [hxsame, distance_opposite hm hsign] at heq
        have hy : (0 : ℚ) ≤ unitsOfRank y.rank := Nat.cast_nonneg _
        have hle := hzero.1
        by_cases hrank : 0 = x.rank
        · have hyzero : unitsOfRank y.rank = unitsOfRank 0 := by
            have h : (unitsOfRank y.rank : ℚ) = unitsOfRank 0 := by
              rw [unitsOfRank_zero, Nat.cast_zero]
              linarith
            exact Nat.cast_injective h
          have hyrank : y.rank = x.rank := (unitsOfRank_strictMono.injective hyzero).trans hrank
          refine absurd ?_ hne
          rw [value_eq_zero_of_rank hrank.symm, value_eq_zero_of_rank (hyrank.trans hrank.symm)]
        · exact hzero.2 hrank (by linarith)

end Nearest

/-! ### Decimals -/

theorem two_pow_le_ten_pow {j k : Nat} (h : j ≤ 3 * k) : (2 ^ j : ℚ) ≤ 10 ^ k := by
  calc (2 ^ j : ℚ) ≤ 2 ^ (3 * k) := pow_le_pow_right₀ one_le_two h
    _ = (2 ^ 3) ^ k := pow_mul 2 3 k
    _ ≤ 10 ^ k := pow_le_pow_left₀ (by norm_num) (by norm_num) k

theorem ten_zpow_natCast (k : Nat) : (10 : ℚ) ^ (k : ℤ) = (Nat.pow 10 k : ℕ) := by
  rw [zpow_natCast, Nat.pow_eq, Nat.cast_pow, Nat.cast_ofNat]

/-- half a unit at most rounds to zero -/
theorem roundsTo_zero {t : ℚ} (ht : 0 ≤ t) (h : 2 * t ≤ 1) : RoundsTo t 0 := by
  have hone : unitsOfRank 1 = 1 := unitsOfRank_of_lt (by decide)
  refine ⟨?_, ?_, Or.inl rfl⟩
  · rw [Nat.zero_sub, unitsOfRank_zero]
    simpa using ht
  · rw [Nat.zero_add, unitsOfRank_zero, hone]
    simpa using h

/-- a number of `2 ^ 1024` or more rounds to no finite rank -/
theorem RoundsTo.infinityRank_le {m : ℚ} {r : Nat} (h : RoundsTo (m * unitsPerOne) r)
    (hm : 2 ^ 1024 ≤ m) : infinityRank ≤ r := by
  refine Nat.le_of_not_lt fun hr => ?_
  have hlt := h.lt_infinityRank_iff.1 hr
  rw [infinity_midpoint, mul_lt_mul_iff_right₀ two_pos,
    mul_lt_mul_iff_left₀ unitsPerOne_pos] at hlt
  have hhalf : (0 : ℚ) ≤ 2 ^ 970 := pow_nonneg zero_le_two _
  exact absurd (hm.trans_lt hlt) (not_lt.2 (sub_le_self _ hhalf))

/-- a number of `n / d` units, rounded -/
theorem ofRatio_spec {t : ℚ} (negative : Bool) (n : Nat) {d : Nat} (hd : 0 < d)
    (ht : t * d = n) :
    ∃ r, RoundsTo t r ∧ ofRatio negative n d = ⟨negative, min infinityRank r⟩ := by
  obtain ⟨r, hr, hrank⟩ := rankOfRatio_spec n hd
  have hd' : (d : ℚ) ≠ 0 := Nat.cast_ne_zero.2 (Nat.ne_of_gt hd)
  rw [← ht, mul_div_cancel_right₀ t hd'] at hr
  exact ⟨r, hr, by rw [ofRatio, hrank]⟩

/-- a great power of ten is beyond the finite doubles -/
theorem le_decimal_of_great {d : Nat} {e : Int} (hd : d ≠ 0) (he : 400 < e) :
    (2 ^ 1024 : ℚ) ≤ d * 10 ^ e := by
  obtain ⟨k, rfl⟩ := Int.eq_ofNat_of_zero_le (show 0 ≤ e by omega)
  have hone : (1 : ℚ) ≤ d := Nat.one_le_cast.2 (Nat.pos_of_ne_zero hd)
  have hpow : (2 ^ 1024 : ℚ) ≤ 10 ^ k := two_pow_le_ten_pow (by omega)
  rw [zpow_natCast]
  exact hpow.trans (le_mul_of_one_le_left (by positivity) hone)

/-- a decimal with no digit near the least double rounds to zero -/
theorem roundsTo_zero_of_small {d : Nat} {e : Int} (h : e + d.log2 < -400) :
    RoundsTo (d * 10 ^ e * unitsPerOne) 0 := by
  obtain ⟨k, hk⟩ := Int.eq_ofNat_of_zero_le (show 0 ≤ -e by omega)
  obtain rfl : e = -(k : ℤ) := by omega
  have hpos : (0 : ℚ) < 10 ^ k := by positivity
  have hd : (d : ℚ) ≤ 2 ^ (d.log2 + 1) := by
    exact_mod_cast Nat.le_of_lt Nat.lt_log2_self
  have hunits : (0 : ℚ) ≤ d * unitsPerOne := mul_nonneg (Nat.cast_nonneg d) unitsPerOne_pos.le
  have hle : 2 * (d * unitsPerOne) ≤ (10 ^ k : ℚ) := by
    calc 2 * (d * unitsPerOne : ℚ) ≤ 2 * (2 ^ (d.log2 + 1) * 2 ^ 1074) := by
          rw [unitsPerOne_eq]
          exact mul_le_mul_of_nonneg_left
            (mul_le_mul_of_nonneg_right hd (pow_nonneg zero_le_two _)) zero_le_two
      _ = 2 ^ (d.log2 + 1 + 1074 + 1) := by rw [← pow_add, ← pow_succ']
      _ ≤ 10 ^ k := two_pow_le_ten_pow (by omega)
  have hvalue : (d * 10 ^ (-(k : ℤ)) * unitsPerOne : ℚ) = d * unitsPerOne / 10 ^ k := by
    rw [zpow_neg, zpow_natCast]
    ring
  rw [hvalue]
  refine roundsTo_zero (div_nonneg hunits hpos.le) ?_
  rw [mul_div_assoc', div_le_one hpos]
  exact hle

/-- **Rounding of decimals.** -/
theorem ofDecimal_spec (negative : Bool) (d : Nat) (e : Int) :
    ∃ r, RoundsTo (d * 10 ^ e * unitsPerOne) r ∧
      ofDecimal negative d e = ⟨negative, min infinityRank r⟩ := by
  have hwhole : ∀ k : Nat, ((d * 10 ^ (k : ℤ) * unitsPerOne : ℚ)) * (1 : ℕ) =
      (d * Nat.pow 10 k * unitsPerOne : ℕ) := by
    intro k
    rw [ten_zpow_natCast, Nat.cast_mul, Nat.cast_mul, Nat.cast_one, mul_one]
  unfold ofDecimal
  by_cases hzero : d = 0
  · subst hzero
    refine ⟨0, ?_, rfl⟩
    rw [Nat.cast_zero, zero_mul, zero_mul]
    exact roundsTo_zero le_rfl ((mul_zero _).le.trans zero_le_one)
  rw [if_neg (by simpa using hzero)]
  by_cases hgreat : 400 < e
  · obtain ⟨k, rfl⟩ := Int.eq_ofNat_of_zero_le (show 0 ≤ e by omega)
    obtain ⟨r, hr, -⟩ := ofRatio_spec negative _ Nat.one_pos (hwhole k)
    have hle := hr.infinityRank_le (le_decimal_of_great hzero hgreat)
    exact ⟨r, hr, by rw [if_pos hgreat, min_eq_left hle]⟩
  rw [if_neg hgreat]
  by_cases hsmall : e + d.log2 < -400
  · exact ⟨0, roundsTo_zero_of_small hsmall, by rw [if_pos hsmall]; rfl⟩
  rw [if_neg hsmall]
  by_cases hsign : 0 ≤ e
  · obtain ⟨k, rfl⟩ := Int.eq_ofNat_of_zero_le hsign
    rw [if_pos hsign, Int.toNat_natCast]
    exact ofRatio_spec negative _ Nat.one_pos (hwhole k)
  · obtain ⟨k, hk⟩ := Int.eq_ofNat_of_zero_le (show 0 ≤ -e by omega)
    obtain rfl : e = -(k : ℤ) := by omega
    rw [if_neg hsign, Int.neg_neg, Int.toNat_natCast]
    refine ofRatio_spec negative _ (Nat.pow_pos (by decide)) ?_
    have hne : (10 : ℚ) ^ (k : ℤ) ≠ 0 := by positivity
    rw [← ten_zpow_natCast, zpow_neg, Nat.cast_mul, mul_right_comm, inv_mul_cancel_right₀ hne]

/-- what rounds a number up to infinity is finite exactly if it is the double nearest to it -/
theorem eq_iff_isNearest {negative : Bool} {m : ℚ} {r : Nat} (hm : 0 ≤ m)
    (hr : RoundsTo (m * unitsPerOne) r) {x : Binary64} :
    ⟨negative, min infinityRank r⟩ = x ∧ x.isFinite = true ↔
      x.negative = negative ∧ IsNearest (signedValue negative m) x := by
  constructor
  · rintro ⟨rfl, hfinite⟩
    have hrank : min infinityRank r < infinityRank := isFinite_iff.1 hfinite
    have hmin : min infinityRank r = r := by omega
    rw [hmin] at hrank ⊢
    exact ⟨rfl, (isNearest_iff_roundsTo (x := ⟨negative, r⟩) hm).2 ⟨hr, hrank⟩⟩
  · rintro ⟨rfl, h⟩
    obtain ⟨hround, hrank⟩ := (isNearest_iff_roundsTo hm).1 h
    obtain rfl := hr.unique hround
    exact ⟨by rw [min_eq_right hrank.le], h.finite⟩

/-- **Decimals are read as the nearest double**, if there is one. -/
theorem ofDecimal_eq_iff {negative : Bool} {d : Nat} {e : Int} {x : Binary64} :
    ofDecimal negative d e = x ∧ x.isFinite = true ↔
      x.negative = negative ∧ IsNearest (signedValue negative (d * 10 ^ e)) x := by
  obtain ⟨r, hr, heq⟩ := ofDecimal_spec negative d e
  rw [heq]
  exact eq_iff_isNearest (by positivity) hr

theorem ofNat_spec (n : Nat) :
    ∃ r, RoundsTo (n * unitsPerOne) r ∧ ofNat n = ⟨false, min infinityRank r⟩ := by
  refine ofRatio_spec false _ Nat.one_pos ?_
  rw [Nat.cast_one, mul_one, Nat.cast_mul]

theorem ofNat_eq_iff {n : Nat} {x : Binary64} :
    ofNat n = x ∧ x.isFinite = true ↔ x.negative = false ∧ IsNearest n x := by
  obtain ⟨r, hr, heq⟩ := ofNat_spec n
  rw [heq]
  exact eq_iff_isNearest (Nat.cast_nonneg n) hr

/-- a whole number of 64 bits is not beyond the doubles -/
theorem isFinite_ofNat {n : Nat} (h : n < 2 ^ 64) : (ofNat n).isFinite = true := by
  obtain ⟨r, hr, heq⟩ := ofNat_spec n
  have hbound : (2 ^ 64 : ℚ) ≤ 2 ^ 1024 - 2 ^ 970 := by
    refine le_sub_iff_add_le.2 ?_
    calc (2 ^ 64 + 2 ^ 970 : ℚ) ≤ 2 ^ 1023 + 2 ^ 1023 :=
          add_le_add (pow_le_pow_right₀ one_le_two (by decide))
            (pow_le_pow_right₀ one_le_two (by decide))
      _ = 2 ^ 1024 := by
        rw [← mul_two]
        exact (pow_succ 2 1023).symm
  have hrange : (n : ℚ) < 2 ^ 1024 - 2 ^ 970 := by
    have hn : (n : ℚ) < 2 ^ 64 := by exact_mod_cast h
    exact hn.trans_le hbound
  have hfinite : r < infinityRank := by
    refine hr.lt_infinityRank_iff.2 ?_
    rwa [infinity_midpoint, mul_lt_mul_iff_right₀ two_pos, mul_lt_mul_iff_left₀ unitsPerOne_pos]
  rw [heq, isFinite_iff]
  exact (min_le_right _ _).trans_lt hfinite

end PageQuery.Binary64
