import Mathlib.Order.Monotone.Basic
import PageQuery.Number.Decimal

/-!
# Shortest decimals tell doubles apart

A decimal has a place on the finest grid, its number of steps (`Decimal.steps`).  The intervals of
two ranks have no point in common (`Interval.eq_of_contains`), and the shortest decimal of a rank
lies in the interval of that rank (`contains_shortest`), so it belongs to one rank only.
-/

namespace PageQuery

/-! ### Values of ranks -/

namespace Binary64

theorem unitsOfRank_of_lt {r : Nat} (h : r < Nat.pow 2 52) : unitsOfRank r = r := if_pos h

theorem unitsOfRank_normal (k : Nat) {m : Nat} (hm : m < Nat.pow 2 52) :
    unitsOfRank ((k + 1) * Nat.pow 2 52 + m) = (Nat.pow 2 52 + m) * Nat.pow 2 k := by
  unfold unitsOfRank
  generalize Nat.pow 2 52 = M at *
  have hpos : 0 < M := by omega
  have hle : M ≤ (k + 1) * M + m := by
    rw [Nat.succ_mul]
    omega
  have hmod : ((k + 1) * M + m) % M = m := by
    rw [Nat.add_comm, Nat.add_mul_mod_self_right, Nat.mod_eq_of_lt hm]
  have hdiv : ((k + 1) * M + m) / M = k + 1 := by
    rw [Nat.add_comm, Nat.add_mul_div_right _ _ hpos, Nat.div_eq_of_lt hm, Nat.zero_add]
  rw [if_neg (by omega), hmod, hdiv, Nat.add_sub_cancel]

/-- a rank is one of the subnormal doubles or has a place in a binade -/
theorem rank_cases (r : Nat) :
    r < Nat.pow 2 52 ∨ ∃ k m, m < Nat.pow 2 52 ∧ r = (k + 1) * Nat.pow 2 52 + m := by
  by_cases h : r < Nat.pow 2 52
  · exact Or.inl h
  · have hpos : 0 < Nat.pow 2 52 := by decide
    have hdiv : 0 < r / Nat.pow 2 52 := Nat.div_pos (by omega) hpos
    refine Or.inr ⟨r / Nat.pow 2 52 - 1, r % Nat.pow 2 52, Nat.mod_lt _ hpos, ?_⟩
    rw [Nat.sub_add_cancel hdiv, Nat.mul_comm, Nat.div_add_mod]

theorem unitsOfRank_lt_succ (r : Nat) : unitsOfRank r < unitsOfRank (r + 1) := by
  have hpos : 0 < Nat.pow 2 52 := by decide
  rcases rank_cases r with h | ⟨k, m, hm, rfl⟩
  · rw [unitsOfRank_of_lt h]
    by_cases hnext : r + 1 < Nat.pow 2 52
    · rw [unitsOfRank_of_lt hnext]
      exact Nat.lt_succ_self r
    · -- the least normal double follows the greatest subnormal one
      have hr : r + 1 = (0 + 1) * Nat.pow 2 52 + 0 := by omega
      rw [hr, unitsOfRank_normal 0 hpos]
      show r < (Nat.pow 2 52 + 0) * 1
      omega
  · have hk : 0 < Nat.pow 2 k := Nat.pow_pos (by decide)
    rw [unitsOfRank_normal k hm]
    by_cases hnext : m + 1 < Nat.pow 2 52
    · rw [Nat.add_assoc, unitsOfRank_normal k hnext]
      exact Nat.mul_lt_mul_of_pos_right (by omega) hk
    · -- the next binade starts at twice the value
      have hr : (k + 1) * Nat.pow 2 52 + m + 1 = (k + 1 + 1) * Nat.pow 2 52 + 0 := by
        rw [Nat.succ_mul (k + 1)]
        omega
      have hvalue : (Nat.pow 2 52 + 0) * Nat.pow 2 (k + 1) = (2 * Nat.pow 2 52) * Nat.pow 2 k := by
        show (Nat.pow 2 52 + 0) * (Nat.pow 2 k * 2) = _
        rw [Nat.add_zero, Nat.mul_comm (Nat.pow 2 k), ← Nat.mul_assoc, Nat.mul_comm 2]
      rw [hr, unitsOfRank_normal (k + 1) hpos, hvalue]
      exact Nat.mul_lt_mul_of_pos_right (by omega) hk

theorem unitsOfRank_strictMono : StrictMono unitsOfRank :=
  strictMono_nat_of_lt_succ unitsOfRank_lt_succ

end Binary64

/-! ### Intervals -/

namespace Decimal

open Binary64

theorem stepsPerUnit_pos : 0 < stepsPerUnit := by
  unfold stepsPerUnit
  generalize 1074 = n
  exact Nat.pow_pos (by decide)

namespace Interval

theorem contains_iff {i : Interval} {x : Nat} :
    i.contains x = true ↔
      i.low ≤ x ∧ x ≤ i.high ∧ (i.closed = true ∨ i.low ≠ x ∧ x ≠ i.high) := by
  unfold contains
  cases i.closed with
  | true => simp
  | false =>
    simp only [Bool.false_eq_true, if_false, Bool.and_eq_true, decide_eq_true_eq, false_or]
    omega

/-- the value of a rank rounds to it -/
theorem contains_value (r : Nat) : (ofRank r).contains (ofRank r).value = true := by
  have hle : unitsOfRank (r - 1) ≤ unitsOfRank r := unitsOfRank_strictMono.monotone (by omega)
  have hlt : unitsOfRank r < unitsOfRank (r + 1) := unitsOfRank_lt_succ r
  have hhigh : (ofRank r).value < (ofRank r).high :=
    Nat.mul_lt_mul_of_pos_right (by omega) stepsPerUnit_pos
  by_cases hzero : r = 0
  · have hlow : (ofRank r).low ≤ (ofRank r).value := Nat.mul_le_mul_right _ (by omega)
    subst hzero
    exact contains_iff.2 ⟨hlow, Nat.le_of_lt hhigh, Or.inl rfl⟩
  · have hbelow : unitsOfRank (r - 1) < unitsOfRank r := unitsOfRank_strictMono (by omega)
    have hlow : (ofRank r).low < (ofRank r).value :=
      Nat.mul_lt_mul_of_pos_right (by omega) stepsPerUnit_pos
    exact contains_iff.2 ⟨by omega, by omega, Or.inr ⟨by omega, by omega⟩⟩

/-- nothing rounds to zero -/
theorem contains_zero : (ofRank 0).contains 0 = true := by
  have hvalue : (ofRank 0).value = 0 := by
    show 2 * unitsOfRank 0 * stepsPerUnit = 0
    rw [unitsOfRank_of_lt (by decide), Nat.mul_zero, Nat.zero_mul]
  have h := contains_value 0
  rwa [hvalue] at h

theorem high_le_low {r s : Nat} (h : r < s) : (ofRank r).high ≤ (ofRank s).low := by
  have hr : unitsOfRank r ≤ unitsOfRank (s - 1) := unitsOfRank_strictMono.monotone (by omega)
  have hs : unitsOfRank (r + 1) ≤ unitsOfRank s := unitsOfRank_strictMono.monotone (by omega)
  exact Nat.mul_le_mul_right _ (by omega)

/-- the intervals of ranks that do not follow each other do not touch -/
theorem high_lt_low {r s : Nat} (h : r + 1 < s) : (ofRank r).high < (ofRank s).low := by
  have hr : unitsOfRank r < unitsOfRank (s - 1) := unitsOfRank_strictMono (by omega)
  have hs : unitsOfRank (r + 1) < unitsOfRank s := unitsOfRank_strictMono h
  exact Nat.mul_lt_mul_of_pos_right (by omega) stepsPerUnit_pos

theorem not_contains_of_lt {r s x : Nat} (h : r < s) (hr : (ofRank r).contains x = true) :
    (ofRank s).contains x = false := by
  by_contra hs
  rw [Bool.not_eq_false] at hs
  obtain ⟨-, hhigh, hopen⟩ := contains_iff.1 hr
  obtain ⟨hlow, -, hopen'⟩ := contains_iff.1 hs
  by_cases hnext : s = r + 1
  · -- neighbours share an end, and it belongs to the one of even rank
    have hends := high_le_low h
    have hparity : (ofRank r).closed = true → (ofRank s).closed = true → False := by
      simp only [ofRank, beq_iff_eq]
      omega
    rcases hopen with hopen | hopen
    · rcases hopen' with hopen' | hopen'
      · exact hparity hopen hopen'
      · omega
    · omega
  · have hends := high_lt_low (show r + 1 < s by omega)
    omega

/-- **Rounding.**  A decimal rounds to one double. -/
theorem eq_of_contains {r s x : Nat} (hr : (ofRank r).contains x = true)
    (hs : (ofRank s).contains x = true) : r = s := by
  rcases Nat.lt_trichotomy r s with h | h | h
  · rw [not_contains_of_lt h hr] at hs
    cases hs
  · exact h
  · rw [not_contains_of_lt h hs] at hr
    cases hr

end Interval

/-! ### The search -/

/-- the decimal in steps of `10 ^ (-1074)` -/
def steps (d : Decimal) : Nat := d.digits * Nat.pow 10 (d.exponent + 1074).toNat

namespace Interval

theorem contains_of_pick {tie : Tie} {i : Interval} {grid d : Nat}
    (h : i.pick tie grid = some d) : i.contains (2 * grid * d) = true := by
  unfold pick at h
  generalize i.value / (2 * grid) = a at h
  cases hbelow : i.contains (2 * grid * a) with
  | false =>
    cases habove : i.contains (2 * grid * (a + 1)) with
    | false => simp [hbelow, habove] at h
    | true =>
      simp only [hbelow, habove, Option.some.injEq] at h
      rwa [← h]
  | true =>
    cases habove : i.contains (2 * grid * (a + 1)) with
    | false =>
      simp only [hbelow, habove, Option.some.injEq] at h
      rwa [← h]
    | true =>
      -- whichever of the two is nearer, or taken in a tie
      have hd : d = a ∨ d = a + 1 := by
        simp only [hbelow, habove] at h
        split at h
        · exact Or.inl (Option.some.inj h).symm
        · split at h
          · exact Or.inr (Option.some.inj h).symm
          · cases tie with
            | upper => exact Or.inr (Option.some.inj h).symm
            | even =>
              have h := Option.some.inj h
              omega
      rcases hd with rfl | rfl
      · exact hbelow
      · exact habove

/-- what is found rounds to the double, and is not finer than the grid of single steps -/
theorem search_spec {tie : Tie} {i : Interval} (hvalue : i.contains i.value = true)
    (heven : i.value % 2 = 0) (q : Nat) :
    i.contains (2 * (i.search tie q).steps) = true ∧ -1074 ≤ (i.search tie q).exponent := by
  induction q with
  | zero =>
    have hsteps : 2 * (i.search tie 0).steps = i.value := by
      show 2 * (i.value / 2 * 1) = i.value
      omega
    exact ⟨hsteps ▸ hvalue, Int.le_refl _⟩
  | succ q ih =>
    unfold search
    cases hpick : i.pick tie (Nat.pow 10 (q + 1)) with
    | none => exact ih
    | some d =>
      have hexponent : ((q : Int) + 1 - 1074 + 1074).toNat = q + 1 := by omega
      have hsteps : 2 * steps ⟨d, (q : Int) + 1 - 1074⟩ = 2 * Nat.pow 10 (q + 1) * d := by
        show 2 * (d * Nat.pow 10 ((q : Int) + 1 - 1074 + 1074).toNat) = _
        rw [hexponent, Nat.mul_comm d, Nat.mul_assoc]
      refine ⟨?_, ?_⟩
      · show i.contains (2 * steps ⟨d, (q : Int) + 1 - 1074⟩) = true
        rw [hsteps]
        exact contains_of_pick hpick
      · show (-1074 : Int) ≤ (q : Int) + 1 - 1074
        omega

end Interval

theorem value_even (r : Nat) : (Interval.ofRank r).value % 2 = 0 := by
  show 2 * unitsOfRank r * stepsPerUnit % 2 = 0
  rw [Nat.mul_assoc, Nat.mul_mod_right]

theorem contains_shortest (tie : Tie) (r : Nat) :
    (Interval.ofRank r).contains (2 * (shortest tie r).steps) = true :=
  (Interval.search_spec (Interval.contains_value r) (value_even r) _).1

theorem neg_le_exponent_shortest (tie : Tie) (r : Nat) : -1074 ≤ (shortest tie r).exponent :=
  (Interval.search_spec (Interval.contains_value r) (value_even r) _).2

end Decimal

end PageQuery
