import Mathlib.Tactic.FieldSimp
import PageQuery.Proofs.Ranges

/-!
# Ranges of whole numbers

Whole numbers up to `2 ^ 53` are doubles, so the ends of a range, its numbers and their distance are
exact.  The quotient that tells how many numbers there are is rounded, but never up to the next whole
number: the step to that number is too small a part of it (`IsRounded.wholePart`).  The text of a
whole number is its digits (`scriptText_integer`).

So a field whose ends and step are whole numbers lists exactly the numbers that the steps reach:
`optionSource_integers`.
-/

namespace PageQuery

/-! ### Quotients of whole numbers -/

namespace Binary64

variable {x y : Binary64} {D s : Nat}

/-- the midpoint below a number `k + 1`, with `a` and a step `g` below it, is above the quotient -/
theorem quotient_lt_midpoint {D s k a g u : ℚ} (hs : 0 < s) (hu : 0 < u) (hD : D ≤ 2 ^ 53)
    (hk : D + 1 ≤ s * (k + 1)) (hstep : (k + 1) * u = a + g) (hgap : 2 ^ 52 * g ≤ a) :
    2 * (D / s * u) < a + (k + 1) * u := by
  by_contra hge
  have hmid : s * a + s * (k + 1) * u ≤ 2 * (D * u) := by
    have hle := mul_le_mul_of_nonneg_left (not_lt.1 hge) hs.le
    have hcancel : s * (2 * (D / s * u)) = 2 * (D * u) := by field_simp
    rw [hcancel] at hle
    linarith
  have hsum : s * (k + 1) * u = s * a + s * g := by rw [mul_assoc, hstep, mul_add]
  have hpart : 2 ^ 52 * (s * g) ≤ s * a := by
    have hle := mul_le_mul_of_nonneg_left hgap hs.le
    linarith
  have hrest : D * u + u ≤ s * (k + 1) * u := by
    have hle := mul_le_mul_of_nonneg_right hk hu.le
    linarith
  have hbound : D * u ≤ 2 ^ 53 * u := mul_le_mul_of_nonneg_right hD hu.le
  -- two units of the step are missing, and the step is at most a part of `2 ^ 52` of what it follows
  linarith

theorem two_pow_53_le : 2 ^ 53 ≤ unitsPerOne := by
  unfold unitsPerOne
  generalize hk : 1074 = k
  exact Nat.pow_le_pow_right (by decide) (by omega)

/-- **No quotient is rounded up to a whole number.** -/
theorem RoundsTo.lt_succ {k r : Nat} (h : RoundsTo (D / s * unitsPerOne) r) (hD : D ≤ 2 ^ 53)
    (hs : 0 < s) (hk : D < s * (k + 1)) (hk53 : k < 2 ^ 53) :
    unitsOfRank r < (k + 1) * unitsPerOne := by
  obtain ⟨R, -, hR⟩ := exists_unitsOfRank (n := k + 1) hk53
  by_contra hge
  rw [← hR, not_lt, unitsOfRank_strictMono.le_iff_le] at hge
  have hRpos : 0 < R := by
    rcases Nat.eq_zero_or_pos R with rfl | hpos
    · rw [unitsOfRank_zero] at hR
      exact absurd hR (Nat.mul_pos (Nat.succ_pos k) (Nat.cast_pos.1 unitsPerOne_pos)).ne
    · exact hpos
  obtain ⟨g, -, hnext, -, hgap⟩ := exists_step (R - 1)
  rw [Nat.sub_add_cancel hRpos, hR] at hnext
  have hgap : Nat.pow 2 52 * g ≤ unitsOfRank (R - 1) := by
    rcases hgap with rfl | hgap
    · have hU : 2 ^ 53 ≤ (k + 1) * unitsPerOne :=
        two_pow_53_le.trans (Nat.le_mul_of_pos_left _ k.succ_pos)
      have h52 : Nat.pow 2 52 * 1 + 1 ≤ 2 ^ 53 := by decide
      omega
    · exact hgap
  have hDQ : (D : ℚ) ≤ 2 ^ 53 := by exact_mod_cast hD
  have hkQ : (D + 1 : ℚ) ≤ s * (k + 1) := by exact_mod_cast hk
  have hgapQ : (2 ^ 52 * g : ℚ) ≤ unitsOfRank (R - 1) := by exact_mod_cast hgap
  have hRQ : (unitsOfRank R : ℚ) = (k + 1) * unitsPerOne := by
    rw [hR, Nat.cast_mul, Nat.cast_succ]
  have hnextQ : ((k + 1) * unitsPerOne : ℚ) = unitsOfRank (R - 1) + g := by
    rw [← hRQ, hR, hnext, Nat.cast_add]
  have hlt := quotient_lt_midpoint (Nat.cast_pos.2 hs) unitsPerOne_pos hDQ hkQ hnextQ hgapQ
  have hlow := h.low
  have hbelow := unitsOfRank_cast_le (show R - 1 ≤ r - 1 by omega)
  have habove := unitsOfRank_cast_le hge
  linarith

/-- **Quotients of whole numbers** have the whole part of the exact quotient. -/
theorem IsRounded.wholePart (h : IsRounded (D / s) x) (hD : D ≤ 2 ^ 53) (hs : 0 < s) :
    x.isFinite = true ∧ x.wholePart = D / s := by
  obtain ⟨r, hr, hrank⟩ := h.rank
  rw [abs_of_nonneg (by positivity)] at hr
  have hfloor : s * (D / s) ≤ D := Nat.mul_div_le D s
  have hceil : D < s * (D / s + 1) := Nat.lt_mul_div_succ D hs
  have hle : D / s ≤ 2 ^ 53 := (Nat.div_le_self D s).trans hD
  obtain ⟨R, hRfinite, hR⟩ := exists_unitsOfRank hle
  have hRQ : (unitsOfRank R : ℚ) = (D / s : ℕ) * unitsPerOne := by rw [hR, Nat.cast_mul]
  have hlow : R ≤ r := by
    apply (roundsTo_unitsOfRank R).mono hr
    rw [hRQ]
    exact mul_le_mul_of_nonneg_right Nat.cast_div_le unitsPerOne_pos.le
  have hbounds : r < infinityRank ∧ unitsOfRank r < (D / s + 1) * unitsPerOne := by
    rcases Nat.eq_or_lt_of_le hfloor with hexact | hrest
    · -- the quotient is whole
      have hquotient : (D / s : ℚ) = (D / s : ℕ) := by
        rw [div_eq_iff (Nat.cast_ne_zero.2 (Nat.ne_of_gt hs)), ← Nat.cast_mul, Nat.mul_comm, hexact]
      rw [hquotient, ← hRQ] at hr
      obtain rfl := hr.unique (roundsTo_unitsOfRank R)
      refine ⟨hRfinite, ?_⟩
      rw [hR, Nat.succ_mul]
      exact Nat.lt_add_of_pos_right (Nat.cast_pos.1 unitsPerOne_pos)
    · have hle' : 1 * (D / s) ≤ s * (D / s) := Nat.mul_le_mul_right _ hs
      have hlt := hr.lt_succ hD hs hceil (by omega)
      obtain ⟨R', hR'finite, hR'⟩ := exists_unitsOfRank (n := D / s + 1) (by omega)
      rw [← hR', unitsOfRank_strictMono.lt_iff_lt] at hlt
      exact ⟨hlt.trans hR'finite, hR' ▸ unitsOfRank_strictMono hlt⟩
  obtain ⟨hfinite, hhigh⟩ := hbounds
  have hxrank : x.rank = r := by omega
  refine ⟨isFinite_iff.2 (hxrank ▸ hfinite), ?_⟩
  unfold Binary64.wholePart units
  rw [hxrank]
  apply Nat.div_eq_of_lt_le
  · rw [← hR]
    exact unitsOfRank_strictMono.monotone hlow
  · exact hhigh

theorem roundsTo_whole {n r : Nat} (hr : unitsOfRank r = n * unitsPerOne) :
    RoundsTo (n * unitsPerOne) r := by
  have h := roundsTo_unitsOfRank r
  rwa [hr, Nat.cast_mul] at h

/-- rounding keeps the order of whole numbers -/
theorem RoundsTo.whole_mono {M N m n r t : Nat} (hM : RoundsTo (M * unitsPerOne) r)
    (hN : RoundsTo (N * unitsPerOne) t) (hr : unitsOfRank r = m * unitsPerOne)
    (ht : unitsOfRank t = n * unitsPerOne) (h : M ≤ N) : m ≤ n := by
  have hrank := hM.mono hN (mul_le_mul_of_nonneg_right (Nat.cast_le.2 h) unitsPerOne_pos.le)
  have hunits := unitsOfRank_strictMono.monotone hrank
  rw [hr, ht] at hunits
  exact Nat.le_of_mul_le_mul_right hunits (Nat.cast_pos.1 unitsPerOne_pos)

/-- an even number rounds to no other whole number up to `2 ^ 53` -/
theorem RoundsTo.eq_of_even {N n r : Nat} (h : RoundsTo (N * unitsPerOne) r)
    (hr : unitsOfRank r = n * unitsPerOne) (hn : n ≤ 2 ^ 53) (heven : N % 2 = 0) : N = n := by
  rcases Nat.lt_trichotomy N n with hlt | heq | hgt
  · obtain ⟨R, -, hR⟩ := exists_unitsOfRank (n := n - 1) (by omega)
    have := h.whole_mono (roundsTo_whole hR) hr hR (by omega)
    omega
  · exact heq
  · by_cases hless : n < 2 ^ 53
    · obtain ⟨R, -, hR⟩ := exists_unitsOfRank (n := n + 1) (by omega)
      have := (roundsTo_whole hR).whole_mono h hR hr (by omega)
      omega
    · -- beyond it the even numbers are doubles
      obtain ⟨R, -, hR⟩ := exists_unitsOfRank_mul (n := 2 ^ 52 + 1) (i := 1) (by decide) (by decide)
      have := (roundsTo_whole hR).whole_mono h hR hr (by omega)
      omega

end Binary64

/-! ### Texts of whole numbers -/

namespace Number

open Binary64 Decimal

variable {x : Binary64} {d : Decimal}

theorem digitChars_mul_ten_pow {n : Nat} (hn : 0 < n) (k : Nat) :
    digitChars (n * 10 ^ k) = digitChars n ++ zeros k := by
  induction k with
  | zero => simp [zeros]
  | succ k ih =>
    have hpos : 0 < n * 10 ^ k := Nat.mul_pos hn (Nat.pow_pos (by decide))
    have happend : digitChars (n * 10 ^ k) ++ digitChars 0 = digitChars (10 * (n * 10 ^ k) + 0) :=
      Nat.toDigits_append_toDigits (by decide) hpos (by decide)
    have hten : n * 10 ^ (k + 1) = 10 * (n * 10 ^ k) + 0 := by
      rw [Nat.pow_succ]
      ring
    rw [hten, ← happend, ih, List.append_assoc]
    congr 1
    exact List.replicate_succ'.symm

/-- a decimal on the coarsest grid of a whole number up to `2 ^ 53` is that number -/
theorem digits_of_isCoarsest {n r : Nat} (h : IsCoarsest r d)
    (hr : unitsOfRank r = n * unitsPerOne) (hn : n ≤ 2 ^ 53) :
    ∃ k : Nat, d.exponent = k ∧ d.digits * 10 ^ k = n := by
  have hvalue : (⟨n, 0⟩ : Decimal).value = n := by simp [Decimal.value]
  have hself : (⟨n, 0⟩ : Decimal).RoundsToRank r := by
    rw [RoundsToRank, hvalue]
    exact roundsTo_whole hr
  -- so the coarsest grid is one of whole numbers
  obtain ⟨k, hk⟩ := Int.eq_ofNat_of_zero_le (h.coarsest _ hself)
  have hwhole : d.value = (d.digits * 10 ^ k : ℕ) := by
    rw [Decimal.value, hk]
    push_cast
    rfl
  refine ⟨k, hk, ?_⟩
  rcases Nat.eq_zero_or_pos k with rfl | hkpos
  · -- on the grid of all of them nothing is nearer than the number itself
    have hexponent : d.exponent = 0 := hk
    have hle := h.nearest n (by rwa [hexponent])
    rw [hexponent] at hle
    unfold distance at hle
    rw [hvalue, hr, Nat.cast_mul, sub_self, abs_zero] at hle
    have hsame := sub_eq_zero.1 (abs_eq_zero.1 (le_antisymm hle (abs_nonneg _)))
    rw [mul_left_inj' unitsPerOne_pos.ne', hwhole] at hsame
    exact_mod_cast hsame.symm
  · have hrounds := h.rounds
    have heven : d.digits * 10 ^ k % 2 = 0 := by
      obtain ⟨j, rfl⟩ := Nat.exists_eq_succ_of_ne_zero hkpos.ne'
      rw [Nat.pow_succ, ← Nat.mul_assoc]
      omega
    rw [RoundsToRank, hwhole] at hrounds
    exact hrounds.eq_of_even hr hn heven

theorem positional_add {digits : List Char} (k : Nat) :
    positional digits (digits.length + k) = digits ++ zeros k := by
  unfold positional
  rw [if_pos (by omega), add_sub_cancel_left, Int.toNat_natCast]

theorem scriptText_of_abs_eq {n : Nat} (hx : x.isFinite = true) (hvalue : |x.value| = n)
    (hpos : 0 < n) (hn : n ≤ 2 ^ 53) : scriptText x = signed x.negative (digitChars n) := by
  have hunits : unitsOfRank x.rank = n * unitsPerOne := by
    have h := abs_value_mul x
    rw [hvalue] at h
    exact_mod_cast h.symm
  have hrank : 0 < x.rank := by
    rcases Nat.eq_zero_or_pos x.rank with hzero | hrank
    · rw [hzero, unitsOfRank_zero] at hunits
      exact absurd hunits (Nat.mul_pos hpos (Nat.cast_pos.1 unitsPerOne_pos)).ne
    · exact hrank
  have hzero : x.isZero = false := beq_eq_false_iff_ne.2 hrank.ne'
  have hd : IsShortest x _ := (isShortest_iff hx hzero).2 rfl
  obtain ⟨k, hk, hdigits⟩ := digits_of_isCoarsest (isCoarsest_shortest hrank) hunits hn
  generalize shortest .upper x.rank = d at *
  have hdpos : 0 < d.digits := Nat.pos_of_mul_pos_right (hdigits ▸ hpos)
  have hn' : digitChars n = digitChars d.digits ++ zeros k := by
    rw [← hdigits, digitChars_mul_ten_pow hdpos]
  have hlength : d.length + k ≤ 16 := by
    have hcount : digitCount n ≤ 16 := (digitCount_le_iff (by decide)).2 (by omega)
    rw [digitCount, hn', List.length_append, zeros, List.length_replicate] at hcount
    exact hcount
  have hpoint : d.leading + 1 = ((digitChars d.digits).length : Int) + k := by
    unfold Decimal.leading
    rw [hk, Int.sub_add_cancel]
    exact Int.add_comm _ _
  have hsmall : ¬(d.leading ≤ -7 ∨ 21 ≤ d.leading) := by
    have hlength' : ((digitChars d.digits).length : Int) + k ≤ 16 := by exact_mod_cast hlength
    omega
  rw [scriptText_of_isShortest hx hzero hd, if_neg hsmall, hpoint, positional_add, hn']

/-- the text of a whole number, with its sign -/
theorem signed_digitChars (n : Int) :
    signed (decide (n < 0)) (digitChars n.natAbs) = toString n := by
  cases n with
  | ofNat m => rfl
  | negSucc m =>
    rw [decide_eq_true (Int.negSucc_lt_zero m)]
    show String.ofList (['-'] ++ digitChars (m + 1)) = "-" ++ String.ofList (Nat.toDigits 10 (m + 1))
    exact String.ofList_append

/-- **Texts of whole numbers** up to `2 ^ 53` are their digits. -/
theorem scriptText_integer {n : Int} (hx : IsInteger x n) (hn : |n| ≤ 2 ^ 53) :
    scriptText x = toString n := by
  obtain ⟨hx, hvalue⟩ := hx
  have habs : |n| = n.natAbs := Int.abs_eq_natAbs n
  have habsvalue : |x.value| = n.natAbs := by rw [hvalue, Nat.cast_natAbs, Int.cast_abs]
  rw [← signed_digitChars]
  by_cases hzero : n = 0
  · subst hzero
    have hplace : x.place = zero.place := place_eq_place.2 (by rw [hvalue, value_zero, Int.cast_zero])
    rw [scriptText_of_isZero (place_eq_zero_iff.1 hplace)]
    decide
  · have hsign : x.negative = decide (n < 0) := by
      rcases lt_or_gt_of_ne hzero with hneg | hpos
      · rw [decide_eq_true hneg]
        exact (value_neg_iff.1 (by rw [hvalue]; exact_mod_cast hneg)).1
      · rw [decide_eq_false (not_lt.2 hpos.le)]
        exact (value_pos_iff.1 (by rw [hvalue]; exact_mod_cast hpos)).1
    rw [scriptText_of_abs_eq hx habsvalue (by omega) (by omega), hsign]

end Number

/-! ### Ranges of whole numbers -/

open Binary64 Number

namespace JsonNumber

/-- the number that is written -/
def value : JsonNumber → ℚ
  | .integer n => n
  | .double x => x.value

theorem isInteger_toDouble {m : JsonNumber} {n : Int} (h : m.value = n) (hn : |n| ≤ 2 ^ 53) :
    IsInteger m.toDouble n := by
  cases m with
  | integer k =>
    obtain rfl : k = n := Int.cast_injective h
    refine IsRounded.isInteger (isRounded_ofRatio Nat.one_pos ?_ (fun hneg => ?_) fun hpos => ?_) hn
    · rw [Nat.cast_mul, Nat.cast_natAbs, Int.cast_abs, Nat.cast_one, mul_one]
    · exact decide_eq_true (Int.cast_lt_zero.1 hneg)
    · exact decide_eq_false (not_lt.2 (Int.cast_pos.1 hpos).le)
  | double x => exact isInteger_of_value_eq h hn

end JsonNumber

namespace NumberRange

variable {min max step : Binary64} {a b s : Int} {D S : Nat}

/-- the numbers of the range are the ones that the steps reach -/
theorem isInteger_nth (hmin : IsInteger min a) (hstep : IsInteger step s) (ha : |a| ≤ 2 ^ 53)
    (hb : |b| ≤ 2 ^ 53) (hs : 0 ≤ s) (i : Nat) (hi : a + i * s ≤ b) :
    IsInteger (nth min step i) (a + i * s) ∧ |a + i * s| ≤ 2 ^ 53 := by
  have hbound : |a + i * s| ≤ 2 ^ 53 := by
    have hsteps : 0 ≤ (i : Int) * s := Int.mul_nonneg (Int.natCast_nonneg i) hs
    rw [abs_le] at *
    omega
  refine ⟨?_, hbound⟩
  induction i with
  | zero => simpa [nth_zero] using hmin
  | succ i ih =>
    have hsucc : a + ((i + 1 : ℕ) : Int) * s = a + i * s + s := by
      push_cast
      ring
    have hsteps : 0 ≤ (i : Int) * s := Int.mul_nonneg (Int.natCast_nonneg i) hs
    have hlast := ih (by omega) (by rw [abs_le] at *; omega)
    have hrounded := isRounded_add hlast.finite hstep.finite
    rw [hlast.value, hstep.value, ← Int.cast_add, ← hsucc] at hrounded
    rw [nth_succ]
    exact hrounded.isInteger hbound

theorem texts_integers (hmin : IsInteger min a) (hstep : IsInteger step s) (ha : |a| ≤ 2 ^ 53)
    (hb : |b| ≤ 2 ^ 53) (hs : 0 ≤ s) {n : Nat} (hn : a + n * s ≤ b) :
    (steps step (n + 1) min).map scriptText =
      (List.range (n + 1)).map fun (i : Nat) => toString (a + i * s) := by
  rw [map_scriptText_steps]
  apply List.map_congr_left
  intro i hi
  rw [List.mem_range] at hi
  have hle : (i : Int) * s ≤ n * s := Int.mul_le_mul_of_nonneg_right (by omega) hs
  obtain ⟨hnth, hbound⟩ := isInteger_nth hmin hstep ha hb hs i (by omega)
  exact scriptText_integer hnth hbound

/-- as many steps fit as the whole part of the exact quotient tells -/
theorem stepCount?_integers (hmin : IsInteger min a) (hmax : IsInteger max (a + D))
    (hstep : IsInteger step S) (hD : D ≤ 2 ^ 53) (hS : 0 < S) :
    stepCount? min max step = some (D / S) := by
  have hdifference : IsInteger (max.sub min) D := by
    have hrounded := isRounded_sub hmax.finite hmin.finite
    rw [hmax.value, hmin.value, ← Int.cast_sub, add_sub_cancel_left] at hrounded
    exact hrounded.isInteger (by rw [Nat.abs_cast]; exact_mod_cast hD)
  have hzero : step.isZero = false := by
    refine eq_false_of_ne_true fun hzero => ?_
    have hvalue := hstep.value
    rw [value_eq_zero_of_rank (beq_iff_eq.1 hzero), Int.cast_natCast] at hvalue
    exact absurd (Nat.cast_eq_zero.1 hvalue.symm) hS.ne'
  have hrounded := isRounded_div hdifference.finite hstep.finite hzero
  rw [hdifference.value, hstep.value, Int.cast_natCast, Int.cast_natCast] at hrounded
  obtain ⟨hfinite, hwhole⟩ := hrounded.wholePart hD hS
  unfold stepCount?
  dsimp only
  rw [if_pos hfinite, hwhole]

/-- a range of whole numbers is refused only for its length -/
theorem numbers_integers (hmin : IsInteger min a) (hmax : IsInteger max (a + D))
    (hstep : IsInteger step S) (hD : D ≤ 2 ^ 53) (hS : 0 < S) :
    numbers min max step =
      if D / S + 1 ≤ maxCount then .ok (steps step (D / S + 1) min) else .error .tooMany := by
  have hpositive : ¬ le step .zero = true := by
    rw [le_iff (isNaN_of_isFinite hstep.finite) (by decide), hstep.value, value_zero, not_le]
    exact_mod_cast hS
  have horder : ¬ lt max min = true := by
    rw [lt_iff (isNaN_of_isFinite hmax.finite) (isNaN_of_isFinite hmin.finite), hmax.value,
      hmin.value, not_lt]
    exact_mod_cast Int.le_add_of_nonneg_right (Int.natCast_nonneg D)
  unfold numbers
  rw [if_neg hpositive, if_neg horder, stepCount?_integers hmin hmax hstep hD hS]
  by_cases hmany : D / S + 1 ≤ maxCount
  · rw [if_pos hmany]
    exact if_neg (Nat.not_lt.2 hmany)
  · rw [if_neg hmany]
    exact if_pos (Nat.not_le.1 hmany)

end NumberRange

namespace Field

open NumberRange

variable {f : Field} {m₁ m₂ m₃ : JsonNumber} {a b s : Int}

/-- an option that is a whole number -/
theorem exists_double?_integer {key : String} {m : JsonNumber} {n : Int}
    (h : f.options.get? key = some (.number m)) (hm : m.value = n) (hn : |n| ≤ 2 ^ 53) :
    ∃ x, f.double? key = some x ∧ IsInteger x n := by
  refine ⟨m.toDouble, ?_, JsonNumber.isInteger_toDouble hm hn⟩
  unfold double?
  rw [h]
  rfl

/-- **Ranges of whole numbers** list what the steps reach from the least number to the greatest, unless
this is more than ten thousand numbers. -/
theorem optionSource_integers (htype : f.type = .number)
    (hmin : f.options.get? "min" = some (.number m₁)) (ha : m₁.value = a)
    (hmax : f.options.get? "max" = some (.number m₂)) (hb : m₂.value = b)
    (hstep : f.options.get? "step" = some (.number m₃)) (hs : m₃.value = s)
    (ha53 : |a| ≤ 2 ^ 53) (hb53 : |b| ≤ 2 ^ 53) (hs53 : s ≤ 2 ^ 53) (hab53 : b - a ≤ 2 ^ 53)
    (hab : a ≤ b) (hs1 : 1 ≤ s) (d : Dialect) :
    ∃ n : Nat, a + n * s ≤ b ∧ b < a + (n + 1) * s ∧
      f.optionSource d =
        if n + 1 ≤ 10000 then
          .ok (.values ((List.range (n + 1)).map fun (i : Nat) => toString (a + i * s)))
        else .error ⟨f.name, .invalidNumberRange .tooMany⟩ := by
  obtain ⟨x, hfx, hx⟩ := exists_double?_integer hmin ha ha53
  obtain ⟨y, hfy, hy⟩ := exists_double?_integer hmax hb hb53
  obtain ⟨z, hfz, hz⟩ := exists_double?_integer hstep hs (by rw [abs_of_pos (by omega)]; exact hs53)
  obtain ⟨D, hD⟩ := Int.eq_ofNat_of_zero_le (Int.sub_nonneg_of_le hab)
  obtain ⟨S, rfl⟩ := Int.eq_ofNat_of_zero_le (show 0 ≤ s by omega)
  obtain rfl : b = a + D := by omega
  have hS : 0 < S := by omega
  have hfits : ((D / S : ℕ) : Int) * S ≤ D := by exact_mod_cast Nat.div_mul_le_self D S
  have hnext : (D : Int) < ((D / S : ℕ) + 1) * S := by
    rw [mul_comm]
    exact_mod_cast Nat.lt_mul_div_succ D hS
  refine ⟨D / S, by omega, by omega, ?_⟩
  rw [optionSource_of_number htype, hfx, hfy, hfz, NumberRange.texts,
    numbers_integers hx hy hz (by omega) hS]
  have hmax : maxCount = 10000 := rfl
  rw [← hmax]
  by_cases hmany : D / S + 1 ≤ maxCount
  · rw [if_pos hmany, if_pos hmany]
    show Except.ok (OptionSource.values ((steps z (D / S + 1) x).map scriptText)) = _
    rw [texts_integers hx hz ha53 hb53 (by omega) (b := a + D) (by omega)]
  · rw [if_neg hmany, if_neg hmany]
    rfl

/-- the last whole numbers of the range that doubles hold -/
theorem optionSource_greatest_integers :
    let f := ofRange (.integer 9007199254740987) (.integer 9007199254740992) (.integer 2)
    f.type = .number ∧
      f.optionSource {} =
        .ok (.values ["9007199254740987", "9007199254740989", "9007199254740991"]) := by
  intro f
  obtain ⟨n, hlow, hhigh, hsource⟩ := optionSource_integers (f := f) rfl rfl rfl rfl rfl rfl rfl
    (by decide) (by decide) (by decide) (by decide) (by decide) (by decide) {}
  obtain rfl : n = 2 := by omega
  refine ⟨rfl, hsource.trans ?_⟩
  decide +kernel

end Field

end PageQuery
