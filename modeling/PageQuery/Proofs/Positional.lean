import Mathlib.Algebra.Field.Rat
import Mathlib.Algebra.GroupWithZero.Basic
import Mathlib.Data.List.Basic
import Mathlib.Data.List.TakeWhile
import PageQuery.Number.Layout
import PageQuery.Number.Numeral
import PageQuery.Proofs.Rendering
import PageQuery.Proofs.Shortest

/-!
# Numbers with the point among the digits

Digits with the point in the right place are a numeral with the value of the decimal that they are
the digits of: `exists_numeral_positional`.  As a decimal rounds to one double, the text of a number
in a query tells which number it is, up to the sign of zero: `queryText_eq_iff`.
-/

namespace PageQuery

/-! ### Values of decimals -/

namespace Decimal

/-- the number that a decimal denotes -/
def value (d : Decimal) : ℚ := d.digits * 10 ^ d.exponent

theorem value_mul_zpow {d : Decimal} (h : -1074 ≤ d.exponent) :
    d.value * 10 ^ (1074 : ℤ) = d.steps := by
  have hten : (10 : ℚ) ≠ 0 := by decide
  have hpow : (10 : ℚ) ^ (d.exponent + 1074) = (Nat.pow 10 (d.exponent + 1074).toNat : ℕ) := by
    obtain ⟨k, hk⟩ := Int.eq_ofNat_of_zero_le (show 0 ≤ d.exponent + 1074 by omega)
    rw [hk, zpow_natCast, Int.toNat_natCast, Nat.pow_eq, Nat.cast_pow, Nat.cast_ofNat]
  rw [value, mul_assoc, ← zpow_add₀ hten, hpow, steps, Nat.cast_mul]

/-- decimals of one value have the same place on the finest grid -/
theorem steps_eq_of_value_eq {d e : Decimal} (hd : -1074 ≤ d.exponent) (he : -1074 ≤ e.exponent)
    (h : d.value = e.value) : d.steps = e.steps := by
  have hcast : (d.steps : ℚ) = e.steps := by
    rw [← value_mul_zpow hd, ← value_mul_zpow he, h]
  exact Nat.cast_injective hcast

end Decimal

namespace Number

open Where

/-! ### Digits -/

theorem digitsValue_eq_ofDigitChars {cs : List Char} (h : ∀ c ∈ cs, c.isDigit = true) :
    digitsValue 10 cs = Nat.ofDigitChars 10 cs 0 := by
  unfold digitsValue
  rw [Nat.ofDigitChars_eq_foldl]
  refine List.foldl_ext _ _ 0 fun n c hc => ?_
  rw [digitValue, if_pos (h c hc), Nat.mul_comm]

theorem digitsValue_digitChars (n : Nat) : digitsValue 10 (digitChars n) = n := by
  rw [digitsValue_eq_ofDigitChars (isDigits_iff.1 (isDigits_digitChars n)).2]
  exact Nat.ofDigitChars_ten_toDigits

theorem digitsValue_append_zeros {cs : List Char} (h : ∀ c ∈ cs, c.isDigit = true) (k : Nat) :
    digitsValue 10 (cs ++ zeros k) = digitsValue 10 cs * 10 ^ k := by
  have hall : ∀ c ∈ cs ++ zeros k, c.isDigit = true := by
    intro c hc
    exact (List.mem_append.1 hc).elim (h c) (isDigit_of_mem_zeros c)
  rw [digitsValue_eq_ofDigitChars hall, digitsValue_eq_ofDigitChars h, Nat.ofDigitChars_append,
    zeros, Nat.ofDigitChars_replicate_zero, Nat.mul_comm]

theorem digitsValue_zeros_append (k : Nat) {cs : List Char} (h : ∀ c ∈ cs, c.isDigit = true) :
    digitsValue 10 (zeros k ++ cs) = digitsValue 10 cs := by
  have hall : ∀ c ∈ zeros k ++ cs, c.isDigit = true := by
    intro c hc
    exact (List.mem_append.1 hc).elim (isDigit_of_mem_zeros c) (h c)
  rw [digitsValue_eq_ofDigitChars hall, digitsValue_eq_ofDigitChars h, Nat.ofDigitChars_append,
    zeros, Nat.ofDigitChars_replicate_zero, Nat.mul_zero]

/-! ### Numerals -/

/-- the decimal of a numeral without its sign -/
def DecimalNumeral.magnitude (n : DecimalNumeral) : Decimal := ⟨n.digits, n.exponent⟩

theorem splitSign_signed {cs : List Char} (h : isDigits (cs.takeWhile Char.isDigit) = true)
    (negative : Bool) : splitSign (signed negative cs).toList = (negative, cs) := by
  cases negative with
  | true => rw [signed, String.toList_ofList]; rfl
  | false =>
    rw [signed, String.toList_ofList]
    cases cs with
    | nil => rfl
    | cons c cs =>
      simp only [Bool.false_eq_true, if_false]
      unfold splitSign
      split
      · rename_i heq
        cases heq
        cases h
      · rename_i heq
        cases heq
        cases h
      · rfl

/-- the text goes on with no digit -/
def EndsDigits (rest : List Char) : Prop := ∀ c ∈ rest.head?, c.isDigit = false

theorem endsDigits_nil : EndsDigits [] := by
  rintro c ⟨⟩

theorem endsDigits_point (rest : List Char) : EndsDigits ('.' :: rest) := by
  rintro c ⟨⟩
  rfl

/-- digits without a point -/
theorem decimalNumeral?_of_whole {cs whole rest : List Char} {negative : Bool}
    (hcut : splitSign cs = (negative, whole ++ rest)) (hw : ∀ c ∈ whole, c.isDigit = true)
    (hrest : EndsDigits rest) (hpoint : rest.head? ≠ some '.') :
    decimalNumeral? cs = if whole = [] then none
      else (exponentValue rest).map fun e => ⟨negative, digitsValue 10 whole, e⟩ := by
  unfold decimalNumeral?
  rw [hcut]
  dsimp only
  rw [takeWhile_append_of_head? hw hrest, dropWhile_append_of_head? hw hrest]
  split
  · exact absurd rfl hpoint
  · simp

/-- digits with a point -/
theorem decimalNumeral?_of_pointed {cs whole fraction rest : List Char} {negative : Bool}
    (hcut : splitSign cs = (negative, whole ++ '.' :: (fraction ++ rest)))
    (hw : ∀ c ∈ whole, c.isDigit = true) (hf : ∀ c ∈ fraction, c.isDigit = true)
    (hrest : EndsDigits rest) :
    decimalNumeral? cs = if whole ++ fraction = [] then none
      else (exponentValue rest).map fun e =>
        ⟨negative, digitsValue 10 (whole ++ fraction), e - fraction.length⟩ := by
  have hpoint := endsDigits_point (fraction ++ rest)
  unfold decimalNumeral?
  rw [hcut]
  dsimp only
  rw [takeWhile_append_of_head? hw hpoint, dropWhile_append_of_head? hw hpoint]
  simp only [takeWhile_append_of_head? hf hrest, dropWhile_append_of_head? hf hrest]
  simp

theorem decimalNumeral?_whole {digits : List Char} (h : isDigits digits = true)
    (negative : Bool) : decimalNumeral? (signed negative digits).toList =
      some ⟨negative, digitsValue 10 digits, 0⟩ := by
  obtain ⟨hne, hdigit⟩ := isDigits_iff.1 h
  have htake : digits.takeWhile Char.isDigit = digits := List.takeWhile_eq_self_iff.2 hdigit
  have hcut : splitSign (signed negative digits).toList = (negative, digits ++ []) := by
    rw [List.append_nil, splitSign_signed (by rwa [htake])]
  rw [decimalNumeral?_of_whole hcut hdigit endsDigits_nil (by simp), if_neg hne]
  rfl

theorem decimalNumeral?_fraction {whole fraction : List Char} (hw : isDigits whole = true)
    (hf : ∀ c ∈ fraction, c.isDigit = true) (negative : Bool) :
    decimalNumeral? (signed negative (whole ++ '.' :: fraction)).toList =
      some ⟨negative, digitsValue 10 (whole ++ fraction), -fraction.length⟩ := by
  obtain ⟨hne, hdigit⟩ := isDigits_iff.1 hw
  have htake := takeWhile_append_of_head? hdigit (endsDigits_point fraction)
  have hcut : splitSign (signed negative (whole ++ '.' :: fraction)).toList =
      (negative, whole ++ '.' :: (fraction ++ [])) := by
    rw [List.append_nil, splitSign_signed (by rwa [htake])]
  rw [decimalNumeral?_of_pointed hcut hdigit hf endsDigits_nil, if_neg (by simp [hne])]
  simp [exponentValue]

/-- **Positional numerals.**  Digits with the point after so many of them, whatever zeros that
takes, are a numeral of the same digits and the power of ten that the point stands for. -/
theorem exists_numeral_positional {digits : List Char} (h : isDigits digits = true) (point : Int)
    (negative : Bool) :
    ∃ n, decimalNumeral? (signed negative (positional digits point)).toList = some n ∧
      n.negative = negative ∧
      n.magnitude.value = (⟨digitsValue 10 digits, point - digits.length⟩ : Decimal).value := by
  obtain ⟨hne, hdigit⟩ := isDigits_iff.1 h
  unfold positional
  split
  · rename_i hpoint
    -- all digits stand before the point
    obtain ⟨k, hk⟩ := Int.eq_ofNat_of_zero_le (show 0 ≤ point - digits.length by omega)
    have hzeros : (point - digits.length).toNat = k := by omega
    have hall : isDigits (digits ++ zeros k) = true := by
      refine isDigits_iff.2 ⟨by simp [hne], fun c hc => ?_⟩
      exact (List.mem_append.1 hc).elim (hdigit c) (isDigit_of_mem_zeros c)
    refine ⟨_, by rw [hzeros]; exact decimalNumeral?_whole hall negative, rfl, ?_⟩
    rw [hk, digitsValue_append_zeros hdigit]
    simp [DecimalNumeral.magnitude, Decimal.value]
  · split
    · rename_i hlen hpoint
      -- the point stands among the digits
      obtain ⟨k, rfl⟩ := Int.eq_ofNat_of_zero_le (show 0 ≤ point by omega)
      have hwhole : isDigits (digits.take k) = true := by
        refine isDigits_iff.2 ⟨?_, fun c hc => hdigit c (List.mem_of_mem_take hc)⟩
        rw [← List.length_pos_iff, List.length_take]
        omega
      have hfraction : ∀ c ∈ digits.drop k, c.isDigit = true :=
        fun c hc => hdigit c (List.mem_of_mem_drop hc)
      have hexponent : -((digits.drop k).length : Int) = k - digits.length := by
        rw [List.length_drop]
        omega
      refine ⟨_, decimalNumeral?_fraction hwhole hfraction negative, rfl, ?_⟩
      rw [List.take_append_drop, hexponent]
      rfl
    · rename_i hlen hpoint
      -- all digits stand behind the point
      obtain ⟨k, hk⟩ := Int.eq_ofNat_of_zero_le (show 0 ≤ -point by omega)
      have hzeros : (-point).toNat = k := by omega
      have hfraction : ∀ c ∈ zeros k ++ digits, c.isDigit = true := by
        intro c hc
        exact (List.mem_append.1 hc).elim (isDigit_of_mem_zeros c) (hdigit c)
      have hzero : isDigits ['0'] = true := by decide
      have hexponent : -((zeros k ++ digits).length : Int) = point - digits.length := by
        rw [List.length_append, zeros, List.length_replicate]
        omega
      have hvalue : digitsValue 10 (['0'] ++ (zeros k ++ digits)) = digitsValue 10 digits := by
        show digitsValue 10 (zeros (k + 1) ++ digits) = _
        exact digitsValue_zeros_append (k + 1) hdigit
      refine ⟨_, by rw [hzeros]; exact decimalNumeral?_fraction hzero hfraction negative, rfl, ?_⟩
      rw [hvalue, hexponent]
      rfl

/-! ### Texts of numbers in queries -/

/-- the decimal that the text of a finite number denotes, its sign aside -/
def decimalOf (x : Binary64) : Decimal := if x.isZero then ⟨0, 0⟩ else Decimal.shortest .upper x.rank

theorem contains_decimalOf (x : Binary64) :
    (Decimal.Interval.ofRank x.rank).contains (2 * (decimalOf x).steps) = true := by
  unfold decimalOf
  split
  · rename_i hzero
    have hsteps : 2 * (⟨0, 0⟩ : Decimal).steps = 0 := by
      rw [Decimal.steps, Nat.zero_mul]
    rw [eq_of_beq hzero, hsteps]
    exact Decimal.Interval.contains_zero
  · exact Decimal.contains_shortest .upper x.rank

theorem neg_le_exponent_decimalOf (x : Binary64) : -1074 ≤ (decimalOf x).exponent := by
  unfold decimalOf
  split
  · show (-1074 : Int) ≤ 0
    decide
  · exact Decimal.neg_le_exponent_shortest .upper x.rank

/-- **Texts of finite numbers.**  They are numerals of the decimal of the number. -/
theorem exists_numeral_queryText {x : Binary64} (h : x.isFinite = true) :
    ∃ n, decimalNumeral? (queryText x).toList = some n ∧
      n.negative = (x.negative && !x.isZero) ∧ n.magnitude.value = (decimalOf x).value := by
  cases hzero : x.isZero with
  | true =>
    rw [queryText_of_isZero hzero, decimalOf, if_pos hzero, Bool.not_true, Bool.and_false]
    have hdigits : isDigits ['0'] = true := by decide
    exact ⟨_, decimalNumeral?_whole hdigits false, rfl, rfl⟩
  | false =>
    have hd : decimalOf x = Decimal.shortest .upper x.rank := by
      rw [decimalOf, hzero]
      rfl
    obtain ⟨n, hn, hnegative, hvalue⟩ :=
      exists_numeral_positional (isDigits_digitChars (decimalOf x).digits)
        ((decimalOf x).exponent + (digitChars (decimalOf x).digits).length) x.negative
    rw [Int.add_sub_cancel, digitsValue_digitChars] at hvalue
    refine ⟨n, ?_, ?_, hvalue⟩
    · rw [← hn, queryText_of_isFinite h hzero, hd]
      rfl
    · rw [hnegative, Bool.not_false, Bool.and_true]

/-- the text of a finite number is a numeral, and that of any other double one of three words -/
theorem queryText_cases (x : Binary64) :
    x.isFinite = true ∧ (∃ n, decimalNumeral? (queryText x).toList = some n) ∨
      x.isFinite = false ∧ queryText x ∈ ["Infinity", "-Infinity", "NaN"] := by
  rcases finite_or_infinite_or_nan x with hx | hx | hx
  · obtain ⟨n, hn, -⟩ := exists_numeral_queryText hx
    exact Or.inl ⟨hx, n, hn⟩
  · refine Or.inr ⟨isFinite_eq_false_of_isInfinite hx, ?_⟩
    rw [queryText_of_isInfinite hx]
    cases x.negative with
    | false => decide
    | true => decide
  · refine Or.inr ⟨isFinite_eq_false_of_isNaN hx, ?_⟩
    rw [queryText_of_isNaN hx]
    decide

theorem isSome_numeral_queryText (x : Binary64) :
    (decimalNumeral? (queryText x).toList).isSome = x.isFinite := by
  rcases queryText_cases x with ⟨hx, n, hn⟩ | ⟨hx, hword⟩
  · rw [hn, hx]
    rfl
  · simp only [List.mem_cons, List.not_mem_nil, or_false] at hword
    rcases hword with h | h | h <;> simp [h, hx, decimalNumeral?, splitSign]

/-- a finite number is the only one with its text, up to the sign of zero -/
theorem eq_or_zero_of_queryText_eq {x y : Binary64} (hx : x.isFinite = true)
    (hy : y.isFinite = true) (h : queryText x = queryText y) :
    x = y ∨ x.isZero = true ∧ y.isZero = true := by
  obtain ⟨n, hn, hxsign, hxvalue⟩ := exists_numeral_queryText hx
  obtain ⟨n', hn', hysign, hyvalue⟩ := exists_numeral_queryText hy
  obtain rfl : n = n' := by
    rw [h, hn'] at hn
    exact (Option.some.inj hn).symm
  have hsteps : (decimalOf x).steps = (decimalOf y).steps :=
    Decimal.steps_eq_of_value_eq (neg_le_exponent_decimalOf x) (neg_le_exponent_decimalOf y)
      (hxvalue.symm.trans hyvalue)
  have hrank : x.rank = y.rank :=
    Decimal.Interval.eq_of_contains (contains_decimalOf x) (hsteps ▸ contains_decimalOf y)
  have hzero : x.isZero = y.isZero := by
    rw [Binary64.isZero, Binary64.isZero, hrank]
  cases hz : y.isZero with
  | true => exact Or.inr ⟨hzero.trans hz, rfl⟩
  | false =>
    have hsign : x.negative = y.negative := by
      rw [hxsign, hzero, hz, Bool.not_false, Bool.and_true, Bool.and_true] at hysign
      exact hysign
    exact Or.inl (by cases x; cases y; simp_all)

theorem eq_of_infinite_of_queryText_eq {x y : Binary64} (hx : x.isInfinite = true)
    (hy : y.isInfinite = true) (h : queryText x = queryText y) : x = y := by
  rw [queryText_of_isInfinite hx, queryText_of_isInfinite hy] at h
  have hrank : x.rank = y.rank := (eq_of_beq hx).trans (eq_of_beq hy).symm
  have hsign : x.negative = y.negative := by
    revert h
    cases x.negative <;> cases y.negative <;> decide
  cases x
  cases y
  simp_all

theorem signed_infinity_ne_nan (negative : Bool) : signed negative "Infinity".toList ≠ "NaN" := by
  cases negative with
  | false => decide
  | true => decide

theorem queryText_eq_NaN_iff {x : Binary64} : queryText x = "NaN" ↔ x.isNaN = true := by
  constructor
  · intro h
    rcases finite_or_infinite_or_nan x with hx | hx | hx
    · have hnumeral := isSome_numeral_queryText x
      rw [h, hx] at hnumeral
      simp [decimalNumeral?, splitSign] at hnumeral
    · rw [queryText_of_isInfinite hx] at h
      exact absurd h (signed_infinity_ne_nan x.negative)
    · exact hx
  · exact queryText_of_isNaN

/-- **Telling numbers apart.**  The texts of two numbers are equal exactly if the numbers are, up to
the sign of zero and to what is none of a number. -/
theorem queryText_eq_iff {x y : Binary64} :
    queryText x = queryText y ↔
      x = y ∨ x.isZero = true ∧ y.isZero = true ∨ x.isNaN = true ∧ y.isNaN = true := by
  constructor
  · intro h
    have hfinite : x.isFinite = y.isFinite := by
      rw [← isSome_numeral_queryText, ← isSome_numeral_queryText, h]
    have hnan : x.isNaN = true ↔ y.isNaN = true := by
      rw [← queryText_eq_NaN_iff, ← queryText_eq_NaN_iff, h]
    rcases finite_or_infinite_or_nan x with hx | hx | hx
    · exact (eq_or_zero_of_queryText_eq hx (hfinite ▸ hx) h).imp_right Or.inl
    · rcases finite_or_infinite_or_nan y with hy | hy | hy
      · rw [hy, isFinite_eq_false_of_isInfinite hx] at hfinite
        cases hfinite
      · exact Or.inl (eq_of_infinite_of_queryText_eq hx hy h)
      · exact Or.inr (Or.inr ⟨hnan.2 hy, hy⟩)
    · exact Or.inr (Or.inr ⟨hx, hnan.1 hx⟩)
  · rintro (rfl | ⟨hx, hy⟩ | ⟨hx, hy⟩)
    · rfl
    · rw [queryText_of_isZero hx, queryText_of_isZero hy]
    · rw [queryText_of_isNaN hx, queryText_of_isNaN hy]

end Number

end PageQuery
