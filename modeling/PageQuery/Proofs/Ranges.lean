import Mathlib.Data.List.Nodup
import PageQuery.Field.OptionSource
import PageQuery.Proofs.NumberTexts

/-!
# Ranges of numbers

The numbers of a range are the rounded sums that repeated addition of the step gives (`nth`).  A sum
is never below the number before it, and one that is not above it is that number again
(`isSum_add`), so the range stays there: two numbers of a range are the same only if the last two
are.  How many there are is told by one rounded quotient, so the last may lie beyond the greatest.

The numbers that a field lists differ exactly if the last two do, and lie between its ends exactly if
the last one does (`number_options`), and there are fields where the one or the other fails
(`number_options_repeat_and_exceed`).
-/

namespace PageQuery

/-! ### One step -/

namespace Binary64

variable {x step : Binary64}

/-- what a sum of a finite number and positive ones can be: finite, or infinity -/
def IsSum (x : Binary64) : Prop := x.isFinite = true ∨ x = infinity

theorem IsSum.isNaN (h : IsSum x) : x.isNaN = false := by
  rcases h with h | rfl
  · exact isNaN_of_isFinite h
  · decide

/-- infinity stands above the finite numbers -/
theorem place_lt_infinity (h : x.isFinite = true) : x.place < infinity.place := by
  have hrank := isFinite_iff.1 h
  show x.place < (infinityRank : Int)
  unfold place
  split
  · omega
  · omega

theorem isSum_of_place_pos (hnan : x.isNaN = false) (hpos : 0 < x.place) : IsSum x := by
  have hsign := negative_of_place_pos hpos
  have hrank : x.rank ≤ infinityRank := by simpa [Binary64.isNaN] using hnan
  obtain ⟨negative, r⟩ := x
  obtain rfl : negative = false := hsign
  rcases Nat.eq_or_lt_of_le hrank with heq | hlt
  · obtain rfl : r = infinityRank := heq
    exact Or.inr rfl
  · exact Or.inl (isFinite_iff.2 hlt)

theorem add_infinity (hx : x.isFinite = true) : x.add infinity = infinity := by
  unfold add
  rw [isNaN_of_isFinite hx, isInfinite_of_isFinite hx]
  rfl

theorem infinity_add (hnan : step.isNaN = false) (hpos : 0 < step.place) :
    infinity.add step = infinity := by
  unfold add
  rw [hnan, negative_of_place_pos hpos]
  simp [infinity, Binary64.isNaN, isInfinite]

/-- a finite number and a positive one: the sum is not below the number, and in the same place only if
it is the number itself -/
theorem isSum_add_of_isFinite (hx : x.isFinite = true) (hstep : step.isFinite = true)
    (hpos : 0 < step.place) :
    IsSum (x.add step) ∧ x.place ≤ (x.add step).place ∧
      ((x.add step).place = x.place → x.add step = x) := by
  have hrounded := isRounded_add hx hstep
  have hvalue : 0 < step.value := by
    rw [← value_zero]
    exact place_lt_place.1 hpos
  have hle : x.place ≤ (x.add step).place :=
    (isRounded_value hx).place_le hrounded (by linarith)
  refine ⟨?_, hle, fun heq => eq_of_place_eq heq fun hzero => ?_⟩
  · rcases Nat.eq_or_lt_of_le hrounded.rank_le_infinityRank with hinfinite | hlt
    · right
      have hxrank := isFinite_iff.1 hx
      have hxplace := natAbs_place x
      have hplace := natAbs_place (x.add step)
      apply eq_of_place_eq _ (by decide)
      show (x.add step).place = (infinityRank : Int)
      omega
    · exact Or.inl (isFinite_iff.2 hlt)
  · -- from zero the step leads to itself
    have hxvalue : x.value = 0 := by
      rw [← value_zero]
      exact place_eq_place.1 hzero
    rw [hxvalue, zero_add] at hrounded
    have hself := (isRounded_value hstep).place_le hrounded le_rfl
    omega

/-- **A step up.**  The sum is not below the number, and in the same place only if it is the number
itself. -/
theorem isSum_add (hx : IsSum x) (hstep : IsSum step) (hpos : 0 < step.place) :
    IsSum (x.add step) ∧ x.place ≤ (x.add step).place ∧
      ((x.add step).place = x.place → x.add step = x) := by
  rcases hx with hx | rfl
  · rcases hstep with hstep | rfl
    · exact isSum_add_of_isFinite hx hstep hpos
    · have hlt := place_lt_infinity hx
      rw [add_infinity hx]
      exact ⟨Or.inr rfl, hlt.le, fun heq => absurd heq hlt.ne'⟩
  · rw [infinity_add hstep.isNaN hpos]
    exact ⟨Or.inr rfl, le_rfl, fun _ => rfl⟩

end Binary64

namespace NumberRange

open Binary64 Number

/-! ### Numbers in steps -/

/-- the number after so many steps -/
def nth (min step : Binary64) (i : Nat) : Binary64 := (fun x => x.add step)^[i] min

theorem nth_zero (min step : Binary64) : nth min step 0 = min := rfl

theorem nth_succ (min step : Binary64) (i : Nat) :
    nth min step (i + 1) = (nth min step i).add step :=
  Function.iterate_succ_apply' _ i min

theorem steps_eq_map (step : Binary64) (n : Nat) (x : Binary64) :
    steps step n x = (List.range n).map (nth x step) := by
  induction n generalizing x with
  | zero => rfl
  | succ n ih =>
    rw [steps, ih, List.range_succ_eq_map, List.map_cons, List.map_map]
    rfl

theorem map_scriptText_steps (step : Binary64) (n : Nat) (x : Binary64) :
    (steps step n x).map scriptText = (List.range n).map fun i => scriptText (nth x step i) := by
  rw [steps_eq_map, List.map_map]
  rfl

section Steps

variable {min max step : Binary64} {i j n : Nat}

theorem isSum_nth (hmin : IsSum min) (hstep : IsSum step) (hpos : 0 < step.place) (i : Nat) :
    IsSum (nth min step i) := by
  induction i with
  | zero => exact hmin
  | succ i ih =>
    rw [nth_succ]
    exact (isSum_add ih hstep hpos).1

/-- the numbers never go down -/
theorem place_nth_mono (hmin : IsSum min) (hstep : IsSum step) (hpos : 0 < step.place)
    (hij : i ≤ j) : (nth min step i).place ≤ (nth min step j).place := by
  induction j, hij using Nat.le_induction with
  | base => exact le_rfl
  | succ j _ ih =>
    rw [nth_succ]
    exact ih.trans (isSum_add (isSum_nth hmin hstep hpos j) hstep hpos).2.1

/-- a number that is met again is the next one -/
theorem nth_succ_eq_of_place_eq (hmin : IsSum min) (hstep : IsSum step) (hpos : 0 < step.place)
    (hij : i < j) (h : (nth min step i).place = (nth min step j).place) :
    nth min step (i + 1) = nth min step i := by
  have hlow := place_nth_mono hmin hstep hpos (Nat.le_succ i)
  have hhigh := place_nth_mono hmin hstep hpos (Nat.succ_le_of_lt hij)
  rw [nth_succ] at hlow hhigh ⊢
  apply (isSum_add (isSum_nth hmin hstep hpos i) hstep hpos).2.2
  omega

/-- what a step does not change no further one does -/
theorem nth_eq_of_stuck (h : nth min step (i + 1) = nth min step i) (hij : i ≤ j) :
    nth min step j = nth min step i := by
  induction j, hij using Nat.le_induction with
  | base => rfl
  | succ j _ ih => rw [nth_succ, ih, ← nth_succ, h]

theorem place_nth_inj (hmin : IsSum min) (hstep : IsSum step) (hpos : 0 < step.place)
    (hlast : ∀ k, k + 1 = n → nth min step k ≠ nth min step n) (hi : i ≤ n) (hj : j ≤ n)
    (h : (nth min step i).place = (nth min step j).place) : i = j := by
  wlog hij : i ≤ j generalizing i j
  · exact (this hj hi h.symm (Nat.le_of_not_le hij)).symm
  rcases Nat.eq_or_lt_of_le hij with heq | hlt
  · exact heq
  · exfalso
    have hstuck := nth_succ_eq_of_place_eq hmin hstep hpos hlt h
    obtain ⟨k, rfl⟩ := Nat.exists_eq_succ_of_ne_zero (show n ≠ 0 by omega)
    apply hlast k rfl
    rw [nth_eq_of_stuck hstuck (show i ≤ k by omega), nth_eq_of_stuck hstuck hi]

/-! ### Texts -/

/-- the text of a number tells its place -/
theorem scriptText_eq_iff_place {x y : Binary64} (hx : IsSum x) (hy : IsSum y) :
    scriptText x = scriptText y ↔ x.place = y.place := by
  constructor
  · intro h
    rcases hx with hx | rfl
    · rcases hy with hy | rfl
      · rcases eq_of_scriptText_eq hx hy h with rfl | ⟨hx0, hy0⟩
        · rfl
        · rw [place_eq_zero_iff.2 hx0, place_eq_zero_iff.2 hy0]
      · have hread := ofText?_scriptText hx
        rw [h, ofText?_scriptText_of_not_isFinite (by decide)] at hread
        cases hread
    · rcases hy with hy | rfl
      · have hread := ofText?_scriptText hy
        rw [← h, ofText?_scriptText_of_not_isFinite (by decide)] at hread
        cases hread
      · rfl
  · intro h
    by_cases hzero : y.place = 0
    · rw [scriptText_of_isZero (place_eq_zero_iff.1 (h.trans hzero)),
        scriptText_of_isZero (place_eq_zero_iff.1 hzero)]
    · rw [eq_of_place_eq h hzero]

/-- **Texts repeat** only where the last number is the one before it. -/
theorem nodup_texts_iff (hmin : IsSum min) (hstep : IsSum step) (hpos : 0 < step.place) (n : Nat) :
    ((List.range (n + 1)).map fun i => scriptText (nth min step i)).Nodup ↔
      ∀ i, i + 1 = n → nth min step i ≠ nth min step n := by
  rw [List.nodup_map_iff_inj_on List.nodup_range]
  constructor
  · intro hinj i hi heq
    have hin : i = n := hinj i (List.mem_range.2 (by omega)) n (List.mem_range.2 (by omega))
      (congrArg scriptText heq)
    omega
  · intro hlast i hi j hj htext
    rw [List.mem_range] at hi hj
    have hplace := (scriptText_eq_iff_place (isSum_nth hmin hstep hpos i)
      (isSum_nth hmin hstep hpos j)).1 htext
    exact place_nth_inj hmin hstep hpos hlast (by omega) (by omega) hplace

/-- the text is read as a number between the two -/
def ReadsBetween (min max : Binary64) (t : String) : Prop :=
  ∃ x, ofText? t = some x ∧ le min x = true ∧ le x max = true

/-- the text of a finite number is read as a number in its place -/
theorem exists_read {x : Binary64} (hx : x.isFinite = true) :
    ∃ y, ofText? (scriptText x) = some y ∧ y.isNaN = false ∧ y.place = x.place := by
  refine ⟨_, ofText?_scriptText hx, ?_⟩
  split
  · exact ⟨by decide, (place_eq_zero_iff.2 ‹_›).symm⟩
  · exact ⟨isNaN_of_isFinite hx, rfl⟩

theorem readsBetween_iff {x : Binary64} (hmin : min.isFinite = true) (hmax : max.isFinite = true)
    (hx : IsSum x) :
    ReadsBetween min max (scriptText x) ↔ min.place ≤ x.place ∧ x.place ≤ max.place := by
  have hminnan := isNaN_of_isFinite hmin
  have hmaxnan := isNaN_of_isFinite hmax
  rcases hx with hx | rfl
  · obtain ⟨y, hread, hnan, hplace⟩ := exists_read hx
    rw [← hplace, place_le_place, place_le_place, ← le_iff hminnan hnan, ← le_iff hnan hmaxnan]
    constructor
    · rintro ⟨z, hz, hbetween⟩
      obtain rfl : z = y := Option.some.inj (hz.symm.trans hread)
      exact hbetween
    · intro hbetween
      exact ⟨y, hread, hbetween⟩
  · have hnone : ofText? (scriptText infinity) = none :=
      ofText?_scriptText_of_not_isFinite (by decide)
    have hlt := place_lt_infinity hmax
    constructor
    · rintro ⟨z, hz, -⟩
      rw [hnone] at hz
      cases hz
    · rintro ⟨-, hhigh⟩
      omega

/-- **Texts lie between the ends** exactly if the last one does. -/
theorem readsBetween_texts_iff (hmin : min.isFinite = true) (hmax : max.isFinite = true)
    (hstep : IsSum step) (hpos : 0 < step.place) (n : Nat) :
    (∀ t ∈ (List.range (n + 1)).map fun i => scriptText (nth min step i), ReadsBetween min max t) ↔
      le (nth min step n) max = true := by
  have hsum := isSum_nth (Or.inl hmin) hstep hpos
  rw [le_iff (hsum n).isNaN (isNaN_of_isFinite hmax), ← place_le_place]
  constructor
  · intro hall
    have hlast := hall _ (List.mem_map.2 ⟨n, List.mem_range.2 (Nat.lt_succ_self n), rfl⟩)
    exact ((readsBetween_iff hmin hmax (hsum n)).1 hlast).2
  · intro hlast t ht
    obtain ⟨i, hi, rfl⟩ := List.mem_map.1 ht
    rw [List.mem_range] at hi
    have hfirst := place_nth_mono (Or.inl hmin) hstep hpos (Nat.zero_le i)
    have hle := place_nth_mono (Or.inl hmin) hstep hpos (show i ≤ n by omega)
    exact (readsBetween_iff hmin hmax (hsum i)).2 ⟨hfirst, hle.trans hlast⟩

/-! ### Accepted ranges -/

/-- the ends and the step of a range whose numbers are listed -/
theorem numbers_eq_ok {xs : List Binary64} (h : numbers min max step = .ok xs) :
    min.isFinite = true ∧ max.isFinite = true ∧ IsSum step ∧ 0 < step.place ∧
      ∃ n, stepCount? min max step = some n ∧ n < maxCount ∧ xs = steps step (n + 1) min := by
  unfold numbers at h
  split at h
  · cases h
  · rename_i hstep
    split at h
    · cases h
    · cases hcount : stepCount? min max step with
      | none =>
        rw [hcount] at h
        cases h
      | some n =>
        rw [hcount] at h
        dsimp only at h
        split at h
        · cases h
        · cases h
          have hquotient : ((max.sub min).div step).isFinite = true := by
            unfold stepCount? at hcount
            dsimp only at hcount
            split at hcount
            · assumption
            · cases hcount
          obtain ⟨hsub, hnan⟩ := isFinite_of_div hquotient
          obtain ⟨hmax, hmin⟩ := isFinite_of_add hsub
          rw [neg_isFinite] at hmin
          have hpos : 0 < step.place := by
            rw [le_iff hnan (by decide), ← place_le_place, not_le] at hstep
            exact hstep
          exact ⟨hmin, hmax, isSum_of_place_pos hnan hpos, hpos, n, rfl, by omega, rfl⟩

end Steps

end NumberRange

/-! ### Fields of type number -/

namespace Field

open Binary64 Number NumberRange

theorem optionSource_of_number {f : Field} (htype : f.type = .number) (d : Dialect) :
    f.optionSource d =
      match NumberRange.texts (f.double? "min") (f.double? "max") (f.double? "step") with
      | .ok ts => .ok (.values ts)
      | .error fault => .error ⟨f.name, .invalidNumberRange fault⟩ := by
  unfold optionSource sourceCause rangeSource
  rw [htype]
  dsimp only
  cases NumberRange.texts (f.double? "min") (f.double? "max") (f.double? "step") with
  | ok ts => rfl
  | error fault => rfl

theorem exists_numbers {f : Field} {d : Dialect} {ts : List String} (htype : f.type = .number)
    (h : f.optionSource d = .ok (.values ts)) :
    ∃ min max step xs, f.double? "min" = some min ∧ f.double? "max" = some max ∧
      f.double? "step" = some step ∧ numbers min max step = .ok xs ∧ ts = xs.map scriptText := by
  rw [optionSource_of_number htype] at h
  cases hmin : f.double? "min" with
  | none => simp [hmin, texts] at h
  | some min =>
    cases hmax : f.double? "max" with
    | none => simp [hmin, hmax, texts] at h
    | some max =>
      cases hstep : f.double? "step" with
      | none => simp [hmin, hmax, hstep, texts] at h
      | some step =>
        rw [hmin, hmax, hstep, texts] at h
        cases hnumbers : numbers min max step with
        | error fault => simp [hnumbers, Except.map] at h
        | ok xs =>
          simp only [hnumbers, Except.map, Except.ok.injEq, OptionSource.values.injEq] at h
          exact ⟨min, max, step, xs, rfl, rfl, rfl, hnumbers, h.symm⟩

/-- **The numbers that a field lists** start at the least one and go up in rounded sums, as many as the
rounded quotient has room for and no more than ten thousand.  They never go down; they differ exactly
if the last differs from the one before it, and lie between the ends exactly if the last does. -/
theorem number_options {f : Field} {d : Dialect} {ts : List String} (htype : f.type = .number)
    (h : f.optionSource d = .ok (.values ts)) :
    ∃ min max step n, f.double? "min" = some min ∧ f.double? "max" = some max ∧
      f.double? "step" = some step ∧ stepCount? min max step = some n ∧
      ts = (List.range (n + 1)).map (fun i => scriptText (nth min step i)) ∧
      ts.head? = some (scriptText min) ∧ 1 ≤ ts.length ∧ ts.length ≤ 10000 ∧
      (∀ i j, i ≤ j → le (nth min step i) (nth min step j) = true) ∧
      (ts.Nodup ↔ ∀ i, i + 1 = n → nth min step i ≠ nth min step n) ∧
      ((∀ t ∈ ts, ReadsBetween min max t) ↔ le (nth min step n) max = true) := by
  obtain ⟨min, max, step, xs, hfmin, hfmax, hfstep, hnumbers, rfl⟩ := exists_numbers htype h
  obtain ⟨hmin, hmax, hstep, hpos, n, hcount, hn, rfl⟩ := numbers_eq_ok hnumbers
  have hsum : IsSum min := Or.inl hmin
  rw [map_scriptText_steps]
  refine ⟨min, max, step, n, hfmin, hfmax, hfstep, hcount, rfl, ?_, ?_, ?_, fun i j hij => ?_,
    nodup_texts_iff hsum hstep hpos n, readsBetween_texts_iff hmin hmax hstep hpos n⟩
  · rw [List.range_succ_eq_map, List.map_cons, List.head?_cons, nth_zero]
  · rw [List.length_map, List.length_range]
    omega
  · rw [List.length_map, List.length_range]
    exact hn
  · rw [le_iff (isSum_nth hsum hstep hpos i).isNaN (isSum_nth hsum hstep hpos j).isNaN,
      ← place_le_place]
    exact place_nth_mono hsum hstep hpos hij

/-- a field of type number with these ends and this step -/
def ofRange (min max step : JsonNumber) : Field :=
  ⟨"n", .number, .object [("min", .number min), ("max", .number max), ("step", .number step)]⟩

/-- halves from one to two -/
theorem number_options_of_halves :
    let f := ofRange (.integer 1) (.integer 2) (.double (.ofBits 0x3fe0000000000000))
    let ts := ["1", "1.5", "2"]
    f.type = .number ∧ f.optionSource {} = .ok (.values ts) ∧
      ∃ min max, f.double? "min" = some min ∧ f.double? "max" = some max ∧ ts.Nodup ∧
        ∀ t ∈ ts, ReadsBetween min max t := by
  intro f ts
  have hsource : f.optionSource {} = .ok (.values ts) := by decide +kernel
  obtain ⟨min, max, step, n, hmin, hmax, hstep, hcount, -, -, -, -, -, hnodup, hbetween⟩ :=
    number_options rfl hsource
  have hmin' : f.double? "min" = some (.ofBits 0x3ff0000000000000) := by decide +kernel
  have hmax' : f.double? "max" = some (.ofBits 0x4000000000000000) := by decide +kernel
  have hstep' : f.double? "step" = some (.ofBits 0x3fe0000000000000) := by decide +kernel
  obtain rfl := Option.some.inj (hmin.symm.trans hmin')
  obtain rfl := Option.some.inj (hmax.symm.trans hmax')
  obtain rfl := Option.some.inj (hstep.symm.trans hstep')
  obtain rfl : 2 = n := Option.some.inj (Eq.trans (by decide +kernel) hcount)
  refine ⟨rfl, hsource, _, _, hmin, hmax, hnodup.2 ?_, hbetween.2 (by decide +kernel)⟩
  rintro i hi
  obtain rfl : i = 1 := by omega
  decide +kernel

/-- **Neither is so for every field.**  Ones from `2 ^ 53` to `2 ^ 53 + 2` are the first number three
times, and tenths from `0` to `1.5` end above `1.5`. -/
theorem number_options_repeat_and_exceed :
    (∃ ts, (ofRange (.integer 9007199254740992) (.integer 9007199254740994)
        (.integer 1)).optionSource {} = .ok (.values ts) ∧ ¬ts.Nodup) ∧
    ∃ ts, (ofRange (.integer 0) (.double (.ofBits 0x3ff8000000000000))
        (.double (.ofBits 0x3fb999999999999a))).optionSource {} = .ok (.values ts) ∧
      ∃ t ∈ ts, ∃ x, ofText? t = some x ∧ lt (.ofBits 0x3ff8000000000000) x = true := by
  constructor
  · exact ⟨["9007199254740992", "9007199254740992", "9007199254740992"], by decide +kernel,
      by decide⟩
  · refine ⟨["0", "0.1", "0.2", "0.30000000000000004", "0.4", "0.5", "0.6", "0.7",
      "0.7999999999999999", "0.8999999999999999", "0.9999999999999999", "1.0999999999999999", "1.2",
      "1.3", "1.4000000000000001", "1.5000000000000002"], by decide +kernel, ?_⟩
    exact ⟨"1.5000000000000002", by simp, .ofBits 0x3ff8000000000001, by decide +kernel,
      by decide +kernel⟩

end Field

end PageQuery
