import PageQuery.Proofs.Limits
import PageQuery.Proofs.ShortestForm
import PageQuery.Query.Chain

/-!
# The texts of numbers

Both texts of a number denote its shortest form (`IsShortest`) and are laid out without needless
characters: no zero before another digit, no point without a fraction, no fraction that ends in zero
(`IsTidy`).  Only the text in a script has an exponent, where the first digit stands below the sixth
place behind the point or above the twenty-first before it, and then with its sign: `texts_exact`.

What denotes the shortest form is read as the number, so the text in a script tells a finite number up
to the sign of zero: `scriptText_read_back`.
-/

namespace PageQuery.Number

open Binary64 Decimal Where PageQuery.Text

/-! ### Layout -/

/-- digits of a whole number: no zero stands before another digit -/
def IsWhole (cs : List Char) : Prop := isDigits cs = true ∧ (cs.head? = some '0' → cs = ['0'])

/-- **Tidy numerals**: a whole number, or one with a fraction that does not end in zero. -/
inductive IsTidy : List Char → Prop
  | whole {cs : List Char} : IsWhole cs → IsTidy cs
  | pointed {whole fraction : List Char} : IsWhole whole → isDigits fraction = true →
    fraction.getLast? ≠ some '0' → IsTidy (whole ++ '.' :: fraction)

/-- a tidy numeral, behind a minus sign or not -/
def IsPlain (s : String) : Prop := ∃ negative cs, IsTidy cs ∧ s = signed negative cs

/-- a tidy numeral with an exponent, a sign in front of it -/
def IsScientific (s : String) : Prop :=
  ∃ negative cs sign digits, IsTidy cs ∧ (sign = '+' ∨ sign = '-') ∧ IsWhole digits ∧
    s = signed negative (cs ++ 'e' :: sign :: digits)

/-- the characters of texts of finite numbers -/
def isNumberChar (c : Char) : Bool := c.isDigit || ['.', '-', '+', 'e'].contains c

theorem isNumberChar_of_isDigits {cs : List Char} (h : isDigits cs = true) :
    ∀ c ∈ cs, isNumberChar c = true ∧ c ≠ 'e' := by
  intro c hc
  have hdigit := (isDigits_iff.1 h).2 c hc
  refine ⟨by simp [isNumberChar, hdigit], ?_⟩
  rintro rfl
  cases hdigit

theorem IsTidy.isNumberChar {cs : List Char} (h : IsTidy cs) :
    ∀ c ∈ cs, isNumberChar c = true ∧ c ≠ 'e' := by
  cases h with
  | whole hw => exact isNumberChar_of_isDigits hw.1
  | pointed hw hf _ =>
    intro c hc
    simp only [List.mem_append, List.mem_cons] at hc
    rcases hc with hc | rfl | hc
    · exact isNumberChar_of_isDigits hw.1 c hc
    · decide
    · exact isNumberChar_of_isDigits hf c hc

theorem IsTidy.head {cs : List Char} (h : IsTidy cs) : ∃ c ds, cs = c :: ds ∧ c.isDigit = true := by
  have hdigits : ∀ {ds : List Char}, isDigits ds = true → ∃ c es, ds = c :: es ∧ c.isDigit = true := by
    intro ds hds
    obtain ⟨hne, hall⟩ := isDigits_iff.1 hds
    obtain ⟨c, es, rfl⟩ := List.exists_cons_of_ne_nil hne
    exact ⟨c, es, rfl, hall c List.mem_cons_self⟩
  cases h with
  | whole hw => exact hdigits hw.1
  | pointed hw _ _ =>
    obtain ⟨c, es, rfl, hc⟩ := hdigits hw.1
    exact ⟨c, _, List.cons_append, hc⟩

theorem mem_signed {negative : Bool} {cs : List Char} {c : Char}
    (h : c ∈ (signed negative cs).toList) : c = '-' ∨ c ∈ cs := by
  unfold signed at h
  rw [String.toList_ofList] at h
  cases negative with
  | true => simpa using h
  | false => exact Or.inr (by simpa using h)

theorem mem_signed_of_mem {negative : Bool} {cs : List Char} {c : Char} (h : c ∈ cs) :
    c ∈ (signed negative cs).toList := by
  unfold signed
  rw [String.toList_ofList]
  cases negative with
  | true => exact List.mem_cons_of_mem _ h
  | false => exact h

theorem IsPlain.isNumberChar {s : String} (h : IsPlain s) :
    ∀ c ∈ s.toList, isNumberChar c = true ∧ c ≠ 'e' := by
  obtain ⟨negative, cs, htidy, rfl⟩ := h
  intro c hc
  rcases mem_signed hc with rfl | hc
  · decide
  · exact htidy.isNumberChar c hc

theorem IsScientific.isNumberChar {s : String} (h : IsScientific s) :
    ∀ c ∈ s.toList, isNumberChar c = true := by
  obtain ⟨negative, cs, sign, digits, htidy, hsign, hdigits, rfl⟩ := h
  intro c hc
  rcases mem_signed hc with rfl | hc
  · decide
  · simp only [List.mem_append, List.mem_cons] at hc
    rcases hc with hc | rfl | rfl | hc
    · exact (htidy.isNumberChar c hc).1
    · decide
    · rcases hsign with rfl | rfl
      · decide
      · decide
    · exact (isNumberChar_of_isDigits hdigits.1 c hc).1

/-- only texts with an exponent have its letter -/
theorem not_mem_of_isPlain {s : String} (h : IsPlain s) : 'e' ∉ s.toList := by
  intro he
  exact (h.isNumberChar 'e' he).2 rfl

theorem mem_of_isScientific {s : String} (h : IsScientific s) : 'e' ∈ s.toList := by
  obtain ⟨negative, cs, sign, digits, -, -, -, rfl⟩ := h
  exact mem_signed_of_mem (by simp)

/-! ### Digits -/

theorem digitChar_ne_zero : ∀ d < 10, d ≠ 0 → Nat.digitChar d ≠ '0' := by decide

theorem head_digitChars {n : Nat} (hn : 0 < n) : (digitChars n).head? ≠ some '0' := by
  induction n using Nat.strongRecOn with
  | ind n ih =>
    unfold digitChars
    rw [Nat.toDigits_eq_if (by decide)]
    split
    · rename_i hlt
      rw [List.head?_cons, Ne, Option.some.injEq]
      exact digitChar_ne_zero n hlt (by omega)
    · rename_i hge
      rw [List.head?_append_of_ne_nil _ Nat.toDigits_ne_nil]
      exact ih (n / 10) (by omega) (by omega)

theorem getLast_digitChars {n : Nat} (hn : n % 10 ≠ 0) : (digitChars n).getLast? ≠ some '0' := by
  unfold digitChars
  rw [Nat.toDigits_eq_if (by decide)]
  split
  · rename_i hlt
    rw [List.getLast?_singleton, Ne, Option.some.injEq]
    exact digitChar_ne_zero n hlt (by omega)
  · rw [List.getLast?_append, List.getLast?_singleton, Option.some_or, Ne, Option.some.injEq]
    exact digitChar_ne_zero (n % 10) (Nat.mod_lt _ (by decide)) hn

theorem isWhole_of_head {cs : List Char} (h : isDigits cs = true) (hhead : cs.head? ≠ some '0') :
    IsWhole cs :=
  ⟨h, fun hzero => absurd hzero hhead⟩

theorem isWhole_singleton {c : Char} (hc : c.isDigit = true) : IsWhole [c] := by
  refine ⟨isDigits_iff.2 ⟨by simp, by simpa using hc⟩, fun hzero => ?_⟩
  rw [List.head?_cons, Option.some.injEq] at hzero
  rw [hzero]

theorem isWhole_digitChars (n : Nat) : IsWhole (digitChars n) := by
  rcases Nat.eq_zero_or_pos n with rfl | hn
  · exact ⟨isDigits_digitChars 0, fun _ => rfl⟩
  · exact isWhole_of_head (isDigits_digitChars n) (head_digitChars hn)

/-! ### Digits with a point -/

section Layouts

variable {digits : List Char} {point : Int}

theorem isTidy_positional (h : isDigits digits = true) (hhead : digits.head? ≠ some '0')
    (hlast : digits.getLast? ≠ some '0') (point : Int) : IsTidy (positional digits point) := by
  obtain ⟨hne, hdigit⟩ := isDigits_iff.1 h
  unfold positional
  split
  · -- zeros fill the places up to the point
    apply IsTidy.whole
    apply isWhole_of_head
    · refine isDigits_iff.2 ⟨by simp [hne], fun c hc => ?_⟩
      exact (List.mem_append.1 hc).elim (hdigit c) (isDigit_of_mem_zeros c)
    · rwa [List.head?_append_of_ne_nil _ hne]
  · split
    · -- the point stands among the digits
      rename_i hlen hpoint
      apply IsTidy.pointed
      · apply isWhole_of_head
        · refine isDigits_iff.2 ⟨?_, fun c hc => hdigit c (List.mem_of_mem_take hc)⟩
          rw [← List.length_pos_iff, List.length_take]
          have := List.length_pos_iff.2 hne
          omega
        · rw [List.head?_take, if_neg (by omega)]
          exact hhead
      · refine isDigits_iff.2 ⟨?_, fun c hc => hdigit c (List.mem_of_mem_drop hc)⟩
        rw [← List.length_pos_iff, List.length_drop]
        omega
      · rw [List.getLast?_drop, if_neg (by omega)]
        exact hlast
    · -- zeros fill the places behind the point
      have hzero : IsWhole ['0'] := ⟨by decide, fun _ => rfl⟩
      refine IsTidy.pointed hzero (isDigits_iff.2 ⟨by simp [hne], fun c hc => ?_⟩) ?_
      · exact (List.mem_append.1 hc).elim (isDigit_of_mem_zeros c) (hdigit c)
      · show (zeros (-point).toNat ++ digits).getLast? ≠ some '0'
        rwa [List.getLast?_append_of_ne_nil _ hne]

/-- a sign as the text of a number writes it -/
theorem isSign_signed (negative : Bool) (cs : List Char) :
    ∃ sign, IsSign sign negative ∧ (signed negative cs).toList = sign ++ cs := by
  unfold signed
  rw [String.toList_ofList]
  cases negative with
  | true => exact ⟨['-'], .minus, rfl⟩
  | false => exact ⟨[], .none, rfl⟩

theorem denotes_positional (h : isDigits digits = true) (point : Int) (negative : Bool) :
    Denotes (signed negative (positional digits point)).toList negative
      (⟨digitsValue 10 digits, point - digits.length⟩ : Decimal).value := by
  obtain ⟨n, hn, hnegative, hvalue⟩ := exists_numeral_positional h point negative
  have hdenotes := denotes_of_decimalNumeral? hn
  rwa [hnegative, hvalue] at hdenotes

/-! ### Digits with an exponent -/

/-- the first digit, and the others behind a point -/
def mantissa : List Char → List Char
  | first :: second :: rest => first :: '.' :: second :: rest
  | digits => digits

/-- the sign of an exponent and its digits -/
def exponentChars (e : Int) : List Char :=
  (if e < 0 then '-' else '+') :: digitChars e.natAbs

theorem scientific_eq (digits : List Char) (point : Int) :
    scientific digits point ['+'] = mantissa digits ++ 'e' :: exponentChars (point - 1) := by
  have hsign : (if point - 1 < 0 then ['-'] else ['+']) = [if point - 1 < 0 then '-' else '+'] := by
    split
    · rfl
    · rfl
  unfold scientific exponentChars
  dsimp only
  rw [hsign, List.append_assoc]
  match digits with
  | [] => rfl
  | [_] => rfl
  | _ :: _ :: _ => rfl

theorem isTidy_mantissa (h : isDigits digits = true) (hlast : digits.getLast? ≠ some '0') :
    IsTidy (mantissa digits) := by
  obtain ⟨hne, hdigit⟩ := isDigits_iff.1 h
  match digits with
  | [] => exact absurd rfl hne
  | [first] => exact .whole (isWhole_singleton (hdigit first (List.mem_cons_self ..)))
  | first :: second :: rest =>
    have hfirst := isWhole_singleton (hdigit first (List.mem_cons_self ..))
    rw [List.getLast?_cons_cons] at hlast
    refine IsTidy.pointed hfirst (isDigits_iff.2 ⟨by simp, fun c hc => ?_⟩) hlast
    exact hdigit c (List.mem_cons_of_mem _ hc)

theorem isMantissa_mantissa (h : isDigits digits = true) :
    IsMantissa (mantissa digits) (digitsValue 10 digits / 10 ^ (digits.length - 1)) := by
  obtain ⟨hne, hdigit⟩ := isDigits_iff.1 h
  have hwrites : Writes 10 digits (digitsValue 10 digits) := writes_ten_iff.2 ⟨hne, hdigit, rfl⟩
  match digits with
  | [] => exact absurd rfl hne
  | [first] =>
    have hwhole := IsMantissa.whole hwrites
    rw [← div_one ((digitsValue 10 [first] : ℕ) : ℚ)] at hwhole
    exact hwhole
  | first :: second :: rest => exact @IsMantissa.pointed [first] (second :: rest) _ hwrites

theorem isExponent_exponentChars (e : Int) : IsExponent ('e' :: exponentChars e) e := by
  have hwrites : Writes 10 (digitChars e.natAbs) e.natAbs := by
    obtain ⟨hne, hdigit⟩ := isDigits_iff.1 (isDigits_digitChars e.natAbs)
    exact writes_ten_iff.2 ⟨hne, hdigit, digitsValue_digitChars _⟩
  unfold exponentChars
  by_cases hneg : e < 0
  · have h := IsExponent.written (Or.inl rfl) .minus hwrites
    have he : -(e.natAbs : Int) = e := by omega
    rw [if_pos rfl, he] at h
    rw [if_pos hneg]
    exact h
  · have h := IsExponent.written (Or.inl rfl) .plus hwrites
    have he : (e.natAbs : Int) = e := by omega
    rw [if_neg Bool.false_ne_true, he] at h
    rw [if_neg hneg]
    exact h

theorem isScientific_scientific (h : isDigits digits = true)
    (hlast : digits.getLast? ≠ some '0') (point : Int) (negative : Bool) :
    IsScientific (signed negative (scientific digits point ['+'])) := by
  rw [scientific_eq]
  refine ⟨negative, mantissa digits, _, _, isTidy_mantissa h hlast, ?_, isWhole_digitChars _, rfl⟩
  split
  · exact Or.inr rfl
  · exact Or.inl rfl

theorem denotes_scientific (h : isDigits digits = true) (point : Int) (negative : Bool) :
    Denotes (signed negative (scientific digits point ['+'])).toList negative
      (⟨digitsValue 10 digits, point - digits.length⟩ : Decimal).value := by
  obtain ⟨sign, hsign, heq⟩ := isSign_signed negative (scientific digits point ['+'])
  have hlength : 0 < digits.length := List.length_pos_iff.2 (isDigits_iff.1 h).1
  have hexponent : point - 1 - ((digits.length - 1 : ℕ) : Int) = point - digits.length := by omega
  have hdenotes := Denotes.decimal hsign (isMantissa_mantissa h) (isExponent_exponentChars (point - 1))
  rw [div_pow_mul_zpow, hexponent] at hdenotes
  rw [heq, scientific_eq]
  exact hdenotes

end Layouts

/-! ### Texts of numbers -/

section Texts

variable {x y : Binary64} {d : Decimal}

theorem scriptText_of_isNaN (h : x.isNaN = true) : scriptText x = "NaN" := by
  simp [scriptText, h]

theorem scriptText_of_isInfinite (h : x.isInfinite = true) :
    scriptText x = signed x.negative "Infinity".toList := by
  have hnan : x.isNaN = false := by simp [Binary64.isNaN, eq_of_beq h]
  simp [scriptText, h, hnan]

theorem scriptText_of_isZero (h : x.isZero = true) : scriptText x = "0" := by
  rw [← queryText_of_isZero h, queryText, h, Bool.or_true, if_pos rfl]

theorem queryText_of_isShortest (hx : x.isFinite = true) (hzero : x.isZero = false)
    (hd : IsShortest x d) :
    queryText x = signed x.negative (positional (digitChars d.digits) (d.leading + 1)) := by
  have hpoint : d.leading + 1 = d.exponent + (digitChars d.digits).length :=
    Int.sub_add_cancel _ 1
  obtain rfl := (isShortest_iff hx hzero).1 hd
  rw [queryText_of_isFinite hx hzero, hpoint]
  rfl

theorem scriptText_of_isShortest (hx : x.isFinite = true) (hzero : x.isZero = false)
    (hd : IsShortest x d) :
    scriptText x = signed x.negative
      (if d.leading ≤ -7 ∨ 21 ≤ d.leading then
        scientific (digitChars d.digits) (d.leading + 1) ['+']
      else positional (digitChars d.digits) (d.leading + 1)) := by
  have hpoint : d.leading + 1 = d.exponent + (digitChars d.digits).length :=
    Int.sub_add_cancel _ 1
  obtain rfl := (isShortest_iff hx hzero).1 hd
  have hnan : x.isNaN = false := by
    have := isFinite_iff.1 hx
    simp only [isNaN, decide_eq_false_iff_not]
    omega
  have hinfinite : x.isInfinite = false := by
    have := isFinite_iff.1 hx
    simp only [isInfinite, beq_eq_false_iff_ne]
    omega
  unfold scriptText shortestDigits
  rw [if_neg (by simp [hnan]), if_neg (by simp [hinfinite]), if_neg (by simp [hzero])]
  dsimp only
  rw [← hpoint]
  congr 1
  generalize (shortest .upper x.rank).leading = e
  split
  · rw [if_neg (by simp at *; omega)]
  · rw [if_pos (by simp at *; omega)]

theorem isShortest_digits (hd : IsShortest x d) :
    isDigits (digitChars d.digits) = true ∧ (digitChars d.digits).head? ≠ some '0' ∧
      (digitChars d.digits).getLast? ≠ some '0' := by
  have hlast := hd.lastDigit
  exact ⟨isDigits_digitChars _, head_digitChars (by omega), getLast_digitChars hlast⟩

/-- the digits of a decimal with the point behind the first, moved by the power of ten of the first -/
theorem value_of_leading (d : Decimal) :
    (⟨digitsValue 10 (digitChars d.digits), d.leading + 1 - (digitChars d.digits).length⟩ :
      Decimal) = d := by
  have hpoint : d.leading + 1 = d.exponent + (digitChars d.digits).length :=
    Int.sub_add_cancel _ 1
  rw [hpoint, Int.add_sub_cancel, digitsValue_digitChars]

theorem denotes_scriptText (hx : x.isFinite = true) (hzero : x.isZero = false)
    (hd : IsShortest x d) : Denotes (scriptText x).toList x.negative d.value := by
  obtain ⟨hdigits, -, -⟩ := isShortest_digits hd
  have hpositional := denotes_positional hdigits (d.leading + 1) x.negative
  have hscientific := denotes_scientific hdigits (d.leading + 1) x.negative
  rw [value_of_leading] at hpositional hscientific
  rw [scriptText_of_isShortest hx hzero hd]
  split
  · exact hscientific
  · exact hpositional

theorem layout_scriptText (hx : x.isFinite = true) (hzero : x.isZero = false)
    (hd : IsShortest x d) :
    (d.leading ≤ -7 ∨ 21 ≤ d.leading) ∧ IsScientific (scriptText x) ∨
      ¬(d.leading ≤ -7 ∨ 21 ≤ d.leading) ∧ IsPlain (scriptText x) := by
  obtain ⟨hdigits, hhead, hlast⟩ := isShortest_digits hd
  rw [scriptText_of_isShortest hx hzero hd]
  split
  · exact Or.inl ⟨‹_›, isScientific_scientific hdigits hlast _ _⟩
  · exact Or.inr ⟨‹_›, _, _, isTidy_positional hdigits hhead hlast _, rfl⟩

/-- **Texts of numbers.**  The texts of zero are `0`.  Those of any other finite number denote its
shortest form and are tidy; only the one in a script may have an exponent, and then with a sign. -/
theorem texts_exact (hx : x.isFinite = true) :
    (x.isZero = true → scriptText x = "0" ∧ queryText x = "0") ∧
    (x.isZero = false → (∃ d, IsShortest x d) ∧ ∀ d, IsShortest x d →
      Denotes (queryText x).toList x.negative d.value ∧ IsPlain (queryText x) ∧
      'e' ∉ (queryText x).toList ∧
      Denotes (scriptText x).toList x.negative d.value ∧
      (IsPlain (scriptText x) ∨ IsScientific (scriptText x)) ∧
      ('e' ∈ (scriptText x).toList ↔ d.leading ≤ -7 ∨ 21 ≤ d.leading)) := by
  refine ⟨fun hzero => ⟨scriptText_of_isZero hzero, queryText_of_isZero hzero⟩, fun hzero => ?_⟩
  refine ⟨⟨_, (isShortest_iff hx hzero).2 rfl⟩, fun d hd => ?_⟩
  obtain ⟨hdigits, hhead, hlast⟩ := isShortest_digits hd
  have hdenotes := denotes_positional hdigits (d.leading + 1) x.negative
  have hplain : IsPlain (signed x.negative (positional (digitChars d.digits) (d.leading + 1))) :=
    ⟨_, _, isTidy_positional hdigits hhead hlast _, rfl⟩
  rw [value_of_leading] at hdenotes
  rw [queryText_of_isShortest hx hzero hd]
  refine ⟨hdenotes, hplain, not_mem_of_isPlain hplain, denotes_scriptText hx hzero hd, ?_⟩
  rcases layout_scriptText hx hzero hd with ⟨hleading, h⟩ | ⟨hleading, h⟩
  · exact ⟨Or.inr h, iff_of_true (mem_of_isScientific h) hleading⟩
  · exact ⟨Or.inl h, iff_of_false (not_mem_of_isPlain h) hleading⟩

/-- a number with its first digit in the seventh place behind the point -/
theorem texts_of_seventh_place :
    let x : Binary64 := .ofBits 0xbe8421f5f40d8376
    let d : Decimal := ⟨15, -8⟩
    x.isFinite = true ∧ x.isZero = false ∧ IsShortest x d ∧
      Denotes "-0.00000015".toList true d.value ∧ IsPlain "-0.00000015" ∧
      Denotes "-1.5e-7".toList true d.value ∧ 'e' ∈ (scriptText x).toList := by
  intro x d
  have hx : x.isFinite = true := by decide +kernel
  have hzero : x.isZero = false := by decide +kernel
  have hd : IsShortest x d := (isShortest_iff hx hzero).2 (by decide +kernel)
  have hquery : queryText x = "-0.00000015" := by decide +kernel
  have hscript : scriptText x = "-1.5e-7" := by decide +kernel
  obtain ⟨-, hall⟩ := (texts_exact hx).2 hzero
  obtain ⟨hdenotes, hplain, -, hdenotes', -, hexponent⟩ := hall d hd
  rw [hquery] at hdenotes hplain
  rw [hscript] at hdenotes'
  exact ⟨hx, hzero, hd, hdenotes, hplain, hdenotes', hexponent.2 (Or.inl (by decide))⟩

end Texts

/-! ### Texts read back -/

section ReadBack

variable {x y : Binary64}

theorem forall_of_isNumberChar {P : Char → Prop} (h : ∀ n < 128, isNumberChar (Char.ofNat n) = true →
    P (Char.ofNat n)) {c : Char} (hc : isNumberChar c = true) : P c := by
  have hascii : c.toNat < 128 := by
    simp only [isNumberChar, Bool.or_eq_true, List.contains_iff_mem, List.mem_cons,
      List.not_mem_nil, or_false] at hc
    rcases hc with hc | rfl | rfl | rfl | rfl
    · exact lt_128_of_isDigit hc
    · decide
    · decide
    · decide
    · decide
  exact @forall_ascii (fun c => isNumberChar c = true → P c) h c hascii hc

theorem dropWhile_isBlank {cs : List Char} (h : ∀ c ∈ cs, isBlank c = false) :
    cs.dropWhile isBlank = cs := by
  cases cs with
  | nil => rfl
  | cons c cs => exact List.dropWhile_cons_of_neg (by simp [h c (List.mem_cons_self ..)])

/-- nothing is cut off from the text of a number -/
theorem trimBlanks_of_isNumberChar {cs : List Char} (h : ∀ c ∈ cs, isNumberChar c = true) :
    trimBlanks cs = cs := by
  have hblank : ∀ c ∈ cs, isBlank c = false :=
    fun c hc => forall_of_isNumberChar (P := fun c => isBlank c = false) (by decide) (h c hc)
  have hreverse : ∀ c ∈ cs.reverse, isBlank c = false :=
    fun c hc => hblank c (List.mem_reverse.1 hc)
  unfold trimBlanks dropBlanksEnd
  rw [dropWhile_isBlank hblank, dropWhile_isBlank hreverse, List.reverse_reverse]

/-- the letter of a radix is in no text of a number -/
theorem not_hasRadix_of_isNumberChar {cs : List Char} (h : ∀ c ∈ cs, isNumberChar c = true) :
    ¬ HasRadix cs := by
  rintro ⟨letter, radix, rest, hletter, rfl⟩
  have hmem := h letter (by simp)
  rcases hletter with ⟨rfl | rfl, -⟩ | ⟨rfl | rfl, -⟩ | ⟨rfl | rfl, -⟩ <;> cases hmem

theorem isNumberChar_scriptText (hx : x.isFinite = true) :
    ∀ c ∈ (scriptText x).toList, isNumberChar c = true := by
  cases hzero : x.isZero with
  | true =>
    rw [scriptText_of_isZero hzero]
    show ∀ c ∈ ['0'], isNumberChar c = true
    exact List.forall_mem_singleton.2 rfl
  | false =>
    rcases layout_scriptText hx hzero ((isShortest_iff hx hzero).2 rfl) with ⟨-, h⟩ | ⟨-, h⟩
    · exact h.isNumberChar
    · exact fun c hc => (h.isNumberChar c hc).1

/-- the text of a finite number begins with a digit or a minus -/
theorem head_scriptText (hx : x.isFinite = true) :
    ∃ c cs, (scriptText x).toList = c :: cs ∧ (c.isDigit = true ∨ c = '-') := by
  have hsigned : ∀ {negative : Bool} {ds : List Char}, (∃ c es, ds = c :: es ∧ c.isDigit = true) →
      ∃ c cs, (signed negative ds).toList = c :: cs ∧ (c.isDigit = true ∨ c = '-') := by
    rintro negative _ ⟨c, es, rfl, hc⟩
    rw [signed, String.toList_ofList]
    cases negative with
    | true => exact ⟨'-', _, rfl, .inr rfl⟩
    | false => exact ⟨c, es, rfl, .inl hc⟩
  cases hzero : x.isZero with
  | true =>
    rw [scriptText_of_isZero hzero]
    exact ⟨'0', [], rfl, .inl rfl⟩
  | false =>
    rcases layout_scriptText hx hzero ((isShortest_iff hx hzero).2 rfl) with ⟨-, h⟩ | ⟨-, h⟩
    · obtain ⟨negative, cs, sign, digits, htidy, -, -, htext⟩ := h
      obtain ⟨c, es, rfl, hc⟩ := htidy.head
      exact htext ▸ hsigned ⟨c, _, List.cons_append, hc⟩
    · obtain ⟨negative, cs, htidy, htext⟩ := h
      exact htext ▸ hsigned htidy.head

/-- the text of a finite number is read as the number, that of both zeros as zero -/
theorem ofText?_scriptText (hx : x.isFinite = true) :
    ofText? (scriptText x) = some (if x.isZero then .zero else x) := by
  cases hzero : x.isZero with
  | true =>
    rw [scriptText_of_isZero hzero, if_pos rfl]
    decide
  | false =>
    have hd : IsShortest x _ := (isShortest_iff hx hzero).2 rfl
    have hchars := isNumberChar_scriptText hx
    have htrim := trimBlanks_of_isNumberChar hchars
    have hradix : ¬ HasRadix (trimBlanks (scriptText x).toList) := by
      rw [htrim]
      exact not_hasRadix_of_isNumberChar hchars
    rw [if_neg Bool.false_ne_true, ofText?_decimal_iff hradix, htrim]
    exact ⟨_, _, denotes_scriptText hx hzero hd, rfl, hd.rounds⟩

/-- no other text of a number is read -/
theorem ofText?_scriptText_of_not_isFinite (hx : x.isFinite = false) :
    ofText? (scriptText x) = none := by
  have hrank : infinityRank ≤ x.rank := by simpa [isFinite] using hx
  rcases Nat.eq_or_lt_of_le hrank with heq | hlt
  · rw [scriptText_of_isInfinite (by simp [isInfinite, heq])]
    cases x.negative with
    | true => decide
    | false => decide
  · rw [scriptText_of_isNaN (by simpa [isNaN] using hlt)]
    decide

/-- the text tells a finite number, up to the sign of zero -/
theorem eq_of_scriptText_eq (hx : x.isFinite = true) (hy : y.isFinite = true)
    (h : scriptText x = scriptText y) : x = y ∨ x.isZero = true ∧ y.isZero = true := by
  have hread := ofText?_scriptText hx
  rw [h, ofText?_scriptText hy, Option.some.injEq] at hread
  have hzero : isZero .zero = true := rfl
  split at hread
  · split at hread
    · exact Or.inr ⟨‹_›, ‹_›⟩
    · rename_i hne
      rw [← hread] at hne
      exact absurd hzero hne
  · split at hread
    · rename_i hne _
      rw [hread] at hne
      exact absurd hzero hne
    · exact Or.inl hread.symm

theorem wholePart_of_isZero (h : x.isZero = true) : x.wholePart = 0 := by
  have hrank : x.rank = 0 := eq_of_beq h
  unfold wholePart units
  rw [hrank, unitsOfRank_zero, Nat.zero_div]

theorem zero_le_of_isZero (h : x.isZero = true) : Binary64.le .zero x = true := by
  have hrank : x.rank = 0 := eq_of_beq h
  obtain ⟨negative, r⟩ := x
  obtain rfl : r = 0 := hrank
  cases negative <;> decide

/-- the limit that the text of a finite number asks for is the one of the number -/
theorem limitOfText?_scriptText (hx : x.isFinite = true) :
    limitOfText? (scriptText x) =
      if Binary64.le .zero x then some (min x.wholePart maxLimit) else none := by
  rw [limitOfText?, ofText?_scriptText hx, Option.bind_some]
  cases hzero : x.isZero with
  | true =>
    have hzero' : isZero .zero = true := rfl
    rw [if_pos rfl, if_pos (zero_le_of_isZero hzero), if_pos (zero_le_of_isZero hzero'),
      wholePart_of_isZero hzero, wholePart_of_isZero hzero']
  | false => rfl

/-- **Texts of numbers are read back.**  The text of a finite number is read as the number, of both
zeros as zero, and no other text of a number is read; so the text tells a finite number up to the sign
of zero, and an argument that is a number asks for the limit of that number. -/
theorem scriptText_read_back (x : Binary64) :
    (x.isFinite = true → ofText? (scriptText x) = some (if x.isZero then .zero else x)) ∧
    (x.isFinite = false → ofText? (scriptText x) = none) ∧
    (∀ y : Binary64, x.isFinite = true → y.isFinite = true → scriptText x = scriptText y →
      x = y ∨ x.isZero = true ∧ y.isZero = true) ∧
    ∀ (s : Script.Source) (a : Script.Argument Script.Expr), a.value.unparen = .number x →
      ∃ arg, Chain.argOf s a = .ok arg ∧ arg.text = scriptText x ∧
        limitOfText? arg.text =
          if x.isFinite ∧ Binary64.le .zero x then some (min x.wholePart maxLimit) else none := by
  refine ⟨ofText?_scriptText, ofText?_scriptText_of_not_isFinite,
    fun y hx hy h => eq_of_scriptText_eq hx hy h, fun s a ha => ?_⟩
  refine ⟨⟨scriptText x, some (.number x)⟩, ?_, rfl, ?_⟩
  · unfold Chain.argOf
    rw [ha]
  · dsimp only
    cases hx : x.isFinite with
    | true =>
      rw [limitOfText?_scriptText hx]
      simp
    | false =>
      rw [limitOfText?, ofText?_scriptText_of_not_isFinite hx]
      simp

/-- a number with an exponent, and one beyond the doubles -/
theorem read_back_of_ten_pow_21 :
    let x : Binary64 := .ofBits 0x444b1ae4d6e2ef50
    let a : Script.Argument Script.Expr := ⟨false, ⟨0, 4⟩, .paren (.number x)⟩
    ofText? "1e+21" = some x ∧ ofText? (scriptText .infinity) = none ∧
      (scriptText x = scriptText x.neg → x = x.neg ∨ x.isZero = true ∧ x.neg.isZero = true) ∧
      ∃ arg, Chain.argOf ⟨"", a.value, []⟩ a = .ok arg ∧ arg.text = "1e+21" ∧
        limitOfText? arg.text = some (2 ^ 64 - 1) := by
  intro x a
  have hx : x.isFinite = true := by decide +kernel
  have htext : scriptText x = "1e+21" := by decide +kernel
  obtain ⟨hread, -, hinjective, hlimit⟩ := scriptText_read_back x
  obtain ⟨arg, harg, htext', hlimit⟩ := hlimit ⟨"", a.value, []⟩ a rfl
  rw [htext] at hread htext'
  refine ⟨hread hx, (scriptText_read_back .infinity).2.1 (by decide), ?_, arg, harg, htext', ?_⟩
  · exact hinjective x.neg hx (by decide +kernel)
  · rw [hlimit]
    decide +kernel

end ReadBack

end PageQuery.Number
