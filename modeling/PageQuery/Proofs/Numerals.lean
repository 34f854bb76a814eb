import Mathlib.Data.List.Induction
import PageQuery.Proofs.Positional
import PageQuery.Proofs.Rounding

/-!
# Numerals as texts

What a text denotes, told from the text alone: digits by their places (`Writes`), a decimal by its
sign, its digits with a point anywhere among them and its exponent, a whole number in another radix
by its digits behind the letter (`Denotes`).

A text is read as the double nearest to the number that it denotes, but behind a letter only what
64 bits hold is read, there also after a plus sign: `ofText?_eq_some_iff`.
-/

namespace PageQuery.Number

open Binary64 PageQuery.Text

/-! ### What texts denote -/

def lowerDigits : List Char := "0123456789abcdef".toList

def upperDigits : List Char := "0123456789ABCDEF".toList

/-- the character is the digit of this value -/
def IsDigit (radix : Nat) (c : Char) (v : Nat) : Prop :=
  v < radix ∧ (lowerDigits[v]? = some c ∨ upperDigits[v]? = some c)

/-- one digit or more write the number: a digit more is a place more -/
inductive Writes (radix : Nat) : List Char → Nat → Prop
  | single {c : Char} {v : Nat} : IsDigit radix c v → Writes radix [c] v
  | snoc {cs : List Char} {n : Nat} {c : Char} {v : Nat} :
    Writes radix cs n → IsDigit radix c v → Writes radix (cs ++ [c]) (n * radix + v)

/-- a sign or none, and whether it is a minus -/
inductive IsSign : List Char → Bool → Prop
  | none : IsSign [] false
  | plus : IsSign ['+'] false
  | minus : IsSign ['-'] true

/-- digits with a point before, among or behind them, or without one -/
inductive IsMantissa : List Char → ℚ → Prop
  | whole {cs : List Char} {n : Nat} : Writes 10 cs n → IsMantissa cs n
  | pointed {whole fraction : List Char} {n : Nat} :
    Writes 10 (whole ++ fraction) n →
      IsMantissa (whole ++ '.' :: fraction) (n / 10 ^ fraction.length)

/-- a letter with digits behind it, which may have a sign; or nothing -/
inductive IsExponent : List Char → Int → Prop
  | none : IsExponent [] 0
  | written {letter : Char} {sign digits : List Char} {negative : Bool} {n : Nat} :
    letter = 'e' ∨ letter = 'E' → IsSign sign negative → Writes 10 digits n →
      IsExponent (letter :: (sign ++ digits)) (if negative then -n else n)

/-- the letter that opens the digits of a radix, behind a zero -/
def IsRadixLetter (letter : Char) (radix : Nat) : Prop :=
  (letter = 'x' ∨ letter = 'X') ∧ radix = 16 ∨ (letter = 'o' ∨ letter = 'O') ∧ radix = 8 ∨
    (letter = 'b' ∨ letter = 'B') ∧ radix = 2

/-- **What a text denotes**: a number, by its sign and its magnitude. -/
inductive Denotes : List Char → Bool → ℚ → Prop
  | decimal {sign mantissa exponent : List Char} {negative : Bool} {m : ℚ} {e : Int} :
    IsSign sign negative → IsMantissa mantissa m → IsExponent exponent e →
      Denotes (sign ++ (mantissa ++ exponent)) negative (m * 10 ^ e)
  | radix {letter : Char} {radix : Nat} {digits : List Char} {n : Nat} :
    IsRadixLetter letter radix → Writes radix digits n → Denotes ('0' :: letter :: digits) false n

/-- the text opens as one of a radix -/
def HasRadix (cs : List Char) : Prop :=
  ∃ letter radix rest, IsRadixLetter letter radix ∧ cs = '0' :: letter :: rest

/-! ### Digits -/

/-- what holds of the first 128 characters, told by going through them -/
theorem forall_ascii {P : Char → Prop} (h : ∀ n < 128, P (Char.ofNat n)) {c : Char}
    (hc : c.toNat < 128) : P c :=
  Char.ofNat_toNat c ▸ h c.toNat hc

theorem lt_128_of_between {a b c : Char} (hb : b.toNat < 128) (h : (a ≤ c && c ≤ b) = true) :
    c.toNat < 128 := by
  rw [Bool.and_eq_true, decide_eq_true_eq, decide_eq_true_eq] at h
  have hle : c.toNat ≤ b.toNat := UInt32.le_iff_toNat_le.1 h.2
  exact hle.trans_lt hb

theorem lt_128_of_isDigit {c : Char} (h : c.isDigit = true) : c.toNat < 128 :=
  lt_128_of_between (a := '0') (b := '9') (by decide) h

theorem lt_128_of_digitValue {c : Char} (h : digitValue c < 16) : c.toNat < 128 := by
  unfold digitValue at h
  split at h
  · exact lt_128_of_isDigit ‹_›
  · split at h
    · exact lt_128_of_between (b := 'f') (by decide) ‹_›
    · split at h
      · exact lt_128_of_between (b := 'F') (by decide) ‹_›
      · omega

theorem isDigit_iff {radix : Nat} (hradix : radix ≤ 16) {c : Char} {v : Nat} :
    IsDigit radix c v ↔ digitValue c < radix ∧ digitValue c = v := by
  have hlower : ∀ v < 16, lowerDigits[v]?.map digitValue = some v := by decide
  have hupper : ∀ v < 16, upperDigits[v]?.map digitValue = some v := by decide
  have hplace := @forall_ascii (fun c => digitValue c < 16 →
    lowerDigits[digitValue c]? = some c ∨ upperDigits[digitValue c]? = some c) (by decide) c
  constructor
  · rintro ⟨hv, hc | hc⟩
    · have heq := hlower v (hv.trans_le hradix)
      rw [hc, Option.map_some, Option.some.injEq] at heq
      exact ⟨heq ▸ hv, heq⟩
    · have heq := hupper v (hv.trans_le hradix)
      rw [hc, Option.map_some, Option.some.injEq] at heq
      exact ⟨heq ▸ hv, heq⟩
  · rintro ⟨hc, rfl⟩
    have hc' : digitValue c < 16 := hc.trans_le hradix
    exact ⟨hc, hplace (lt_128_of_digitValue hc') hc'⟩

theorem isDigit_iff_digitValue {c : Char} : c.isDigit = true ↔ digitValue c < 10 := by
  have h := @forall_ascii (fun c => c.isDigit = true ↔ digitValue c < 10) (by decide) c
  constructor
  · intro hc
    exact (h (lt_128_of_isDigit hc)).1 hc
  · intro hc
    exact (h (lt_128_of_digitValue (by omega))).2 hc

theorem digitsValue_append_singleton (radix : Nat) (cs : List Char) (c : Char) :
    digitsValue radix (cs ++ [c]) = digitsValue radix cs * radix + digitValue c := by
  unfold digitsValue
  rw [List.foldl_append]
  rfl

/-- **Digits write what their places add up to.** -/
theorem writes_iff {radix : Nat} (hradix : radix ≤ 16) {cs : List Char} {n : Nat} :
    Writes radix cs n ↔
      cs ≠ [] ∧ (∀ c ∈ cs, digitValue c < radix) ∧ digitsValue radix cs = n := by
  constructor
  · intro h
    induction h with
    | single hc =>
      obtain ⟨hlt, heq⟩ := (isDigit_iff hradix).1 hc
      refine ⟨List.cons_ne_nil _ _, by simpa using hlt, ?_⟩
      simp [digitsValue, heq]
    | snoc _ hc ih =>
      obtain ⟨hlt, heq⟩ := (isDigit_iff hradix).1 hc
      refine ⟨by simp, fun d hd => ?_, ?_⟩
      · rcases List.mem_append.1 hd with hd | hd
        · exact ih.2.1 d hd
        · rwa [List.mem_singleton.1 hd]
      · rw [digitsValue_append_singleton, ih.2.2, heq]
  · rintro ⟨hne, hall, rfl⟩
    induction cs using List.reverseRecOn with
    | nil => exact absurd rfl hne
    | append_singleton cs c ih =>
      have hc : IsDigit radix c (digitValue c) := (isDigit_iff hradix).2 ⟨hall c (by simp), rfl⟩
      rw [digitsValue_append_singleton]
      by_cases hcs : cs = []
      · subst hcs
        have hsingle := Writes.single hc
        simpa [digitsValue] using hsingle
      · exact .snoc (ih hcs fun d hd => hall d (List.mem_append_left _ hd)) hc

theorem writes_ten_iff {cs : List Char} {n : Nat} :
    Writes 10 cs n ↔ cs ≠ [] ∧ (∀ c ∈ cs, c.isDigit = true) ∧ digitsValue 10 cs = n := by
  simp only [writes_iff (show 10 ≤ 16 by decide), isDigit_iff_digitValue]

/-- the digits behind a letter, as far as 64 bits hold them, after a plus sign or not -/
theorem radixValue_eq_some_iff {radix : Nat} (hradix : radix ≤ 16) {cs : List Char} {n : Nat} :
    radixValue radix cs = some n ↔
      n < 2 ^ 64 ∧ (Writes radix cs n ∨ ∃ digits, cs = '+' :: digits ∧ Writes radix digits n) := by
  have hdigits : ∀ digits : List Char,
      (if (digits.isEmpty || !digits.all (digitValue · < radix)) = true then none
        else if digitsValue radix digits < Nat.pow 2 64 then some (digitsValue radix digits)
        else none) = some n ↔ n < 2 ^ 64 ∧ Writes radix digits n := by
    intro digits
    rw [writes_iff hradix]
    constructor
    · intro h
      split at h
      · cases h
      · rename_i hall
        split at h
        · rename_i hlt
          cases h
          exact ⟨hlt, by simpa using hall⟩
        · cases h
    · rintro ⟨hlt, hne, hall, rfl⟩
      rw [if_neg (by simpa using ⟨hne, hall⟩)]
      exact if_pos hlt
  unfold radixValue
  split
  · rename_i rest
    -- a plus sign is no digit
    have hplus : ¬ Writes radix ('+' :: rest) n := by
      intro h
      have hlt := ((writes_iff hradix).1 h).2.1 '+' (List.mem_cons_self ..)
      have hvalue : digitValue '+' = 16 := by decide
      omega
    rw [hdigits rest]
    refine and_congr_right fun _ => ⟨fun h => Or.inr ⟨rest, rfl, h⟩, ?_⟩
    rintro (h | ⟨digits, heq, h⟩)
    · exact absurd h hplus
    · cases heq
      exact h
  · rename_i hplus
    rw [hdigits cs]
    refine and_congr_right fun _ => ⟨Or.inl, ?_⟩
    rintro (h | ⟨digits, heq, -⟩)
    · exact h
    · exact absurd heq (hplus digits)

/-! ### Signs and exponents -/

theorem exists_sign {cs rest : List Char} {negative : Bool} (h : splitSign cs = (negative, rest)) :
    ∃ sign, IsSign sign negative ∧ cs = sign ++ rest := by
  unfold splitSign at h
  split at h
  · cases h
    exact ⟨_, .minus, rfl⟩
  · cases h
    exact ⟨_, .plus, rfl⟩
  · cases h
    exact ⟨_, .none, rfl⟩

/-- the text opens with no sign -/
def Unsigned (cs : List Char) : Prop := cs.head? ≠ some '-' ∧ cs.head? ≠ some '+'

theorem unsigned_append {digits rest : List Char} (h : ∀ c ∈ digits, c.isDigit = true)
    (hrest : Unsigned rest) : Unsigned (digits ++ rest) := by
  cases digits with
  | nil => exact hrest
  | cons c digits =>
    have hc := h c (List.mem_cons_self ..)
    constructor
    · rintro ⟨⟩
      cases hc
    · rintro ⟨⟩
      cases hc

/-- a sign is cut off where no other follows -/
theorem splitSign_append {sign cs : List Char} {negative : Bool} (h : IsSign sign negative)
    (hcs : Unsigned cs) : splitSign (sign ++ cs) = (negative, cs) := by
  cases h with
  | plus => rfl
  | minus => rfl
  | none =>
    rw [List.nil_append]
    unfold splitSign
    split
    · exact absurd rfl hcs.1
    · exact absurd rfl hcs.2
    · rfl

theorem exponentValue_eq_some_iff {cs : List Char} {e : Int} :
    exponentValue cs = some e ↔ IsExponent cs e := by
  constructor
  · intro h
    unfold exponentValue at h
    split at h
    · cases h
      exact .none
    · rename_i c cs
      split at h
      · rename_i hletter
        cases hcut : splitSign cs with
        | mk negative digits =>
          obtain ⟨sign, hsign, rfl⟩ := exists_sign hcut
          rw [hcut] at h
          dsimp only at h
          split at h
          · cases h
          · rename_i hdigits
            cases h
            have hall : digits ≠ [] ∧ ∀ c ∈ digits, c.isDigit = true := by simpa using hdigits
            exact .written (by simpa using hletter) hsign
              (writes_ten_iff.2 ⟨hall.1, hall.2, rfl⟩)
      · cases h
  · rintro (_ | ⟨hletter, hsign, hdigits⟩)
    · rfl
    · rename_i letter sign digits negative n
      obtain ⟨hne, hall, rfl⟩ := writes_ten_iff.1 hdigits
      have hunsigned : Unsigned (digits ++ []) := unsigned_append hall ⟨by simp, by simp⟩
      rw [List.append_nil] at hunsigned
      have hcut := splitSign_append hsign hunsigned
      unfold exponentValue
      dsimp only
      rw [if_pos (by simpa using hletter), hcut]
      exact if_neg (by simpa using ⟨hne, hall⟩)

/-! ### Decimals -/

theorem exists_digits (cs : List Char) :
    ∃ digits rest, cs = digits ++ rest ∧ (∀ c ∈ digits, c.isDigit = true) ∧ EndsDigits rest := by
  induction cs with
  | nil => exact ⟨[], [], rfl, by simp, endsDigits_nil⟩
  | cons c cs ih =>
    by_cases hc : c.isDigit = true
    · obtain ⟨digits, rest, rfl, hdigits, hrest⟩ := ih
      exact ⟨c :: digits, rest, rfl, by simpa [hc] using hdigits, hrest⟩
    · refine ⟨[], c :: cs, rfl, by simp, ?_⟩
      rintro d ⟨⟩
      exact eq_false_of_ne_true hc

/-- an exponent goes on with no digit, no point and no sign -/
theorem IsExponent.head {cs : List Char} {e : Int} (h : IsExponent cs e) :
    EndsDigits cs ∧ cs.head? ≠ some '.' ∧ Unsigned cs := by
  rcases h with _ | ⟨hletter, -, -⟩
  · exact ⟨endsDigits_nil, by simp, by simp, by simp⟩
  · rcases hletter with rfl | rfl
    · exact ⟨by rintro c ⟨⟩; rfl, by simp, by simp, by simp⟩
    · exact ⟨by rintro c ⟨⟩; rfl, by simp, by simp, by simp⟩

/-- digits behind the point count for the exponent -/
theorem div_pow_mul_zpow (n : ℚ) (k : Nat) (e : Int) :
    n / 10 ^ k * 10 ^ e = n * 10 ^ (e - (k : Int)) := by
  rw [zpow_sub₀ (by norm_num), zpow_natCast]
  ring

/-- what is read as a decimal denotes it -/
theorem denotes_of_decimalNumeral? {cs : List Char} {d : DecimalNumeral}
    (h : decimalNumeral? cs = some d) : Denotes cs d.negative d.magnitude.value := by
  cases hcut : splitSign cs with
  | mk negative unsigned =>
    obtain ⟨sign, hsign, hcs⟩ := exists_sign hcut
    obtain ⟨whole, rest, rfl, hw, hrest⟩ := exists_digits unsigned
    by_cases hpoint : rest.head? = some '.'
    · obtain ⟨behind, rfl⟩ := List.head?_eq_some_iff.1 hpoint
      obtain ⟨fraction, rest, rfl, hf, hrest⟩ := exists_digits behind
      rw [decimalNumeral?_of_pointed hcut hw hf hrest] at h
      split at h
      · cases h
      · rename_i hne
        obtain ⟨e, he, rfl⟩ := Option.map_eq_some_iff.1 h
        have hall : ∀ c ∈ whole ++ fraction, c.isDigit = true :=
          fun c hc => (List.mem_append.1 hc).elim (hw c) (hf c)
        have hmantissa := IsMantissa.pointed (writes_ten_iff.2 ⟨hne, hall, rfl⟩)
        have hdenotes := Denotes.decimal hsign hmantissa (exponentValue_eq_some_iff.1 he)
        rw [div_pow_mul_zpow, List.append_assoc, List.cons_append] at hdenotes
        rw [hcs]
        exact hdenotes
    · rw [decimalNumeral?_of_whole hcut hw hrest hpoint] at h
      split at h
      · cases h
      · rename_i hne
        obtain ⟨e, he, rfl⟩ := Option.map_eq_some_iff.1 h
        rw [hcs]
        exact .decimal hsign (.whole (writes_ten_iff.2 ⟨hne, hw, rfl⟩))
          (exponentValue_eq_some_iff.1 he)

/-- what denotes a decimal is read as it -/
theorem exists_decimalNumeral? {sign mantissa exponent : List Char} {negative : Bool} {m : ℚ}
    {e : Int} (hsign : IsSign sign negative) (hm : IsMantissa mantissa m)
    (he : IsExponent exponent e) :
    ∃ d, decimalNumeral? (sign ++ (mantissa ++ exponent)) = some d ∧ d.negative = negative ∧
      d.magnitude.value = m * 10 ^ e := by
  obtain ⟨hends, hnopoint, hunsigned⟩ := he.head
  have hexponent := exponentValue_eq_some_iff.2 he
  cases hm with
  | whole hw =>
    obtain ⟨hne, hdigit, rfl⟩ := writes_ten_iff.1 hw
    have hcut := splitSign_append hsign (unsigned_append hdigit hunsigned)
    rw [decimalNumeral?_of_whole hcut hdigit hends hnopoint, if_neg hne, hexponent]
    exact ⟨_, rfl, rfl, rfl⟩
  | @pointed whole fraction n hdigits =>
    obtain ⟨hne, hdigit, rfl⟩ := writes_ten_iff.1 hdigits
    have hw : ∀ c ∈ whole, c.isDigit = true := fun c hc => hdigit c (List.mem_append_left _ hc)
    have hf : ∀ c ∈ fraction, c.isDigit = true := fun c hc => hdigit c (List.mem_append_right _ hc)
    have hcut : splitSign (sign ++ (whole ++ '.' :: (fraction ++ exponent))) =
        (negative, whole ++ '.' :: (fraction ++ exponent)) :=
      splitSign_append hsign (unsigned_append hw ⟨by simp, by simp⟩)
    rw [List.append_assoc, List.cons_append, decimalNumeral?_of_pointed hcut hw hf hends,
      if_neg hne, hexponent]
    exact ⟨_, rfl, rfl, (div_pow_mul_zpow _ _ _).symm⟩

/-! ### Numerals -/

theorem IsRadixLetter.le {letter : Char} {radix : Nat} (h : IsRadixLetter letter radix) :
    radix ≤ 16 := by
  rcases h with ⟨-, rfl⟩ | ⟨-, rfl⟩ | ⟨-, rfl⟩ <;> decide

/-- a letter opens the digits of one radix only -/
theorem IsRadixLetter.unique {letter : Char} {radix radix' : Nat} (h : IsRadixLetter letter radix)
    (h' : IsRadixLetter letter radix') : radix = radix' := by
  rcases h with ⟨rfl | rfl, rfl⟩ | ⟨rfl | rfl, rfl⟩ | ⟨rfl | rfl, rfl⟩ <;>
    simpa [IsRadixLetter, eq_comm] using h'

/-- nothing with the letter of a radix behind a zero is a decimal -/
theorem decimalNumeral?_of_hasRadix {cs : List Char} (h : HasRadix cs) :
    decimalNumeral? cs = none := by
  obtain ⟨letter, radix, rest, hletter, rfl⟩ := h
  have hexponent : exponentValue (letter :: rest) = none := by
    rcases hletter with ⟨rfl | rfl, -⟩ | ⟨rfl | rfl, -⟩ | ⟨rfl | rfl, -⟩ <;> rfl
  have hends : EndsDigits (letter :: rest) ∧ letter ≠ '.' := by
    rcases hletter with ⟨rfl | rfl, -⟩ | ⟨rfl | rfl, -⟩ | ⟨rfl | rfl, -⟩ <;>
      exact ⟨by rintro c ⟨⟩; rfl, by decide⟩
  have hzero : ∀ c ∈ ['0'], c.isDigit = true := List.forall_mem_singleton.2 rfl
  have hcut : splitSign ('0' :: letter :: rest) = (false, ['0'] ++ letter :: rest) := rfl
  rw [decimalNumeral?_of_whole hcut hzero hends.1 (by simpa using hends.2), hexponent,
    Option.map_none, ite_self]

theorem ofText?_of_radix {s : String} {letter : Char} {radix : Nat} {rest : List Char}
    (hletter : IsRadixLetter letter radix) (h : trimBlanks s.toList = '0' :: letter :: rest) :
    ofText? s = (radixValue radix rest).map Binary64.ofNat := by
  unfold ofText?
  rw [h]
  rcases hletter with ⟨rfl | rfl, rfl⟩ | ⟨rfl | rfl, rfl⟩ | ⟨rfl | rfl, rfl⟩ <;> rfl

theorem ofText?_of_not_hasRadix {s : String} (h : ¬ HasRadix (trimBlanks s.toList)) :
    ofText? s = (decimalNumeral? (trimBlanks s.toList)).bind fun d =>
      if d.toDouble.isFinite then some d.toDouble else none := by
  have hne : ∀ {letter radix rest}, IsRadixLetter letter radix →
      trimBlanks s.toList ≠ '0' :: letter :: rest := fun hletter heq => h ⟨_, _, _, hletter, heq⟩
  unfold ofText?
  split
  · exact absurd ‹_› (hne (Or.inl ⟨Or.inl rfl, rfl⟩))
  · exact absurd ‹_› (hne (Or.inl ⟨Or.inr rfl, rfl⟩))
  · exact absurd ‹_› (hne (Or.inr (Or.inl ⟨Or.inl rfl, rfl⟩)))
  · exact absurd ‹_› (hne (Or.inr (Or.inl ⟨Or.inr rfl, rfl⟩)))
  · exact absurd ‹_› (hne (Or.inr (Or.inr ⟨Or.inl rfl, rfl⟩)))
  · exact absurd ‹_› (hne (Or.inr (Or.inr ⟨Or.inr rfl, rfl⟩)))
  · rfl

/-- what opens as one of a radix denotes what its digits write -/
theorem denotes_of_radix {letter : Char} {radix : Nat} {rest : List Char} {negative : Bool} {m : ℚ}
    (hletter : IsRadixLetter letter radix) (h : Denotes ('0' :: letter :: rest) negative m) :
    negative = false ∧ ∃ n : Nat, m = n ∧ Writes radix rest n := by
  generalize hcs : '0' :: letter :: rest = cs at h
  cases h with
  | decimal hsign hm he =>
    obtain ⟨d, hd, -⟩ := exists_decimalNumeral? hsign hm he
    rw [decimalNumeral?_of_hasRadix ⟨letter, radix, rest, hletter, hcs.symm⟩] at hd
    cases hd
  | radix hletter' hdigits =>
    cases hcs
    obtain rfl := hletter.unique hletter'
    exact ⟨rfl, _, rfl, hdigits⟩

theorem ofNat_eq_iff_of_lt {n : Nat} (h : n < 2 ^ 64) {x : Binary64} :
    Binary64.ofNat n = x ↔ x.negative = false ∧ IsNearest n x := by
  rw [← ofNat_eq_iff]
  exact ⟨fun heq => ⟨heq, heq ▸ isFinite_ofNat h⟩, And.left⟩

/-- what is read behind the letter of a radix -/
theorem ofText?_radix_iff {s : String} {x : Binary64} {letter : Char} {radix : Nat}
    {rest : List Char} (hletter : IsRadixLetter letter radix)
    (hcs : trimBlanks s.toList = '0' :: letter :: rest) :
    ofText? s = some x ↔
      ∃ n, n < 2 ^ 64 ∧
        (Writes radix rest n ∨ ∃ digits, rest = '+' :: digits ∧ Writes radix digits n) ∧
          x.negative = false ∧ IsNearest n x := by
  rw [ofText?_of_radix hletter hcs, Option.map_eq_some_iff]
  constructor
  · rintro ⟨n, hn, hx⟩
    obtain ⟨hlt, hdigits⟩ := (radixValue_eq_some_iff hletter.le).1 hn
    exact ⟨n, hlt, hdigits, (ofNat_eq_iff_of_lt hlt).1 hx⟩
  · rintro ⟨n, hlt, hdigits, hx⟩
    exact ⟨n, (radixValue_eq_some_iff hletter.le).2 ⟨hlt, hdigits⟩, (ofNat_eq_iff_of_lt hlt).2 hx⟩

/-- what is read where there is no such letter -/
theorem ofText?_decimal_iff {s : String} {x : Binary64} (h : ¬ HasRadix (trimBlanks s.toList)) :
    ofText? s = some x ↔
      ∃ negative m, Denotes (trimBlanks s.toList) negative m ∧ x.negative = negative ∧
        IsNearest (signedValue negative m) x := by
  rw [ofText?_of_not_hasRadix h, Option.bind_eq_some_iff]
  constructor
  · rintro ⟨d, hd, hx⟩
    split at hx
    · rename_i hfinite
      cases hx
      exact ⟨d.negative, d.magnitude.value, denotes_of_decimalNumeral? hd,
        ofDecimal_eq_iff.1 ⟨rfl, hfinite⟩⟩
    · cases hx
  · rintro ⟨negative, m, hm, hx⟩
    generalize trimBlanks s.toList = cs at *
    cases hm with
    | decimal hsign hm he =>
      obtain ⟨d, hd, rfl, hvalue⟩ := exists_decimalNumeral? hsign hm he
      rw [← hvalue] at hx
      obtain ⟨rfl, hfinite⟩ := ofDecimal_eq_iff.2 hx
      exact ⟨d, hd, if_pos hfinite⟩
    | radix hletter hdigits => exact absurd ⟨_, _, _, hletter, rfl⟩ h

/-- only finite numbers are read -/
theorem isFinite_of_ofText? {s : String} {x : Binary64} (h : ofText? s = some x) :
    x.isFinite = true := by
  by_cases hradix : HasRadix (trimBlanks s.toList)
  · obtain ⟨letter, radix, rest, hletter, hcs⟩ := hradix
    obtain ⟨n, -, -, -, hx⟩ := (ofText?_radix_iff hletter hcs).1 h
    exact hx.finite
  · obtain ⟨negative, m, -, -, hx⟩ := (ofText?_decimal_iff hradix).1 h
    exact hx.finite

/-- **What a text is read as**: the double nearest to the number that it denotes.  Behind the letter
of a radix only what 64 bits hold is read, and there a plus sign may stand. -/
theorem ofText?_eq_some_iff {s : String} {x : Binary64} :
    ofText? s = some x ↔
      (∃ negative m, Denotes (trimBlanks s.toList) negative m ∧
        (HasRadix (trimBlanks s.toList) → m < 2 ^ 64) ∧
          x.negative = negative ∧ IsNearest (signedValue negative m) x) ∨
      (∃ letter radix digits n, trimBlanks s.toList = '0' :: letter :: '+' :: digits ∧
        IsRadixLetter letter radix ∧ Writes radix digits n ∧ n < 2 ^ 64 ∧
          x.negative = false ∧ IsNearest n x) := by
  by_cases hradix : HasRadix (trimBlanks s.toList)
  · obtain ⟨letter, radix, rest, hletter, hcs⟩ := id hradix
    rw [ofText?_radix_iff hletter hcs, hcs]
    constructor
    · rintro ⟨n, hlt, hn | ⟨digits, rfl, hn⟩, hx⟩
      · exact Or.inl ⟨false, n, .radix hletter hn, fun _ => (by exact_mod_cast hlt), hx⟩
      · exact Or.inr ⟨letter, radix, digits, n, rfl, hletter, hn, hlt, hx⟩
    · rintro (⟨negative, m, hm, hlt, hx⟩ | ⟨letter', radix', digits, n, heq, hletter', hn, hlt, hx⟩)
      · obtain ⟨rfl, n, rfl, hn⟩ := denotes_of_radix hletter hm
        have hlt : n < 2 ^ 64 := by exact_mod_cast hlt (hcs ▸ hradix)
        exact ⟨n, hlt, Or.inl hn, hx⟩
      · cases heq
        obtain rfl := hletter.unique hletter'
        exact ⟨n, hlt, Or.inr ⟨digits, rfl, hn⟩, hx⟩
  · rw [ofText?_decimal_iff hradix]
    constructor
    · rintro ⟨negative, m, hm, hx⟩
      exact Or.inl ⟨negative, m, hm, fun h => absurd h hradix, hx⟩
    · rintro (⟨negative, m, hm, -, hx⟩ | ⟨letter, radix, digits, n, heq, hletter, -⟩)
      · exact ⟨negative, m, hm, hx⟩
      · exact absurd ⟨letter, radix, _, hletter, heq⟩ hradix

example : ofText? "0x+10" = ofText? "16" := by decide +kernel

example : ofText? "0x10000000000000000" = none := by decide +kernel

end PageQuery.Number
