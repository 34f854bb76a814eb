import PageQuery.Proofs.Lexing

/-!
# Words in a text

What is read where a run of small letters stands: one word, which begins with the letters and is
nothing but them if it ends with them (`readWord_lower`).  No token is empty (`readToken_length`),
and no letter stands at the end of a token that opens an item (`readToken_opensItem`) or at the end
of a gap between tokens (`skipGap_endsApart`), so that letters in front of a word are always part
of it.
-/

namespace PageQuery.Script

/-! ### Offsets -/

theorem byteLength_eq_zero {cs : List Char} : byteLength cs = 0 ↔ cs = [] := by
  cases cs with
  | nil => simp [byteLength]
  | cons c cs =>
    have := c.utf8Size_pos
    simp only [byteLength_cons, reduceCtorEq, iff_false]
    omega

/-- a text is cut in one way only at an offset -/
theorem eq_of_byteLength {u u' v v' : List Char} (h : u ++ v = u' ++ v')
    (hlen : byteLength u = byteLength u') : u = u' ∧ v = v' := by
  rcases List.append_eq_append_iff.1 h with ⟨w, rfl, rfl⟩ | ⟨w, rfl, rfl⟩
  · rw [byteLength_append] at hlen
    obtain rfl := byteLength_eq_zero.1 (by omega : byteLength w = 0)
    simp
  · rw [byteLength_append] at hlen
    obtain rfl := byteLength_eq_zero.1 (by omega : byteLength w = 0)
    simp

theorem byteLength_le_of_suffix {u u' v v' : List Char} (h : u ++ v = u' ++ v') (hv : v' <:+ v) :
    byteLength u ≤ byteLength u' := by
  obtain ⟨w, rfl⟩ := hv
  rw [← List.append_assoc, List.append_cancel_right_eq] at h
  rw [← h, byteLength_append]
  exact Nat.le_add_right _ _

/-! ### Letters -/

/-- the character is one of the letters `a` to `z` -/
theorem lower_bounds {c : Char} (h : c.isLower = true) : 97 ≤ c.toNat ∧ c.toNat ≤ 122 := by
  obtain ⟨hle, hge⟩ := Bool.and_eq_true_iff.1 h
  exact ⟨UInt32.le_iff_toNat_le.1 (of_decide_eq_true hle),
    UInt32.le_iff_toNat_le.1 (of_decide_eq_true hge)⟩

theorem isAlpha_of_isLower {c : Char} (h : c.isLower = true) : c.isAlpha = true :=
  Bool.or_eq_true_iff.2 (.inr h)

theorem isIdentifierPart_of_isLower {c : Char} (h : c.isLower = true) :
    Text.isIdentifierPart c = true := by
  have := lower_bounds h
  have hlt : c.toNat < 128 := by omega
  simp [Text.isIdentifierPart, hlt, Char.isAlphanum, isAlpha_of_isLower h]

theorem isIdentifierStart_of_isLower {c : Char} (h : c.isLower = true) :
    Text.isIdentifierStart c = true := by
  have := lower_bounds h
  have hlt : c.toNat < 128 := by omega
  simp [Text.isIdentifierStart, hlt, isAlpha_of_isLower h]

theorem isDigit_of_isLower {c : Char} (h : c.isLower = true) : c.isDigit = false := by
  have := lower_bounds h
  simp only [Char.isDigit, UInt32.le_iff_toNat_le, Char.toNat_val, Bool.and_eq_false_iff,
    decide_eq_false_iff_not]
  right
  show ¬ c.toNat ≤ 57
  omega

/-- no blank and no end of a line is a letter -/
theorem isLower_of_skipped {c : Char}
    (h : isLineEnd c = true ∨ (Text.isBlank c || c == '\ufeff') = true) : c.isLower = false := by
  rw [← Bool.not_eq_true]
  intro hc
  have hbounds := lower_bounds hc
  rcases h with h | h
  · simp only [isLineEnd, Bool.or_eq_true, beq_iff_eq] at h
    rcases h with ((rfl | rfl) | rfl) | rfl <;> cases hc
  · rcases Bool.or_eq_true_iff.1 h with h | h
    · simp only [Text.isBlank, Bool.or_eq_true, Bool.and_eq_true, decide_eq_true_eq,
        beq_iff_eq] at h
      omega
    · rw [eq_of_beq h] at hc
      cases hc

theorem isIdentifierPart_of_isIdentifierStart {c : Char} (h : Text.isIdentifierStart c = true) :
    Text.isIdentifierPart c = true := by
  unfold Text.isIdentifierStart at h
  unfold Text.isIdentifierPart
  split at h
  · rename_i hlt
    rw [if_pos hlt]
    simp only [Bool.or_eq_true, Char.isAlphanum] at h ⊢
    tauto
  · rename_i hlt
    rw [if_neg hlt, h]
    rfl

/-! ### Words -/

theorem cutWord_length {first escaped : Bool} {fuel : Nat} {cs text rest : List Char}
    (h : cutWord first fuel cs = some (text, escaped, rest)) :
    (text = [] ∧ rest = cs ∧ ∀ c ∈ cs.head?, (Text.isIdentifierPart c || c == '\\') = false) ∨
      rest.length < cs.length := by
  revert h
  fun_cases cutWord first fuel cs with
  | case1 => rintro ⟨⟩
  | case2 =>
    rintro ⟨⟩
    exact .inl ⟨rfl, rfl, by simp⟩
  | case3 fuel cs =>
    intro h
    obtain ⟨_, _, _, _, _, hu, -, -, hr, -, -⟩ := cutWord_escape_eq_some.1 h
    have hle := ((cutWord_suffix hr).trans (readUnicodeEscape_suffix hu)).length_le
    exact .inr (Nat.lt_succ_of_le (hle.trans (Nat.le_succ _)))
  | case4 => rintro ⟨⟩
  | case5 fuel c cs =>
    intro h
    obtain ⟨r, hr, hb⟩ := Option.map_eq_some_iff.1 h
    cases hb
    exact .inr (Nat.lt_succ_of_le (cutWord_suffix hr).length_le)
  | case6 fuel c cs hne hc =>
    rintro ⟨⟩
    refine .inl ⟨rfl, rfl, ?_⟩
    rintro _ ⟨⟩
    simpa [hc] using hne

theorem cutWord_lower {w y : List Char} (hw : ∀ c ∈ w, c.isLower = true) (first : Bool)
    (fuel : Nat) :
    cutWord first (w.length + fuel) (w ++ y) =
      (cutWord (first && w.isEmpty) fuel y).map fun r => (w ++ r.1, r.2.1, r.2.2) := by
  induction w generalizing first with
  | nil => simp
  | cons c w ih =>
    obtain ⟨hc, hw⟩ := List.forall_mem_cons.1 hw
    have hne : c ≠ '\\' := by
      rintro rfl
      cases hc
    have hlen : (c :: w).length + fuel = w.length + fuel + 1 := by
      rw [List.length_cons]
      omega
    have hih := ih hw false
    rw [Bool.false_and] at hih
    rw [List.cons_append, hlen, cutWord, if_pos (isIdentifierPart_of_isLower hc), hih,
      Option.map_map, List.isEmpty_cons, Bool.and_false]
    · rfl
    · exact hne

/-- A word of letters is read at least as far as it goes. -/
theorem readWord_lower {w y rest : List Char} {t : Token} (hne : w ≠ [])
    (hw : ∀ c ∈ w, c.isLower = true) (h : readWord (w ++ y) = (t, rest)) (ht : t ≠ .invalid) :
    ∃ v, t = .word v ∧ rest <:+ y ∧ (rest = y → v = String.ofList w) := by
  have hlen : (w ++ y).length + 1 = w.length + (y.length + 1) := by
    rw [List.length_append, Nat.add_assoc]
  have hempty : w.isEmpty = false := by simpa using hne
  unfold readWord at h
  rw [hlen, cutWord_lower hw, hempty, Bool.and_false] at h
  rcases hcut : cutWord false (y.length + 1) y with _ | ⟨text, escaped, rest'⟩
  · rw [hcut] at h
    cases h
    exact absurd rfl ht
  · rw [hcut] at h
    dsimp only [Option.map_some] at h
    split at h
    · cases h
      exact absurd rfl ht
    · cases h
      refine ⟨_, rfl, cutWord_suffix hcut, ?_⟩
      rintro rfl
      obtain ⟨rfl, -, -⟩ := (cutWord_length hcut).resolve_right (Nat.lt_irrefl _)
      rw [List.append_nil]

theorem readToken_lower {w y : List Char} (hne : w ≠ []) (hw : ∀ c ∈ w, c.isLower = true) :
    readToken (w ++ y) = some (readWord (w ++ y)) := by
  cases w with
  | nil => exact absurd rfl hne
  | cons c w =>
    have hc := hw c List.mem_cons_self
    have hpoint : (c == '.') = false := by
      rw [beq_eq_false_iff_ne]
      rintro rfl
      cases hc
    rw [List.cons_append, readToken]
    · simp [isDigit_of_isLower hc, hpoint, isIdentifierStart_of_isLower hc]
    · rintro rfl
      cases hc
    · rintro rfl
      cases hc
    · rintro rfl
      cases hc

/-! ### Every token has a character -/

theorem cutRegex_suffix {inClass : Bool} {cs rest : List Char}
    (h : cutRegex inClass cs = some rest) : rest <:+ cs := by
  fun_induction cutRegex inClass cs with
  | case1 => cases h
  | case2 => cases h
  | case3 inClass c cs _ ih => exact (ih h).trans (List.suffix_append ['\\', c] cs)
  | case4 => cases h
  | case5 =>
    cases h
    exact List.suffix_cons _ _
  | case6 inClass c cs _ _ _ _ ih => exact (ih h).trans (List.suffix_cons c cs)
  | case7 inClass c cs _ _ _ _ _ ih => exact (ih h).trans (List.suffix_cons c cs)
  | case8 inClass c cs _ _ _ _ _ ih => exact (ih h).trans (List.suffix_cons c cs)

theorem finishDecimal_point_suffix (ok : Bool) (whole cs : List Char) :
    (finishDecimal ok whole ('.' :: cs)).2 <:+ cs := by
  have hcut : ∀ b : Bool,
      (if b = true then cutDigits Char.isDigit '.' cs else ([], true, cs)).2.2 <:+ cs := by
    intro b
    cases b
    · exact List.suffix_rfl
    · exact cutDigits_suffix _ _ _
  exact (finishNumber_suffix _ _ _ _).trans ((cutExponent_suffix _).trans (hcut _))

theorem readDecimal_digit_suffix {c : Char} {cs : List Char} (h : c.isDigit = true) :
    (readDecimal (c :: cs)).2 <:+ cs := by
  have hrest : (cutDigits Char.isDigit '0' (c :: cs)).2.2 <:+ cs := by
    simp only [cutDigits, List.dropWhile_cons, h, Bool.true_or, if_true]
    exact List.dropWhile_suffix _
  unfold readDecimal
  rcases hcut : cutDigits Char.isDigit '0' (c :: cs) with ⟨whole, ok, rest⟩
  rw [hcut] at hrest
  dsimp only
  split
  · exact (finishNumber_suffix _ _ _ _).trans hrest
  · split
    · exact (finishNumber_suffix _ _ _ _).trans hrest
    · exact (finishDecimal_suffix _ _ _).trans hrest

theorem readNumber_tail_suffix {c : Char} {cs : List Char}
    (h : (c.isDigit || c == '.' && cs.head?.any Char.isDigit) = true) :
    (readNumber (c :: cs)).2 <:+ cs := by
  unfold readNumber
  split
  iterate 6
    rename_i heq
    obtain ⟨rfl, rfl⟩ := List.cons.inj heq
    exact (readRadix_suffix _ _ _).trans (List.suffix_cons _ _)
  · rename_i heq
    obtain ⟨rfl, rfl⟩ := List.cons.inj heq
    exact finishDecimal_point_suffix _ _ _
  · rename_i hpoint
    have hc : c ≠ '.' := fun hc => hpoint cs (by rw [hc])
    refine readDecimal_digit_suffix ?_
    simpa [hc] using h

theorem readWord_length {c : Char} {cs : List Char}
    (h : (Text.isIdentifierStart c || c == '\\') = true) :
    (readWord (c :: cs)).2.length < (c :: cs).length := by
  have hpart : (Text.isIdentifierPart c || c == '\\') = true := by
    rcases Bool.or_eq_true_iff.1 h with h | h
    · rw [isIdentifierPart_of_isIdentifierStart h, Bool.true_or]
    · rw [h, Bool.or_true]
  unfold readWord
  split
  · rename_i text escaped rest hcut
    have hlt : rest.length < (c :: cs).length := by
      refine (cutWord_length hcut).resolve_left ?_
      rintro ⟨-, -, hhead⟩
      rw [hhead c rfl] at hpart
      cases hpart
    dsimp only
    split
    · exact hlt
    · exact hlt
  · rw [List.dropWhile_cons, if_pos hpart]
    exact Nat.lt_succ_of_le (List.dropWhile_suffix _).length_le

/-- no punctuator is empty, and none ends in a letter -/
theorem punctuators_plain :
    ∀ p ∈ Token.punctuators, p.1 ≠ [] ∧ ∀ c ∈ p.1.getLast?, c.isLower = false := by
  have hall : (Token.punctuators.all fun p =>
      !p.1.isEmpty && p.1.getLast?.all fun c => !c.isLower) = true := by
    decide +kernel
  intro p hp
  simpa [Option.all_eq_true] using List.all_eq_true.1 hall p hp

/-- no token is empty -/
theorem readToken_length {cs rest : List Char} {t : Token} (h : readToken cs = some (t, rest)) :
    rest.length < cs.length := by
  revert h
  fun_cases readToken cs with
  | case1 => rintro ⟨⟩
  | case2 cs =>
    intro h
    obtain rfl : (readString '"' cs).2 = rest := congrArg Prod.snd (Option.some.inj h)
    exact Nat.lt_succ_of_le (readString_suffix '"' cs).length_le
  | case3 cs =>
    intro h
    obtain rfl : (readString '\'' cs).2 = rest := congrArg Prod.snd (Option.some.inj h)
    exact Nat.lt_succ_of_le (readString_suffix '\'' cs).length_le
  | case4 cs =>
    rintro ⟨⟩
    exact Nat.lt_succ_self _
  | case5 c cs _ _ _ hc =>
    intro h
    obtain rfl : (readNumber (c :: cs)).2 = rest := congrArg Prod.snd (Option.some.inj h)
    exact Nat.lt_succ_of_le (readNumber_tail_suffix hc).length_le
  | case6 c cs _ _ _ _ hc =>
    intro h
    obtain rfl : (readWord (c :: cs)).2 = rest := congrArg Prod.snd (Option.some.inj h)
    exact readWord_length hc
  | case7 c cs _ _ _ _ _ p hp =>
    rintro ⟨⟩
    have hpos := List.length_pos_of_ne_nil (punctuators_plain p (List.mem_of_find?_eq_some hp)).1
    rw [List.length_drop, List.length_cons]
    omega
  | case8 c cs =>
    rintro ⟨⟩
    exact Nat.lt_succ_self _

theorem readToken_eq_none {cs : List Char} (h : readToken cs = none) : cs = [] := by
  revert h
  fun_cases readToken cs with
  | case1 => exact fun _ => rfl
  | _ => rintro ⟨⟩

/-! ### Tokens that items begin behind -/

/-- an argument of a call or an item in parentheses begins behind the token -/
def Token.opensItem : Token → Bool
  | .leftParen => true
  | .comma => true
  | .ellipsis => true
  | _ => false

theorem opensItem_readString (quote : Char) (cs : List Char) :
    (readString quote cs).1.opensItem = false := by
  unfold readString
  split
  · split
    · rfl
    · rfl
  · rfl

section

variable {P : Token → Prop} (hnumber : ∀ x, P (.number x)) (hbigint : P .bigint)
  (hinvalid : P .invalid)

include hnumber hbigint hinvalid

theorem finishNumber_token (ok mayBeBig : Bool) (value : Binary64) (rest : List Char) :
    P (finishNumber ok mayBeBig value rest).1 := by
  unfold finishNumber
  split
  rename_i token behind hcut
  have htoken : P token := by
    split at hcut
    · cases hcut
      exact hbigint
    · cases hcut
      exact hnumber _
  split
  · exact htoken
  · exact hinvalid

/-- what a digit begins is a number or no token -/
theorem readNumber_token (cs : List Char) : P (readNumber cs).1 := by
  have hfinish := finishNumber_token hnumber hbigint hinvalid
  unfold readNumber
  split
  iterate 6 exact hfinish _ _ _ _
  · exact hfinish _ _ _ _
  · unfold readDecimal
    rcases cutDigits Char.isDigit '0' cs with ⟨whole, ok, rest⟩
    dsimp only
    split
    · exact hfinish _ _ _ _
    · split
      · exact hfinish _ _ _ _
      · exact hfinish _ _ _ _

end

theorem opensItem_readNumber (cs : List Char) : (readNumber cs).1.opensItem = false :=
  readNumber_token (P := fun t => t.opensItem = false) (fun _ => rfl) rfl rfl cs

theorem opensItem_readWord (cs : List Char) : (readWord cs).1.opensItem = false := by
  unfold readWord
  split
  · dsimp only
    split
    · rfl
    · rfl
  · rfl

/-- a token that an item begins behind does not end in a letter -/
theorem readToken_opensItem {cs rest : List Char} {t : Token} (h : readToken cs = some (t, rest))
    (ht : t.opensItem = true) :
    ∃ p, cs = p ++ rest ∧ p ≠ [] ∧ ∀ c ∈ p.getLast?, c.isLower = false := by
  have hnot : ∀ {r : Token × List Char}, some r = some (t, rest) → r.1.opensItem ≠ false := by
    rintro _ ⟨⟩
    simp [ht]
  revert h
  fun_cases readToken cs with
  | case1 => rintro ⟨⟩
  | case2 cs => exact fun h => absurd (opensItem_readString '"' cs) (hnot h)
  | case3 cs => exact fun h => absurd (opensItem_readString '\'' cs) (hnot h)
  | case4 cs => exact fun h => absurd rfl (hnot h)
  | case5 c cs => exact fun h => absurd (opensItem_readNumber (c :: cs)) (hnot h)
  | case6 c cs => exact fun h => absurd (opensItem_readWord (c :: cs)) (hnot h)
  | case7 c cs _ _ _ _ _ p hp =>
    rintro ⟨⟩
    obtain ⟨hne, hlast⟩ := punctuators_plain p (List.mem_of_find?_eq_some hp)
    have hstarts : p.1 <+: c :: cs := by simpa using List.find?_some hp
    exact ⟨p.1, (List.prefix_iff_eq_append.1 hstarts).symm, hne, hlast⟩
  | case8 c cs => exact fun h => absurd rfl (hnot h)

/-! ### Gaps -/

/-- `rest` begins at the offset `n` behind a gap, or a part of it, that begins in front of `cs`, and
no letter stands right before it -/
def Gap.Apart (gap : Gap) (cs : List Char) (o : Nat) (rest : List Char) (n : Nat) : Prop :=
  ∃ u, cs = u ++ rest ∧ n = o + byteLength u ∧ (∀ c ∈ u.getLast?, c.isLower = false) ∧
    (gap = .code ∨ u ≠ [])

theorem Gap.Apart.behind {gap gap' : Gap} {cs rest : List Char} {o o' n : Nat}
    (h : gap'.Apart cs o' rest n) (x : Char) (u : List Char) (ho : o' = o + byteLength (x :: u))
    (hlast : gap' = .code → ∀ c ∈ (x :: u).getLast?, c.isLower = false) :
    gap.Apart (x :: u ++ cs) o rest n := by
  obtain ⟨v, rfl, rfl, hv, hgap⟩ := h
  refine ⟨x :: u ++ v, by rw [List.append_assoc], ?_, ?_, .inr (by simp)⟩
  · rw [ho, byteLength_append]
    omega
  · rw [List.getLast?_append]
    cases hlastv : v.getLast? with
    | some c => simpa [hlastv] using hv
    | none =>
      rw [List.getLast?_eq_none_iff] at hlastv
      simpa using hlast (hgap.resolve_right (· hlastv))

/-- The gap ends apart from a letter, or the text ends with it, and a mark that it sets stands apart
from a letter as well, in front of a less-than or a minus sign. -/
structure GapEnd.EndsApart (e : GapEnd) (gap : Gap) (cs : List Char) (o : Nat) (mark : Option Nat) :
    Prop where
  ends : e.chars = [] ∨ gap.Apart cs o e.chars e.offset
  marked : ∀ m ∈ e.mark, m ∈ mark ∨
    ∃ c rest, c.isLower = false ∧ gap.Apart cs o (c :: rest) m

theorem GapEnd.EndsApart.behind {e : GapEnd} {gap gap' : Gap} {cs : List Char} {o o' : Nat}
    {mark mark' : Option Nat} (h : e.EndsApart gap' cs o' mark') (x : Char) (u : List Char)
    (ho : o' = o + byteLength (x :: u))
    (hlast : gap' = .code → ∀ c ∈ (x :: u).getLast?, c.isLower = false)
    (hmark : ∀ m ∈ mark', m ∈ mark ∨
      ∃ c rest, c.isLower = false ∧ gap.Apart (x :: u ++ cs) o (c :: rest) m) :
    e.EndsApart gap (x :: u ++ cs) o mark where
  ends := h.ends.imp_right fun ha => ha.behind x u ho hlast
  marked m hm := by
    rcases h.marked m hm with hm | ⟨c, rest, hc, ha⟩
    · exact hmark m hm
    · exact .inr ⟨c, rest, hc, ha.behind x u ho hlast⟩

theorem skipGap_endsApart (gap : Gap) (cs : List Char) (o : Nat) (newline : Bool)
    (mark : Option Nat) : (skipGap gap cs o newline mark).EndsApart gap cs o mark := by
  have stays : ∀ (cs : List Char) (o : Nat) (newline closed : Bool) (mark : Option Nat),
      GapEnd.EndsApart ⟨cs, o, newline, closed, mark⟩ .code cs o mark :=
    fun cs o _ _ mark => ⟨.inr ⟨[], rfl, rfl, by simp, .inl rfl⟩, fun m hm => .inl hm⟩
  have finishes : ∀ (gap : Gap) (o : Nat) (newline closed : Bool) (mark : Option Nat),
      GapEnd.EndsApart ⟨[], o, newline, closed, mark⟩ gap [] o mark :=
    fun _ _ _ _ _ => ⟨.inl rfl, fun m hm => .inl hm⟩
  have sets : ∀ {mark : Option Nat} {o : Nat} {c : Char} {cs : List Char}, c.isLower = false →
      ∀ m ∈ mark.or (some o), m ∈ mark ∨
        ∃ c' rest, c'.isLower = false ∧ Gap.code.Apart (c :: cs) o (c' :: rest) m := by
    intro mark o c cs hc m hm
    cases mark with
    | none =>
      cases hm
      exact .inr ⟨c, cs, hc, [], rfl, rfl, by simp, .inl rfl⟩
    | some _ => exact .inl hm
  fun_induction skipGap gap cs o newline mark with
  | case1 => exact finishes _ _ _ _ _
  | case2 => exact finishes _ _ _ _ _
  | case3 cs o newline mark ih => exact ih.behind '*' ['/'] rfl (by simp) fun m => .inl
  | case4 c cs o newline mark _ ih => exact ih.behind c [] rfl (by simp) fun m => .inl
  | case5 c cs o newline mark hc ih =>
    exact ih.behind c [] rfl (by simpa using isLower_of_skipped (.inl hc)) fun m => .inl
  | case6 c cs o newline mark _ ih => exact ih.behind c [] rfl (by simp) fun m => .inl
  | case7 cs o newline mark ih => exact ih.behind '/' ['/'] rfl (by simp) fun m => .inl
  | case8 cs o newline mark ih => exact ih.behind '/' ['*'] rfl (by simp) fun m => .inl
  | case9 cs o newline mark ih => exact ih.behind '<' ['!', '-', '-'] rfl (by simp) (sets rfl)
  | case10 cs o mark ih => exact ih.behind '-' ['-', '>'] rfl (by simp) (sets rfl)
  | case11 => exact stays _ _ _ _ _
  | case12 c cs o newline mark _ _ _ _ hc ih =>
    exact ih.behind c [] rfl (by simpa using isLower_of_skipped (.inl hc)) fun m => .inl
  | case13 c cs o newline mark _ _ _ _ _ hc ih =>
    exact ih.behind c [] rfl (by simpa using isLower_of_skipped (.inr hc)) fun m => .inl
  | case14 => exact stays _ _ _ _ _

end PageQuery.Script
