import Mathlib.Data.List.Infix
import PageQuery.Script.Lexer

/-!
# Where tokens end

Every reader of a token leaves a suffix of the text it was given (`readToken_eq_some`), so a cursor
stays in its text: `Cursor.StandsIn cs c` says that the cursor `c` is at its offset in `cs`, and
`StandsIn.outcome_next` what a step from there comes to.
-/

namespace PageQuery.Script

/-! ### Literals -/

theorem cutString_suffix {quote : Char} {cs body rest : List Char}
    (h : cutString quote cs = some (body, rest)) : rest <:+ cs := by
  fun_induction cutString quote cs generalizing body rest with
  | case1 => cases h
  | case2 cs ih =>
    obtain ⟨r, hr, hb⟩ := Option.map_eq_some_iff.1 h
    cases hb
    exact (ih hr).trans (List.suffix_append ['\\', '\r', '\n'] cs)
  | case3 c cs _ ih =>
    obtain ⟨r, hr, hb⟩ := Option.map_eq_some_iff.1 h
    cases hb
    exact (ih hr).trans (List.suffix_append ['\\', c] cs)
  | case4 c cs _ _ =>
    cases h
    exact List.suffix_cons c cs
  | case5 c cs => cases h
  | case6 c cs _ _ _ _ ih =>
    obtain ⟨r, hr, hb⟩ := Option.map_eq_some_iff.1 h
    cases hb
    exact (ih hr).trans (List.suffix_cons c cs)

theorem skipUnclosed_suffix (cs : List Char) : skipUnclosed cs <:+ cs := by
  fun_induction skipUnclosed cs with
  | case1 => exact List.suffix_rfl
  | case2 cs ih => exact ih.trans (List.suffix_append ['\\', '\r', '\n'] cs)
  | case3 c cs _ ih => exact ih.trans (List.suffix_append ['\\', c] cs)
  | case4 c cs => exact List.suffix_rfl
  | case5 c cs _ _ _ ih => exact ih.trans (List.suffix_cons c cs)

theorem readString_suffix (quote : Char) (cs : List Char) : (readString quote cs).2 <:+ cs := by
  unfold readString
  split
  · rename_i body rest h
    split
    · exact cutString_suffix h
    · exact cutString_suffix h
  · exact skipUnclosed_suffix cs

theorem cutChunk_suffix {cs body rest : List Char} (h : cutChunk cs = some (body, rest)) :
    rest <:+ cs := by
  fun_induction cutChunk cs generalizing body rest with
  | case1 => cases h
  | case2 cs =>
    cases h
    exact List.suffix_rfl
  | case3 cs =>
    cases h
    exact List.suffix_rfl
  | case4 c cs ih =>
    obtain ⟨r, hr, hb⟩ := Option.map_eq_some_iff.1 h
    cases hb
    exact (ih hr).trans (List.suffix_append ['\\', c] cs)
  | case5 c cs _ _ _ ih =>
    obtain ⟨r, hr, hb⟩ := Option.map_eq_some_iff.1 h
    cases hb
    exact (ih hr).trans (List.suffix_cons c cs)

theorem readChunk_suffix (cs : List Char) : (readChunk cs).2 <:+ cs := by
  unfold readChunk
  split
  · rename_i body rest h
    exact cutChunk_suffix h
  · exact List.nil_suffix

/-! ### Names -/

theorem readUnicodeEscape_suffix {cs text rest : List Char}
    (h : readUnicodeEscape cs = some (text, rest)) : rest <:+ cs := by
  unfold readUnicodeEscape at h
  split at h
  · rename_i cs
    split at h
    · rename_i tail htail
      obtain ⟨t, -, ht⟩ := Option.map_eq_some_iff.1 h
      cases ht
      have hdrop : '\x7d' :: rest <:+ cs := htail ▸ List.dropWhile_suffix _
      exact ((List.suffix_cons _ rest).trans hdrop).trans (List.suffix_cons _ cs)
    · cases h
  · rename_i a b c d tail _
    obtain ⟨t, -, ht⟩ := Option.map_eq_some_iff.1 h
    cases ht
    exact List.suffix_append [a, b, c, d] rest
  · cases h

/-- a word that goes on with an escape -/
theorem cutWord_escape_eq_some {first escaped : Bool} {fuel : Nat} {cs text rest : List Char} :
    cutWord first (fuel + 1) ('\\' :: 'u' :: cs) = some (text, escaped, rest) ↔
      ∃ head behind c tail e, readUnicodeEscape cs = some (head, behind) ∧ head.head? = some c ∧
        (if first then Text.isIdentifierStart c else Text.isIdentifierPart c) = true ∧
        cutWord false fuel behind = some (tail, e, rest) ∧ text = head ++ tail ∧
        escaped = true := by
  constructor
  · intro h
    obtain ⟨⟨head, behind⟩, hu, h⟩ := Option.bind_eq_some_iff.1 h
    obtain ⟨c, hc, h⟩ := Option.bind_eq_some_iff.1 h
    by_cases hname : if first then Text.isIdentifierStart c else Text.isIdentifierPart c
    · obtain ⟨⟨tail, e, r⟩, hr, hb⟩ := Option.map_eq_some_iff.1 ((if_pos hname).symm.trans h)
      cases hb
      exact ⟨head, behind, c, tail, e, hu, hc, hname, hr, rfl, rfl⟩
    · cases (if_neg hname).symm.trans h
  · rintro ⟨head, behind, c, tail, e, hu, hc, hname, hr, rfl, rfl⟩
    refine Option.bind_eq_some_iff.2 ⟨_, hu, Option.bind_eq_some_iff.2 ⟨c, hc, ?_⟩⟩
    exact (if_pos hname).trans (Option.map_eq_some_iff.2 ⟨_, hr, rfl⟩)

theorem cutWord_suffix {first escaped : Bool} {fuel : Nat} {cs text rest : List Char}
    (h : cutWord first fuel cs = some (text, escaped, rest)) : rest <:+ cs := by
  fun_induction cutWord first fuel cs generalizing text escaped rest with
  | case1 => cases h
  | case2 =>
    cases h
    exact List.suffix_rfl
  | case3 first fuel cs ih =>
    obtain ⟨_, behind, _, _, _, hu, -, -, hr, -, -⟩ := cutWord_escape_eq_some.1 h
    exact ((ih behind hr).trans (readUnicodeEscape_suffix hu)).trans
      (List.suffix_append ['\\', 'u'] cs)
  | case4 => cases h
  | case5 first fuel c cs _ _ ih =>
    obtain ⟨r, hr, hb⟩ := Option.map_eq_some_iff.1 h
    cases hb
    exact (ih hr).trans (List.suffix_cons c cs)
  | case6 =>
    cases h
    exact List.suffix_rfl

theorem readWord_suffix (cs : List Char) : (readWord cs).2 <:+ cs := by
  unfold readWord
  split
  · rename_i text escaped rest h
    dsimp only
    split
    · exact cutWord_suffix h
    · exact cutWord_suffix h
  · exact List.dropWhile_suffix _

/-! ### Numbers -/

theorem cutDigits_suffix (digit : Char → Bool) (before : Char) (cs : List Char) :
    (cutDigits digit before cs).2.2 <:+ cs := List.dropWhile_suffix _

theorem finishNumber_suffix (ok mayBeBig : Bool) (value : Binary64) (rest : List Char) :
    (finishNumber ok mayBeBig value rest).2 <:+ rest := by
  unfold finishNumber
  split
  rename_i token behind hcut
  have hbehind : behind <:+ rest := by
    split at hcut
    · cases hcut
      exact List.suffix_cons _ _
    · cases hcut
      exact List.suffix_rfl
  split
  · exact hbehind
  · exact hbehind

theorem readRadix_suffix (radix : Nat) (letter : Char) (cs : List Char) :
    (readRadix radix letter cs).2 <:+ cs :=
  (finishNumber_suffix _ _ _ _).trans (cutDigits_suffix _ letter _)

theorem splitSign_suffix (cs : List Char) : (Number.splitSign cs).2 <:+ cs := by
  unfold Number.splitSign
  split
  · exact List.suffix_cons _ _
  · exact List.suffix_cons _ _
  · exact List.suffix_rfl

theorem cutExponent_suffix (cs : List Char) : (cutExponent cs).2.2 <:+ cs := by
  unfold cutExponent
  split
  · rename_i c cs
    split
    · exact ((cutDigits_suffix _ _ _).trans (splitSign_suffix cs)).trans (List.suffix_cons c cs)
    · exact List.suffix_rfl
  · exact List.suffix_rfl

theorem finishDecimal_suffix (ok : Bool) (whole cs : List Char) :
    (finishDecimal ok whole cs).2 <:+ cs := by
  refine (finishNumber_suffix _ _ _ _).trans ((cutExponent_suffix _).trans ?_)
  split
  · split
    · exact (cutDigits_suffix _ _ _).trans (List.suffix_cons _ _)
    · exact List.suffix_cons _ _
  · exact List.suffix_rfl

theorem readDecimal_suffix (cs : List Char) : (readDecimal cs).2 <:+ cs := by
  unfold readDecimal
  rcases hcut : cutDigits Char.isDigit '0' cs with ⟨whole, ok, rest⟩
  have hrest : rest <:+ cs := by simpa [hcut] using cutDigits_suffix Char.isDigit '0' cs
  dsimp only
  split
  · exact (finishNumber_suffix _ _ _ _).trans hrest
  · split
    · exact (finishNumber_suffix _ _ _ _).trans hrest
    · exact (finishDecimal_suffix _ _ _).trans hrest

theorem readNumber_suffix (cs : List Char) : (readNumber cs).2 <:+ cs := by
  unfold readNumber
  split
  iterate 6 exact (readRadix_suffix _ _ _).trans (List.suffix_append ['0', _] _)
  · exact finishDecimal_suffix _ _ _
  · exact readDecimal_suffix _

/-! ### Tokens -/

theorem readToken_suffix (cs : List Char) : ∀ r ∈ readToken cs, r.2 <:+ cs := by
  fun_cases readToken cs with
  | case1 => nofun
  | case2 cs =>
    rintro _ ⟨⟩
    exact (readString_suffix '"' cs).trans (List.suffix_cons _ cs)
  | case3 cs =>
    rintro _ ⟨⟩
    exact (readString_suffix '\'' cs).trans (List.suffix_cons _ cs)
  | case4 cs =>
    rintro _ ⟨⟩
    exact List.suffix_cons _ cs
  | case5 c cs =>
    rintro _ ⟨⟩
    exact readNumber_suffix (c :: cs)
  | case6 c cs =>
    rintro _ ⟨⟩
    exact readWord_suffix (c :: cs)
  | case7 c cs =>
    rintro _ ⟨⟩
    exact List.drop_suffix _ (c :: cs)
  | case8 c cs =>
    rintro _ ⟨⟩
    exact List.suffix_cons c cs

theorem readTemplateToken_suffix (previous : Option Token) (cs : List Char) :
    (readTemplateToken previous cs).2 <:+ cs := by
  unfold readTemplateToken
  split
  · exact List.suffix_cons _ _
  · exact List.suffix_append ['$', '\x7b'] _
  · exact readChunk_suffix _

/-! ### Gaps -/

theorem byteLength_cons (c : Char) (cs : List Char) :
    byteLength (c :: cs) = c.utf8Size + byteLength cs := rfl

theorem byteLength_append (cs ds : List Char) :
    byteLength (cs ++ ds) = byteLength cs + byteLength ds := by
  induction cs with
  | nil => exact (Nat.zero_add _).symm
  | cons c cs ih =>
    rw [List.cons_append, byteLength_cons, byteLength_cons, ih, Nat.add_assoc]

/-- the gap that begins at `o` in front of `cs` ends here, behind a text of as many bytes, and sets
its mark within -/
structure GapEnd.EndsGap (e : GapEnd) (cs : List Char) (o : Nat) (mark : Option Nat) : Prop where
  skipped : ∃ u, cs = u ++ e.chars ∧ e.offset = o + byteLength u
  marked : ∀ m ∈ e.mark, m ∈ mark ∨ o ≤ m
  ofOpen : e.closed = false → e.chars = []

theorem GapEnd.EndsGap.behind {e : GapEnd} {cs : List Char} {o o' : Nat}
    {mark mark' : Option Nat} (h : e.EndsGap cs o' mark') (u : List Char)
    (ho : o' = o + byteLength u) (hmark : ∀ m ∈ mark', m ∈ mark ∨ o ≤ m) :
    e.EndsGap (u ++ cs) o mark where
  skipped := by
    obtain ⟨v, hcs, hoff⟩ := h.skipped
    refine ⟨u ++ v, by rw [hcs, List.append_assoc], ?_⟩
    rw [hoff, ho, byteLength_append]
    omega
  marked m hm := by
    rcases h.marked m hm with hm | hm
    · exact hmark m hm
    · exact .inr (by omega)
  ofOpen := h.ofOpen

theorem skipGap_endsGap (gap : Gap) (cs : List Char) (o : Nat) (newline : Bool)
    (mark : Option Nat) : (skipGap gap cs o newline mark).EndsGap cs o mark := by
  have keeps : ∀ (mark : Option Nat) (o : Nat), ∀ m ∈ mark, m ∈ mark ∨ o ≤ m :=
    fun _ _ m hm => .inl hm
  have sets : ∀ (mark : Option Nat) (o : Nat), ∀ m ∈ mark.or (some o), m ∈ mark ∨ o ≤ m := by
    intro mark o m hm
    cases mark with
    | none =>
      cases hm
      exact .inr le_rfl
    | some _ => exact .inl hm
  have stays : ∀ (cs : List Char) (o : Nat) (newline closed : Bool) (mark : Option Nat),
      (closed = false → cs = []) → GapEnd.EndsGap ⟨cs, o, newline, closed, mark⟩ cs o mark :=
    fun cs o _ _ mark hclosed => ⟨⟨[], rfl, rfl⟩, fun m hm => .inl hm, hclosed⟩
  fun_induction skipGap gap cs o newline mark with
  | case1 => exact stays _ _ _ _ _ fun _ => rfl
  | case2 => exact stays _ _ _ _ _ nofun
  | case3 cs o newline mark ih => exact ih.behind ['*', '/'] rfl (keeps _ _)
  | case4 c cs o newline mark _ ih => exact ih.behind [c] rfl (keeps _ _)
  | case5 c cs o newline mark _ ih => exact ih.behind [c] rfl (keeps _ _)
  | case6 c cs o newline mark _ ih => exact ih.behind [c] rfl (keeps _ _)
  | case7 cs o newline mark ih => exact ih.behind ['/', '/'] rfl (keeps _ _)
  | case8 cs o newline mark ih => exact ih.behind ['/', '*'] rfl (keeps _ _)
  | case9 cs o newline mark ih => exact ih.behind ['<', '!', '-', '-'] rfl (sets _ _)
  | case10 cs o mark ih => exact ih.behind ['-', '-', '>'] rfl (sets _ _)
  | case11 => exact stays _ _ _ _ _ nofun
  | case12 c cs o newline mark _ _ _ _ _ ih => exact ih.behind [c] rfl (keeps _ _)
  | case13 c cs o newline mark _ _ _ _ _ _ ih => exact ih.behind [c] rfl (keeps _ _)
  | case14 => exact stays _ _ _ _ _ nofun

/-! ### Cursors -/

namespace Cursor

variable {cs : List Char} {c c' : Cursor} {l : Lexeme}

/-- the cursor is at its offset in the text -/
def StandsIn (cs : List Char) (c : Cursor) : Prop :=
  ∃ before, cs = before ++ c.chars ∧ c.offset = byteLength before

theorem StandsIn.moved (h : StandsIn cs c) (u : List Char) (hchars : c.chars = u ++ c'.chars)
    (hoffset : c'.offset = c.offset + byteLength u) : StandsIn cs c' := by
  obtain ⟨before, hcs, hoff⟩ := h
  refine ⟨before ++ u, by rw [hcs, hchars, List.append_assoc], ?_⟩
  rw [hoffset, hoff, byteLength_append]

/-- what a step to a token does: the cursor behind it is in the text and at the end of the token,
which begins no sooner than the step -/
structure Steps (cs : List Char) (c : Cursor) (l : Lexeme) (c' : Cursor) : Prop where
  standsIn : StandsIn cs c'
  start : c.offset ≤ l.start
  stop : l.stop = c'.offset

theorem StandsIn.steps_accept (h : StandsIn cs c) {u chars rest : List Char} {start tokenStart : Nat}
    (hchars : c.chars = u ++ chars) (htoken : tokenStart = c.offset + byteLength u)
    (hstart : c.offset ≤ start) (hrest : rest <:+ chars) (t : Token) (newline : Bool) :
    Steps cs c (c.accept t start tokenStart newline chars rest).1
      (c.accept t start tokenStart newline chars rest).2 := by
  obtain ⟨w, rfl⟩ := hrest
  refine ⟨h.moved (u ++ w) ?_ ?_, hstart, rfl⟩
  · rw [hchars, List.append_assoc]
    rfl
  · simp [accept, htoken, byteLength_append, Nat.add_assoc]

/-- what a step can come to -/
inductive Outcome (cs : List Char) (c : Cursor) : Option Lexeme × Cursor → Prop
  | token {l : Lexeme} {c' : Cursor} : Steps cs c l c' → Outcome cs c (some l, c')
  /-- the text ends -/
  | finish {c' : Cursor} : c'.next.1 = none → Outcome cs c (none, c')
  /-- a null character is passed over -/
  | null {c' : Cursor} (u v : List Char) : cs = u ++ '\x00' :: v → c.offset ≤ byteLength u →
    byteLength u < c'.offset → StandsIn cs c' → Outcome cs c (none, c')

theorem next_of_nil (h : c.chars = []) : c.next.1 = none := by
  unfold next
  simp [h, skipGap, apply_ite Prod.fst]

theorem StandsIn.outcome_next (h : StandsIn cs c) : Outcome cs c c.next := by
  have hgap := skipGap_endsGap .code c.chars c.offset c.fresh none
  obtain ⟨u, hu, hoff⟩ := hgap.skipped
  fun_cases next c with
  | case1 _ rest r =>
    have hsteps : Steps cs c r.1 r.2 :=
      h.steps_accept (u := []) rfl rfl le_rfl (List.dropWhile_suffix _) .shebang true
    exact .token ⟨hsteps.standsIn, hsteps.start, hsteps.stop⟩
  | case2 _ _ hempty => exact .finish (next_of_nil (List.isEmpty_iff.1 hempty))
  | case3 _ _ _ t rest hread =>
    have hrest : rest <:+ c.chars := by
      simpa [hread] using readTemplateToken_suffix c.surroundings.previous c.chars
    exact .token (h.steps_accept (u := []) rfl rfl le_rfl hrest t false)
  | case4 _ _ gap hopen =>
    have hnil : gap.chars = [] := hgap.ofOpen (by simpa using hopen)
    exact .token (h.steps_accept (hu.trans (congrArg _ hnil)) hoff le_rfl List.suffix_rfl .invalid _)
  | case5 => exact .finish (next_of_nil rfl)
  | case6 _ _ gap _ rest hnull =>
    obtain ⟨before, hcs, hbefore⟩ := h
    have hchars : c.chars = u ++ '\x00' :: rest := hu.trans (congrArg _ hnull)
    refine .null (before ++ u) rest (by rw [hcs, hchars, List.append_assoc]) ?_ ?_ ?_
    · rw [hbefore, byteLength_append]
      exact Nat.le_add_right _ _
    · rw [byteLength_append, ← hbefore, ← hoff]
      exact Nat.lt_succ_self _
    · refine StandsIn.moved ⟨before, hcs, hbefore⟩ (u ++ ['\x00']) (by simp [hchars]) ?_
      rw [byteLength_append, ← Nat.add_assoc, ← hoff]
      rfl
  | case7 => exact .finish (next_of_nil rfl)
  | case8 _ _ gap _ t rest _ _ hread =>
    refine .token (h.steps_accept hu hoff ?_ (readToken_suffix _ _ hread) t _)
    rcases hmark : gap.mark with _ | m
    · exact hoff ▸ Nat.le_add_right _ _
    · exact (hgap.marked m hmark).resolve_left nofun

theorem StandsIn.steps_next (h : StandsIn cs c) (hnext : c.next = (some l, c')) :
    Steps cs c l c' := by
  have hout := h.outcome_next
  rw [hnext] at hout
  cases hout with
  | token hsteps => exact hsteps

/-- Where a step comes to no token but the next step does, a null character was passed over. -/
theorem StandsIn.null_of_next (h : StandsIn cs c) (hnext : c.next = (none, c'))
    (hnext' : c'.next.1 = some l) :
    ∃ u v, cs = u ++ '\x00' :: v ∧ c.offset ≤ byteLength u ∧ byteLength u < l.start := by
  have hout := h.outcome_next
  rw [hnext] at hout
  cases hout with
  | finish hend => simp [hend] at hnext'
  | null u v hcs hle hlt hc' =>
    have hl : c'.next = (some l, c'.next.2) := Prod.ext hnext' rfl
    exact ⟨u, v, hcs, hle, hlt.trans_le (hc'.steps_next hl).start⟩

end Cursor

end PageQuery.Script
