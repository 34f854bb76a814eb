import PageQuery.Proofs.ByteOrderMark
import PageQuery.Proofs.Phrases

/-!
# Words where a token is read

`Placed cs s`: the state stands in the text `cs` where the last token read ended, and where that
token opens an item, no template goes on and no letter was read last.  Reading keeps this
(`Placed.reads`).

From there on the token ahead begins where no letter stands right before it
(`Placed.noLetterBefore`), and if the text that is read is a word, the word is the only token
(`Placed.word`).  So an argument whose source is a word is the variable of this name
(`isVariable_of_slice`).
-/

namespace PageQuery.Script

/-! ### Plain tokens -/

/-- a word, or a token that an item begins behind -/
def Token.isPlain : Token → Bool
  | .word _ => true
  | t => t.opensItem

theorem Token.isPlain_of_opensItem {t : Token} (h : t.opensItem = true) : t.isPlain = true := by
  cases t with
  | word w => rfl
  | _ => exact h

theorem isPlain_readTemplateToken (previous : Option Token) (cs : List Char) :
    (readTemplateToken previous cs).1.isPlain = false := by
  unfold readTemplateToken
  split
  · rfl
  · rfl
  · unfold readChunk
    split
    · rfl
    · rfl

/-- no template begins or ends with a plain token -/
theorem after_of_isPlain {s : Surroundings} {t : Token} (ht : t.isPlain = true)
    (hs : s.stack.head? ≠ some .template) (newline : Bool) :
    (s.after t newline).stack.head? ≠ some .template := by
  cases t with
  | word w =>
    unfold Surroundings.after
    dsimp only
    split
    · exact hs
    · split
      · split
        · rw [List.head?_cons]
          split <;> simp
        · exact hs
      · exact hs
  | leftParen =>
    have hne : ∀ b : Bool,
        (if b = true then Surround.statementParens else .parens) ≠ .template := by decide
    exact fun h => hne _ (Option.some.inj h)
  | comma => exact hs
  | ellipsis => exact hs
  | _ => cases ht

/-! ### Cursors -/

namespace Cursor

variable {cs : List Char} {c c' : Cursor} {l : Lexeme}

/-- the gap in front of the next token -/
def gap (c : Cursor) : GapEnd := skipGap .code c.chars c.offset c.fresh none

theorem gap_skipped (c : Cursor) :
    ∃ u, c.chars = u ++ c.gap.chars ∧ c.gap.offset = c.offset + byteLength u :=
  (skipGap_endsGap .code c.chars c.offset c.fresh none).skipped

/-- the cursor stands in the text of a template -/
def InTemplate (c : Cursor) : Prop := c.surroundings.stack.head? = some .template

/-- how the next token comes about outside of the text of templates -/
inductive Begins (c : Cursor) (l : Lexeme) (c' : Cursor) : Prop
  | shebang : l.token = .shebang → c.chars.head? = some '#' → l.start = c.offset →
    c'.chars.length < c.chars.length → Begins c l c'
  | unclosed : l.token = .invalid → c.gap.chars = [] → Begins c l c'
  | token : readToken c.gap.chars = some (l.token, c'.chars) →
    l.start = c.gap.mark.getD c.gap.offset →
    c'.surroundings = c.surroundings.after l.token c.gap.newline → Begins c l c'

theorem begins_of_next (ht : ¬ c.InTemplate) (h : c.next = (some l, c')) : Begins c l c' := by
  have hgap := skipGap_endsGap .code c.chars c.offset c.fresh none
  revert h
  fun_cases next c with
  | case1 hfresh rest r =>
    rintro ⟨⟩
    obtain ⟨-, hstarts⟩ := Bool.and_eq_true_iff.1 hfresh
    obtain ⟨tail, htail⟩ := List.isPrefixOf_iff_prefix.1 hstarts
    refine .shebang rfl (by rw [← htail]; rfl) rfl ?_
    show (c.chars.dropWhile fun x => !isLineEnd x).length < c.chars.length
    have hdrop : (('!' :: tail).dropWhile fun x => !isLineEnd x) <:+ '!' :: tail :=
      List.dropWhile_suffix _
    rw [← htail]
    exact Nat.lt_succ_of_le hdrop.length_le
  | case2 _ htemplate => exact absurd (eq_of_beq htemplate) ht
  | case3 _ htemplate => exact absurd (eq_of_beq htemplate) ht
  | case4 _ _ gap hopen =>
    rintro ⟨⟩
    exact .unclosed rfl (hgap.ofOpen (by simpa using hopen))
  | case5 => rintro ⟨⟩
  | case6 => rintro ⟨⟩
  | case7 => rintro ⟨⟩
  | case8 _ _ gap _ t rest _ _ hread =>
    rintro ⟨⟩
    exact .token hread rfl rfl

theorem null_of_next_none (ht : ¬ c.InTemplate) (h : c.next = (none, c')) :
    c'.chars = [] ∨ c.gap.chars = '\x00' :: c'.chars ∧ c'.offset = c.gap.offset + 1 ∧
      c'.surroundings = c.surroundings := by
  revert h
  fun_cases next c with
  | case1 => rintro ⟨⟩
  | case2 _ htemplate => exact absurd (eq_of_beq htemplate) ht
  | case3 _ htemplate => exact absurd (eq_of_beq htemplate) ht
  | case4 => rintro ⟨⟩
  | case5 =>
    rintro ⟨⟩
    exact .inl rfl
  | case6 _ _ gap _ rest hnull =>
    rintro ⟨⟩
    exact .inr ⟨hnull, rfl, rfl⟩
  | case7 _ _ gap _ hnil _ hread => exact absurd (readToken_eq_none hread) hnil
  | case8 => rintro ⟨⟩

/-- outside of templates a step leaves fewer characters, unless the text ends -/
theorem Begins.length_lt (h : Begins c l c') (hv : l.token ≠ .invalid) :
    c'.chars.length < c.chars.length := by
  cases h with
  | shebang _ _ _ hlt => exact hlt
  | unclosed hinvalid _ => exact absurd hinvalid hv
  | token hread _ _ =>
    obtain ⟨u, hu, -⟩ := c.gap_skipped
    have hsuffix : c.gap.chars <:+ c.chars := ⟨u, hu.symm⟩
    exact (readToken_length hread).trans_le hsuffix.length_le

theorem next_suffix (c : Cursor) : c.next.2.chars <:+ c.chars := by
  obtain ⟨u, hu, -⟩ := (skipGap_endsGap .code c.chars c.offset c.fresh none).skipped
  fun_cases next c with
  | case1 => exact List.dropWhile_suffix _
  | case2 => exact List.suffix_rfl
  | case3 _ _ _ t rest hread =>
    have hrest := readTemplateToken_suffix c.surroundings.previous c.chars
    rw [hread] at hrest
    exact hrest
  | case4 => exact List.nil_suffix
  | case5 => exact List.nil_suffix
  | case6 _ _ gap _ rest hnull =>
    refine (List.suffix_cons '\x00' rest).trans ⟨u, ?_⟩
    exact (hu.trans (congrArg _ hnull)).symm
  | case7 => exact List.nil_suffix
  | case8 _ _ gap _ t rest _ _ hread => exact (readToken_suffix _ _ hread).trans ⟨u, hu.symm⟩

/-- in the text of a template there is no plain token -/
theorem not_inTemplate_of_isPlain (h : c.next = (some l, c')) (hl : l.token.isPlain = true) :
    ¬ c.InTemplate := by
  intro ht
  revert h
  fun_cases next c with
  | case1 =>
    rintro ⟨⟩
    cases hl
  | case2 => rintro ⟨⟩
  | case3 _ _ _ t rest hread =>
    rintro ⟨⟩
    have hplain := isPlain_readTemplateToken c.surroundings.previous c.chars
    rw [hread] at hplain
    cases hl.symm.trans hplain
  | case4 _ hcode => exact absurd (beq_iff_eq.2 ht) hcode
  | case5 _ hcode => exact absurd (beq_iff_eq.2 ht) hcode
  | case6 _ hcode => exact absurd (beq_iff_eq.2 ht) hcode
  | case7 _ hcode => exact absurd (beq_iff_eq.2 ht) hcode
  | case8 _ hcode => exact absurd (beq_iff_eq.2 ht) hcode

/-- behind a plain token no template goes on -/
theorem Begins.not_inTemplate (h : Begins c l c') (ht : ¬ c.InTemplate)
    (hl : l.token.isPlain = true) : ¬ c'.InTemplate := by
  cases h with
  | shebang hl' _ _ _ =>
    rw [hl'] at hl
    cases hl
  | unclosed hl' _ =>
    rw [hl'] at hl
    cases hl
  | token _ _ hafter =>
    unfold InTemplate at ht ⊢
    rw [hafter]
    exact after_of_isPlain hl ht _

end Cursor

/-! ### States -/

/-- no letter stands right before the offset -/
def NoLetterBefore (cs : List Char) (n : Nat) : Prop :=
  ∀ u v, cs = u ++ v → byteLength u = n → ∀ c ∈ u.getLast?, c.isLower = false

theorem noLetterBefore_of_cut {cs u v : List Char} (h : cs = u ++ v)
    (hlast : ∀ c ∈ u.getLast?, c.isLower = false) : NoLetterBefore cs (byteLength u) := by
  intro u' v' h' hlen
  obtain ⟨rfl, -⟩ := eq_of_byteLength (h'.symm.trans h) hlen
  exact hlast

/-- the state is the one behind the last token read, where the text has been read to -/
structure ReaderState.Placed (cs : List Char) (s : ReaderState) : Prop where
  loaded : s = .load s.before s.stop s.taken
  stands : s.before.StandsIn cs
  offset : s.before.offset = s.stop
  /-- where an item begins, no template goes on and no letter was read last -/
  opened : s.Opened → ¬ s.before.InTemplate ∧ NoLetterBefore cs s.stop

namespace Cursor

variable {cs rest : List Char} {c c' : Cursor} {l : Lexeme} {n : Nat}

theorem StandsIn.offset_le (h : c.StandsIn cs) (h' : c'.StandsIn cs) (hs : c'.chars <:+ c.chars) :
    c.offset ≤ c'.offset := by
  obtain ⟨u, hcs, hoff⟩ := h
  obtain ⟨u', hcs', hoff'⟩ := h'
  rw [hoff, hoff']
  exact byteLength_le_of_suffix (hcs.symm.trans hcs') hs

theorem StandsIn.chars_eq (h : c.StandsIn cs) (h' : c'.StandsIn cs) (ho : c.offset = c'.offset) :
    c.chars = c'.chars := by
  obtain ⟨u, hcs, hoff⟩ := h
  obtain ⟨u', hcs', hoff'⟩ := h'
  exact (eq_of_byteLength (hcs.symm.trans hcs') (by rw [← hoff, ← hoff', ho])).2

theorem StandsIn.offset_lt (h : c.StandsIn cs) (h' : c'.StandsIn cs) (hs : c'.chars <:+ c.chars)
    (hlt : c'.chars.length < c.chars.length) : c.offset < c'.offset := by
  refine lt_of_le_of_ne (h.offset_le h' hs) fun ho => ?_
  rw [h.chars_eq h' ho] at hlt
  exact lt_irrefl _ hlt

theorem StandsIn.noLetterBefore (h : c.StandsIn cs) {u p : List Char} (hcs : cs = u ++ p ++ c.chars)
    (hne : p ≠ []) (hlast : ∀ x ∈ p.getLast?, x.isLower = false) : NoLetterBefore cs c.offset := by
  obtain ⟨v, hv, hoff⟩ := h
  obtain rfl : v = u ++ p := List.append_cancel_right (hv.symm.trans hcs)
  rw [hoff]
  refine noLetterBefore_of_cut hv ?_
  rw [List.getLast?_append_of_ne_nil _ hne]
  exact hlast

/-- a place behind the gap in front of a cursor, as a place in the text -/
theorem StandsIn.apart (h : c.StandsIn cs) (ha : Gap.code.Apart c.chars c.offset rest n) :
    ∃ u, cs = u ++ rest ∧ byteLength u = n ∧
      (NoLetterBefore cs c.offset → ∀ x ∈ u.getLast?, x.isLower = false) := by
  obtain ⟨u, hcs, hoff⟩ := h
  obtain ⟨v, hv, rfl, hlast, -⟩ := ha
  refine ⟨u ++ v, by rw [hcs, hv, List.append_assoc], by rw [byteLength_append, hoff],
    fun hno => ?_⟩
  rw [List.getLast?_append]
  cases hlastv : v.getLast? with
  | some x => simpa [hlastv] using hlast
  | none => simpa using hno u c.chars hcs hoff.symm

/-- Where a token begins.  The text from there on begins with no letter, or it is what the token is
read from. -/
theorem StandsIn.start (h : c.StandsIn cs) (hb : c.Begins l c')
    (hopen : c.gap.chars = [] → l.token ≠ .invalid) :
    ∃ b r, cs = b ++ r ∧ byteLength b = l.start ∧
      (NoLetterBefore cs c.offset → ∀ x ∈ b.getLast?, x.isLower = false) ∧
      ((∃ x ∈ r.head?, x.isLower = false) ∨
        r = c.gap.chars ∧ readToken r = some (l.token, c'.chars)) := by
  cases hb with
  | shebang _ hhash hstart _ =>
    obtain ⟨b, hcs, hoff⟩ := h
    exact ⟨b, c.chars, hcs, by rw [hstart, hoff], fun hno => hno b _ hcs hoff.symm,
      .inl ⟨'#', hhash, by decide⟩⟩
  | unclosed hinvalid hnil => exact absurd hinvalid (hopen hnil)
  | token hread hstart _ =>
    have hgap := skipGap_endsApart .code c.chars c.offset c.fresh none
    cases hmark : c.gap.mark with
    | some m =>
      rcases hgap.marked m hmark with hm | ⟨x, rest, hx, ha⟩
      · cases hm
      · obtain ⟨b, hcs, hb, hlast⟩ := h.apart ha
        exact ⟨b, x :: rest, hcs, by rw [hstart, hmark, hb]; rfl, hlast, .inl ⟨x, rfl, hx⟩⟩
    | none =>
      rcases hgap.ends with hnil | ha
      · have hnil : c.gap.chars = [] := hnil
        rw [hnil] at hread
        cases hread
      · obtain ⟨b, hcs, hb, hlast⟩ := h.apart ha
        exact ⟨b, c.gap.chars, hcs, by rw [hstart, hmark]; exact hb, hlast, .inr ⟨rfl, hread⟩⟩

end Cursor

namespace ReaderState

variable {cs : List Char} {s t : ReaderState} {l : Lexeme} {c : Cursor}

/-- where the token ahead is read: at the cursor before it, or behind a null character -/
theorem Placed.cursor (h : s.Placed cs) (hahead : s.ahead = some l) :
    ∃ c, c.StandsIn cs ∧ c.next = (some l, s.after) ∧ c.chars <:+ s.before.chars ∧
      (c = s.before ∨ s.before.next = (none, c)) := by
  have hlook : s.before.lookAhead = (some l, s.after) := by
    refine Prod.ext ?_ ?_
    · rw [← hahead]
      exact (congrArg ReaderState.ahead h.loaded).symm
    · exact (congrArg ReaderState.after h.loaded).symm
  unfold Cursor.lookAhead at hlook
  have hout := h.stands.outcome_next
  have hsuffix := s.before.next_suffix
  rcases hnext : s.before.next with ⟨_ | m, c⟩
  · rw [hnext] at hlook hout hsuffix
    dsimp only at hlook
    refine ⟨c, ?_, hlook, hsuffix, .inr rfl⟩
    cases hout with
    | finish hend =>
      rw [hlook] at hend
      cases hend
    | null _ _ _ _ _ hc => exact hc
  · rw [hnext] at hlook
    exact ⟨s.before, h.stands, hnext.trans hlook, List.suffix_rfl, .inl rfl⟩

theorem Placed.past (h : s.Placed cs) (hahead : s.ahead = some l) :
    (s.past l s.after).Placed cs ∧ s.after.chars <:+ s.before.chars := by
  obtain ⟨c, hc, hnext, hsuffix, -⟩ := h.cursor hahead
  have hsteps := hc.steps_next hnext
  have hafter : s.after.chars <:+ c.chars := by
    have := c.next_suffix
    rw [hnext] at this
    exact this
  refine ⟨⟨rfl, hsteps.standsIn, hsteps.stop.symm, ?_⟩, hafter.trans hsuffix⟩
  rintro ⟨_, ⟨⟩, hl⟩
  have hcode := Cursor.not_inTemplate_of_isPlain hnext (Token.isPlain_of_opensItem hl)
  have hbegins := Cursor.begins_of_next hcode hnext
  refine ⟨hbegins.not_inTemplate hcode (Token.isPlain_of_opensItem hl), ?_⟩
  cases hbegins with
  | shebang hl' _ _ _ =>
    rw [hl'] at hl
    cases hl
  | unclosed hl' _ =>
    rw [hl'] at hl
    cases hl
  | token hread _ _ =>
    obtain ⟨p, hp, hne, hlast⟩ := readToken_opensItem hread hl
    obtain ⟨u, hcs, -⟩ := hc
    obtain ⟨v, hv, -⟩ := c.gap_skipped
    have hcut : cs = u ++ v ++ p ++ s.after.chars := by
      rw [List.append_assoc, ← hp, List.append_assoc, ← hv, hcs]
    show NoLetterBefore cs l.stop
    rw [hsteps.stop]
    exact hsteps.standsIn.noLetterBefore hcut hne hlast

theorem regexAhead_eq_ok (h : s.regexAhead = .ok (l, c)) :
    ∃ slash body rest, s.ahead = some slash ∧ s.before.gap.chars = '/' :: body ∧ rest <:+ body ∧
      (l, c) = s.after.accept .regex slash.start s.before.gap.offset slash.newline
        s.before.gap.chars rest := by
  unfold regexAhead at h
  dsimp only at h
  split at h
  · rename_i slash body hslash hgap
    split at h
    · cases h
    · rename_i behind hcut
      split at h
      · exact ⟨slash, body, _, hslash, hgap, (List.dropWhile_suffix _).trans (cutRegex_suffix hcut),
          (Except.ok.inj h).symm⟩
      · cases h
  · cases h

theorem Placed.past_regex (h : s.Placed cs) (hr : s.regexAhead = .ok (l, c)) :
    (s.past l c).Placed cs ∧ c.chars <:+ s.before.chars ∧
      c.chars.length < s.before.chars.length := by
  have htoken := token_regexAhead hr
  obtain ⟨slash, body, rest, -, hgap, hrest, heq⟩ := regexAhead_eq_ok hr
  obtain ⟨u, hu, hoff⟩ := s.before.gap_skipped
  have hsuffix : rest <:+ s.before.gap.chars := by
    rw [hgap]
    exact hrest.trans (List.suffix_cons _ _)
  have hsteps := h.stands.steps_accept hu hoff le_rfl hsuffix .regex slash.newline
  have hc : c = (s.after.accept .regex slash.start s.before.gap.offset slash.newline
      s.before.gap.chars rest).2 := congrArg Prod.snd heq
  have hl : l = (s.after.accept .regex slash.start s.before.gap.offset slash.newline
      s.before.gap.chars rest).1 := congrArg Prod.fst heq
  refine ⟨⟨rfl, ?_, ?_, ?_⟩, ?_, ?_⟩
  · obtain ⟨b, hb, hoffset⟩ := hsteps.standsIn
    exact ⟨b, by rw [hc]; exact hb, by rw [hc]; exact hoffset⟩
  · rw [hc, hl]
    rfl
  · rintro ⟨_, ⟨⟩, hopens⟩
    rw [htoken] at hopens
    cases hopens
  · rw [hc]
    exact hsuffix.trans ⟨u, hu.symm⟩
  · have hlen := hrest.length_le
    rw [hc, hu, hgap, List.length_append, List.length_cons]
    show rest.length < _
    omega

theorem Placed.reads (h : s.Placed cs) {ls : List Lexeme} (hr : s.Reads ls t) :
    t.Placed cs ∧ t.before.chars <:+ s.before.chars := by
  induction hr with
  | nil s => exact ⟨h, List.suffix_rfl⟩
  | token hahead _ _ ih =>
    obtain ⟨hpast, hsuffix⟩ := h.past hahead
    obtain ⟨ht, hs⟩ := ih hpast
    exact ⟨ht, hs.trans hsuffix⟩
  | regex hregex _ ih =>
    obtain ⟨hpast, hsuffix, -⟩ := h.past_regex hregex
    obtain ⟨ht, hs⟩ := ih hpast
    exact ⟨ht, hs.trans hsuffix⟩

theorem Placed.stop_le (h : s.Placed cs) {ls : List Lexeme} (hr : s.Reads ls t) :
    s.stop ≤ t.stop := by
  obtain ⟨ht, hsuffix⟩ := h.reads hr
  rw [← h.offset, ← ht.offset]
  exact h.stands.offset_le ht.stands hsuffix

/-- Outside of templates the token ahead is read at the cursor before it, or behind a null character
that no letter is. -/
theorem Placed.code_cursor (h : s.Placed cs) (hcode : ¬ s.before.InTemplate)
    (hahead : s.ahead = some l) :
    ∃ c, c.StandsIn cs ∧ c.Begins l s.after ∧ ¬ c.InTemplate ∧ c.chars <:+ s.before.chars ∧
      (NoLetterBefore cs s.stop → NoLetterBefore cs c.offset) ∧
      (s.before.gap.chars.head? = some '/' → c = s.before) := by
  obtain ⟨c, hc, hnext, hsuffix, rfl | hnull⟩ := h.cursor hahead
  · exact ⟨_, hc, Cursor.begins_of_next hcode hnext, hcode, hsuffix, h.offset ▸ id, fun _ => rfl⟩
  · rcases Cursor.null_of_next_none hcode hnull with hnil | ⟨hgap, -, hsame⟩
    · have hnone := Cursor.next_of_nil hnil
      rw [hnext] at hnone
      cases hnone
    · have hcode' : ¬ c.InTemplate := by
        unfold Cursor.InTemplate
        rw [hsame]
        exact hcode
      have hbegins := Cursor.begins_of_next hcode' hnext
      refine ⟨c, hc, hbegins, hcode', hsuffix, fun _ => ?_, fun hslash => ?_⟩
      · obtain ⟨b, hb, -⟩ := h.stands
        obtain ⟨u, hu, -⟩ := s.before.gap_skipped
        refine hc.noLetterBefore (u := b ++ u) (p := ['\x00']) ?_ (by simp) (by simp)
        rw [hb, hu, hgap]
        simp
      · rw [hgap] at hslash
        cases hslash

/-- Outside of templates a token that is read has a character. -/
theorem Placed.stop_lt (h : s.Placed cs) (hcode : ¬ s.before.InTemplate) {ls : List Lexeme}
    (hr : s.Reads (l :: ls) t) : s.stop < t.stop := by
  obtain ⟨ht, hsuffix⟩ := h.reads hr
  rw [← h.offset, ← ht.offset]
  refine h.stands.offset_lt ht.stands hsuffix ?_
  cases hr with
  | token hahead hv hr =>
    obtain ⟨c, -, hbegins, -, hchars, -, -⟩ := h.code_cursor hcode hahead
    have hrest := ((h.past hahead).1.reads hr).2
    exact (hrest.length_le.trans_lt (hbegins.length_lt hv)).trans_le hchars.length_le
  | regex hregex hr =>
    obtain ⟨hpast, -, hlt⟩ := h.past_regex hregex
    exact (hpast.reads hr).2.length_le.trans_lt hlt

/-- A token is ahead where one is read.  It is none of the language only if a regular expression
begins there. -/
theorem Reads.ahead {ls : List Lexeme} (h : s.Reads (l :: ls) t) :
    ∃ m, s.ahead = some m ∧ (m.token ≠ .invalid ∨ s.before.gap.chars.head? = some '/') := by
  cases h with
  | token hahead hv _ => exact ⟨l, hahead, .inl hv⟩
  | regex hregex _ =>
    obtain ⟨slash, body, _, hahead, hgap, -, -⟩ := regexAhead_eq_ok hregex
    exact ⟨slash, hahead, .inr (by rw [hgap, List.head?_cons])⟩

/-- Where the token ahead begins.  The text from there on begins with no letter, or it is what the
token is read from. -/
theorem Placed.start (h : s.Placed cs) (hcode : ¬ s.before.InTemplate) (hahead : s.ahead = some l)
    (hopen : l.token ≠ .invalid ∨ s.before.gap.chars.head? = some '/') :
    ∃ b r, cs = b ++ r ∧ byteLength b = s.position ∧
      (NoLetterBefore cs s.stop → ∀ x ∈ b.getLast?, x.isLower = false) ∧
      ((∃ x ∈ r.head?, x.isLower = false) ∨
        readToken r = some (l.token, s.after.chars) ∧ s.before.gap.chars.head? ≠ some '/') := by
  obtain ⟨c, hc, hbegins, -, -, hno, hsame⟩ := h.code_cursor hcode hahead
  have hposition : s.position = l.start := by rw [position, hahead]
  have hvalid : c.gap.chars = [] → l.token ≠ .invalid := by
    intro hnil
    refine hopen.resolve_right fun hslash => ?_
    rw [hsame hslash] at hnil
    rw [hnil] at hslash
    cases hslash
  obtain ⟨b, r, hcs, hb, hlast, hr⟩ := hc.start hbegins hvalid
  refine ⟨b, r, hcs, hb.trans hposition.symm, fun h => hlast (hno h), ?_⟩
  by_cases hslash : s.before.gap.chars.head? = some '/'
  · rcases hr with hr | ⟨rfl, -⟩
    · exact .inl hr
    · exact .inl ⟨'/', hsame hslash ▸ hslash, by decide⟩
  · exact hr.imp_right fun hr => ⟨hr.2, hslash⟩

/-- where an item is read, no letter stands right before it -/
theorem Placed.noLetterBefore (h : s.Placed cs) (ho : s.Opened) (hr : s.Advances 1 t) :
    NoLetterBefore cs s.position := by
  obtain ⟨_ | ⟨l, ls⟩, hls, hlen⟩ := hr
  · cases hlen
  · obtain ⟨hcode, hno⟩ := h.opened ho
    obtain ⟨m, hahead, hopen⟩ := hls.ahead
    obtain ⟨b, r, hcs, hb, hlast, -⟩ := h.start hcode hahead hopen
    rw [← hb]
    exact noLetterBefore_of_cut hcs (hlast hno)

/-- Where no regular expression begins, what is read next is the token ahead. -/
theorem Reads.token_of_not_slash {ls : List Lexeme} (h : s.Reads (l :: ls) t)
    (hslash : s.before.gap.chars.head? ≠ some '/') :
    s.ahead = some l ∧ l.token ≠ .invalid ∧ (s.past l s.after).Reads ls t := by
  cases h with
  | token hahead hv hrest => exact ⟨hahead, hv, hrest⟩
  | regex hregex _ =>
    obtain ⟨_, _, _, -, hgap, -, -⟩ := regexAhead_eq_ok hregex
    rw [hgap] at hslash
    exact absurd rfl hslash

theorem Placed.le_stop (h : s.Placed cs) {b v : List Char} (hcs : cs = b ++ v)
    (hsuffix : s.before.chars <:+ v) : byteLength b ≤ s.stop := by
  obtain ⟨p, hp, hoff⟩ := h.stands
  rw [← h.offset, hoff]
  exact byteLength_le_of_suffix (hcs.symm.trans hp) hsuffix

theorem Placed.chars_eq (h : s.Placed cs) {b v : List Char} (hcs : cs = b ++ v)
    (hb : byteLength b = s.stop) : s.before.chars = v := by
  obtain ⟨p, hp, hoff⟩ := h.stands
  exact (eq_of_byteLength (hp.symm.trans hcs) (by rw [← hoff, h.offset, hb])).2

/-- A word of letters where the token ahead begins is what this token is read from. -/
theorem Placed.readToken_eq (h : s.Placed cs) (hcode : ¬ s.before.InTemplate) {ls : List Lexeme}
    (hr : s.Reads (l :: ls) t) {u w v : List Char} (hcs : cs = u ++ (w ++ v))
    (hu : byteLength u = s.position) (hne : w ≠ []) (hw : ∀ c ∈ w, c.isLower = true) :
    readToken (w ++ v) = some (l.token, s.after.chars) ∧
      s.before.gap.chars.head? ≠ some '/' := by
  obtain ⟨m, hahead, hopen⟩ := hr.ahead
  obtain ⟨b, r, hcs', hb, -, hread⟩ := h.start hcode hahead hopen
  obtain ⟨rfl, rfl⟩ := eq_of_byteLength (hcs'.symm.trans hcs) (hb.trans hu.symm)
  obtain ⟨hread, hslash⟩ := hread.resolve_left <| by
    rintro ⟨x, hx, hlower⟩
    obtain ⟨y, w, rfl⟩ := List.exists_cons_of_ne_nil hne
    obtain rfl : y = x := Option.some.inj hx
    rw [hw y List.mem_cons_self] at hlower
    cases hlower
  obtain ⟨hl, -, -⟩ := hr.token_of_not_slash hslash
  obtain rfl : l = m := Option.some.inj (hl.symm.trans hahead)
  exact ⟨hread, hslash⟩

/-- **A word is one token.**  Where the text that is read is a word of letters, outside of
templates, this word is the token ahead and nothing else is read. -/
theorem Placed.word (h : s.Placed cs) (hcode : ¬ s.before.InTemplate) (hr : s.Advances 1 t)
    {u w v : List Char} (hcs : cs = u ++ (w ++ v)) (hu : byteLength u = s.position)
    (ht : t.stop = s.position + byteLength w) (hne : w ≠ []) (hw : ∀ c ∈ w, c.isLower = true) :
    s.tokenAhead = some (.word (String.ofList w)) ∧ ¬ s.Advances 2 t := by
  obtain ⟨_ | ⟨l, ls⟩, hls, hlen⟩ := hr
  · cases hlen
  obtain ⟨hread, hslash⟩ := h.readToken_eq hcode hls hcs hu hne hw
  obtain ⟨hahead, hv, hrest⟩ := hls.token_of_not_slash hslash
  obtain ⟨hpast, -⟩ := h.past hahead
  rw [readToken_lower hne hw] at hread
  obtain ⟨x, hx, hsuffix, heq⟩ := readWord_lower hne hw (Option.some.inj hread) hv
  -- the token ends no later than what is read, and no sooner than the word
  have hcut : cs = (u ++ w) ++ v := by rw [List.append_assoc, hcs]
  have hend : byteLength (u ++ w) = t.stop := by rw [byteLength_append, hu, ht]
  have hstop : (s.past l s.after).stop = t.stop :=
    le_antisymm (hpast.stop_le hrest) (hend ▸ hpast.le_stop hcut hsuffix)
  have hbehind : s.after.chars = v := hpast.chars_eq hcut (hend.trans hstop.symm)
  refine ⟨by rw [tokenAhead, hahead, Option.map_some, hx, heq hbehind], ?_⟩
  rintro ⟨_ | ⟨_, _ | ⟨k, ks⟩⟩, hks, hlen⟩
  · cases hlen
  · exact absurd hlen (by simp)
  · -- a second token would end further on
    obtain ⟨hahead', -, hks⟩ := hks.token_of_not_slash hslash
    obtain rfl := Option.some.inj (hahead'.symm.trans hahead)
    have hplain : Token.isPlain _ = true := (congrArg Token.isPlain hx).trans rfl
    obtain ⟨c, -, hbegins, hcode', -⟩ := h.code_cursor hcode hahead
    have hlt := hpast.stop_lt (hbegins.not_inTemplate hcode' hplain) hks
    exact absurd hstop hlt.ne

/-- the state before the first token -/
theorem placed_load (text : String) :
    (load (Cursor.ofText text.toList) 0 []).Placed (countedText text) where
  loaded := rfl
  stands := (standsIn_ofText text).1
  offset := (standsIn_ofText text).2
  opened := by rintro ⟨_, ⟨⟩, _⟩

end ReaderState

/-! ### Stretches of the text -/

theorem dropBytes?_eq_some {n : Nat} {cs r : List Char} (h : dropBytes? n cs = some r) :
    ∃ b, cs = b ++ r ∧ byteLength b = n := by
  fun_induction dropBytes? n cs with
  | case1 cs => exact ⟨[], Option.some.inj h, rfl⟩
  | case2 => cases h
  | case3 n c cs hle ih =>
    obtain ⟨b, rfl, hb⟩ := ih h
    exact ⟨c :: b, rfl, by rw [byteLength_cons]; omega⟩
  | case4 => cases h

theorem takeBytes?_eq_some {n : Nat} {cs b : List Char} (h : takeBytes? n cs = some b) :
    b <+: cs ∧ byteLength b = n := by
  fun_induction takeBytes? n cs generalizing b with
  | case1 cs =>
    cases h
    exact ⟨List.nil_prefix, rfl⟩
  | case2 => cases h
  | case3 n c cs hle ih =>
    obtain ⟨b', hb', rfl⟩ := Option.map_eq_some_iff.1 h
    obtain ⟨hstarts, hlen⟩ := ih hb'
    exact ⟨(List.prefix_cons_inj c).2 hstarts, by rw [byteLength_cons]; omega⟩
  | case4 => cases h

theorem slice_eq {s : Source} {x : Extent} {w : List Char} (hne : w ≠ [])
    (h : s.slice x = String.ofList w) :
    ∃ b v, s.text.toList = b ++ (w ++ v) ∧ byteLength b = x.start ∧
      x.stop = x.start + byteLength w := by
  have h : ((dropBytes? x.start s.text.toList).bind (takeBytes? (x.stop - x.start))).getD [] = w :=
    String.ofList_injective h
  cases hcut : (dropBytes? x.start s.text.toList).bind (takeBytes? (x.stop - x.start)) with
  | none =>
    rw [hcut] at h
    exact absurd h.symm hne
  | some w' =>
    rw [hcut] at h
    obtain rfl : w' = w := h
    obtain ⟨r, hdrop, htake⟩ := Option.bind_eq_some_iff.1 hcut
    obtain ⟨b, hb, hstart⟩ := dropBytes?_eq_some hdrop
    obtain ⟨⟨v, hv⟩, hlen⟩ := takeBytes?_eq_some htake
    refine ⟨b, v, by rw [hb, hv], hstart, ?_⟩
    have hpos : byteLength w' ≠ 0 := fun h0 => hne (byteLength_eq_zero.1 h0)
    omega

theorem byteLength_lower {w : List Char} (h : ∀ c ∈ w, c.isLower = true) :
    byteLength w = w.length := by
  induction w with
  | nil => rfl
  | cons c w ih =>
    have hc := lower_bounds (h c List.mem_cons_self)
    have hsize : c.utf8Size = 1 := by
      rw [Char.utf8Size, if_pos]
      exact UInt32.le_iff_toNat_le.2 (hc.2.trans (by decide))
    rw [byteLength_cons, hsize, ih fun x hx => h x (List.mem_cons_of_mem c hx), List.length_cons,
      Nat.add_comm]

/-! ### Words as arguments -/

theorem countedText_of_not_isMarked {text : String} (h : ¬ IsMarked text) :
    countedText text = text.toList := by
  unfold countedText Cursor.ofText
  split
  · rename_i rest htext
    exact absurd (by rw [IsMarked, htext, List.head?_cons]) h
  · rfl

theorem countedText_of_isMarked {text : String} (h : IsMarked text) :
    text.toList = '\ufeff' :: countedText text := by
  obtain ⟨cs, hcs⟩ := List.head?_eq_some_iff.1 h
  rw [countedText, hcs]
  rfl

/-- Behind a byte order mark the sources of arguments are cut out three bytes too early.  No word of
three letters or more is cut out so: it would reach up to where the argument begins. -/
theorem not_isMarked_of_slice {s : Source} {x : Extent} {w : List Char}
    (hno : NoLetterBefore (countedText s.text) x.start) (hw : ∀ c ∈ w, c.isLower = true)
    (hlong : 3 ≤ w.length) (hslice : s.slice x = String.ofList w) : ¬ IsMarked s.text := by
  intro hmarked
  have hne : w ≠ [] := fun hnil => by simp [hnil] at hlong
  obtain ⟨b, v, htext, hb, -⟩ := slice_eq hne hslice
  rw [countedText_of_isMarked hmarked] at htext
  rcases b with _ | ⟨m, b⟩
  · obtain ⟨c, w, rfl⟩ := List.exists_cons_of_ne_nil hne
    obtain rfl : '\ufeff' = c := (List.cons.inj htext).1
    exact absurd (hw '\ufeff' List.mem_cons_self) (by decide)
  · obtain ⟨rfl, hcs⟩ := List.cons.inj (htext.trans (List.cons_append ..))
    have htake : ∀ c ∈ w.take 3, c.isLower = true := fun c hc => hw c (List.mem_of_mem_take hc)
    have hthree : (w.take 3).length = 3 := by rw [List.length_take, Nat.min_eq_left hlong]
    have hcut : countedText s.text = (b ++ w.take 3) ++ (w.drop 3 ++ v) := by
      calc countedText s.text
        _ = b ++ ((w.take 3 ++ w.drop 3) ++ v) := by rw [List.take_append_drop, hcs]
        _ = (b ++ w.take 3) ++ (w.drop 3 ++ v) := by simp only [List.append_assoc]
    have hbefore : byteLength (b ++ w.take 3) = x.start := by
      rw [byteLength_append, byteLength_lower htake, hthree, ← hb, byteLength_cons, Nat.add_comm]
      rfl
    have hlast := hno _ _ hcut hbefore
    have hsome : w.take 3 ≠ [] := List.ne_nil_of_length_pos (by omega)
    have hlower := htake _ (List.getLast_mem hsome)
    rw [hlast _ (by rw [List.getLast?_append, List.getLast?_eq_some_getLast hsome]; rfl)] at hlower
    cases hlower

open Chain (links objectLinks)

/-- **Words as arguments.**  If the source of an argument is a word that can be nothing but a name,
the argument is the variable of this name. -/
theorem isVariable_of_slice {text : String} {s : Source} (h : readSource text = .ok s)
    {l : Chain.Link} (hl : l ∈ links s.expr ++ objectLinks s.expr) {a : Argument Expr}
    (ha : a ∈ l.args) {w : List Char} (hfree : (Token.word (String.ofList w)).isFree = true)
    (hw : ∀ c ∈ w, c.isLower = true) (hlong : 3 ≤ w.length)
    (hslice : s.slice a.extent = String.ofList w) :
    a.value.IsVariable (String.ofList w) := by
  have hne : w ≠ [] := fun hnil => by simp [hnil] at hlong
  obtain ⟨t, hholds, -⟩ := readSource_holdsArguments h
  obtain ⟨u, v, ⟨ls, hls, -⟩, -, hopened, hread, -⟩ := hholds l hl a ha
  obtain ⟨-, -, rfl⟩ := readSource_eq_ok h
  obtain ⟨hplaced, -⟩ := (ReaderState.placed_load s.text).reads hls
  have hstart : a.extent.start = u.position := by rw [hread.extent]
  have hend : a.extent.stop = v.stop := by rw [hread.extent]
  have hno := hplaced.noLetterBefore hopened hread.advances
  have hmarked := not_isMarked_of_slice (hstart ▸ hno) hw hlong hslice
  obtain ⟨b, r, htext, hb, hstop⟩ := slice_eq hne hslice
  obtain ⟨hahead, hone⟩ := hplaced.word (hplaced.opened hopened).1 hread.advances
    ((countedText_of_not_isMarked hmarked).trans htext) (hb.trans hstart)
    (by rw [← hend, hstop, hstart]) hne hw
  exact hread.names _ hahead hfree hone

end PageQuery.Script
