import PageQuery.Proofs.Cutting
import PageQuery.Proofs.Excerpts
import PageQuery.Proofs.Placement

/-!
# Stretches of a text that are read by themselves

The tokens that a part of a script is read from are the tokens of its text, if neither a regular
expression nor a substitution of a template is among them: these two depend on what stands before.

`Cursor.Abreast` relates a cursor in the script and one in the text of the part; `next_abreast` is the
step from one token to the next, `first_abreast` the one to the first token, which begins the part.
`exists_mirror` gives the excerpt that the part is.
-/

namespace PageQuery.Script

/-! ### Surroundings -/

/-- a token of a template without substitutions -/
def Token.IsOfText (t : Token) : Prop := t = .backquote ∨ ∃ b, t = .chunk b

namespace Surroundings

variable {s s' : Surroundings} {t : Token}

/-- no template is open -/
def InCode (s : Surroundings) : Prop := .template ∉ s.stack

/-- one template is open, and the next token stands in its text -/
def InText (s : Surroundings) : Prop := ∃ below, s.stack = .template :: below ∧ .template ∉ below

theorem InCode.close (h : s.InCode) : .template ∉ s.close.1 := by
  have hmem : ∀ {below}, below <:+ s.stack → .template ∉ below := fun hb hm => h (hb.mem hm)
  unfold Surroundings.close
  split
  · rename_i top rest hstack
    have hrest : rest <:+ s.stack := hstack ▸ List.suffix_cons _ _
    split
    · exact h
    · split
      · exact hmem ((List.suffix_cons _ _).trans hrest)
      · exact hmem ((List.suffix_cons _ _).trans hrest)
      · exact hmem hrest
      · exact hmem hrest
  · exact List.not_mem_nil

theorem InCode.push (h : s.InCode) {c : Surround} (hc : c ≠ .template) : .template ∉ c :: s.stack :=
  fun hm => (List.mem_cons.1 hm).elim (fun heq => hc heq.symm) h

/-- Nothing but a backquote opens a template. -/
theorem InCode.after (h : s.InCode) (ht : t ≠ .backquote) (newline : Bool) :
    (s.after t newline).InCode := by
  unfold InCode Surroundings.after
  cases t with
  | word w =>
    dsimp only
    split
    · exact h
    · split
      · split
        · refine h.push ?_
          split <;> decide
        · exact h
      · exact h
  | rightParen => exact h.close
  | rightBrace => exact h.close
  | colon =>
    dsimp only
    split
    · rename_i rest hstack
      exact fun hm => h (hstack ▸ List.mem_cons_of_mem _ hm)
    · rename_i rest hstack
      exact fun hm => h (hstack ▸ List.mem_cons_of_mem _ hm)
    · exact h
  | leftBrace =>
    refine h.push ?_
    split <;> decide
  | substitution => exact h.push (by decide)
  | leftParen =>
    have hne : ∀ b : Bool,
        (if b = true then Surround.statementParens else .parens) ≠ .template := by decide
    exact h.push (hne _)
  | backquote => exact absurd rfl ht
  | _ => exact h

theorem InCode.not_inText (h : s.InCode) : s.stack.head? ≠ some .template := by
  intro hhead
  obtain ⟨below, hbelow⟩ := List.head?_eq_some_iff.1 hhead
  exact h (hbelow ▸ List.mem_cons_self)

theorem InText.head? (h : s.InText) : s.stack.head? = some .template := by
  obtain ⟨below, hbelow, -⟩ := h
  rw [hbelow, List.head?_cons]

theorem InCode.after_backquote (h : s.InCode) (newline : Bool) :
    (s.after .backquote newline).InText := by
  refine ⟨s.stack, ?_, h⟩
  have hno : (s.stack.head? == some .template) = false := beq_eq_false_iff_ne.2 h.not_inText
  simp [Surroundings.after, hno]

theorem InText.after_backquote (h : s.InText) (newline : Bool) :
    (s.after .backquote newline).InCode := by
  obtain ⟨below, hbelow, hno⟩ := h
  simpa [InCode, Surroundings.after, hbelow] using hno

/-- Both stand in code, or both in the text of a template behind the same token. -/
inductive Level : Surroundings → Surroundings → Prop
  | code {s s' : Surroundings} : s.InCode → s'.InCode → Level s s'
  | text {s s' : Surroundings} : s.InText → s'.InText → s.previous = s'.previous → Level s s'

theorem Level.after (h : Level s s') (ht : s.InText → t.IsOfText)
    (newline newline' : Bool) : Level (s.after t newline) (s'.after t newline') := by
  cases h with
  | code hs hs' =>
    by_cases hquote : t = .backquote
    · subst hquote
      exact .text (hs.after_backquote _) (hs'.after_backquote _) rfl
    · exact .code (hs.after hquote _) (hs'.after hquote _)
  | text hs hs' _ =>
    obtain rfl | ⟨b, rfl⟩ := ht hs
    · exact .code (hs.after_backquote _) (hs'.after_backquote _)
    · exact .text hs hs' rfl

theorem Level.head?_iff (h : Level s s') :
    s.stack.head? = some .template ↔ s'.stack.head? = some .template := by
  cases h with
  | code hs hs' => exact iff_of_false hs.not_inText hs'.not_inText
  | text hs hs' _ => exact iff_of_true hs.head? hs'.head?

end Surroundings

/-! ### Tokens in templates -/

/-- a backquote or a substitution stands at the start of the text -/
def EndsChunk (cs : List Char) : Prop :=
  (∃ ds, cs = '\x60' :: ds) ∨ ∃ ds, cs = '$' :: '\x7b' :: ds

theorem cutChunk_ends {cs b rest : List Char} (h : cutChunk cs = some (b, rest)) :
    EndsChunk rest := by
  fun_induction cutChunk cs generalizing b with
  | case1 => cases h
  | case2 cs =>
    cases h
    exact .inl ⟨cs, rfl⟩
  | case3 cs =>
    cases h
    exact .inr ⟨cs, rfl⟩
  | case4 c cs ih =>
    obtain ⟨⟨b, r⟩, hr, hb⟩ := Option.map_eq_some_iff.1 h
    cases hb
    exact ih hr
  | case5 c cs _ _ _ ih =>
    obtain ⟨⟨b, r⟩, hr, hb⟩ := Option.map_eq_some_iff.1 h
    cases hb
    exact ih hr

section

variable {previous : Option Token} {cs rest : List Char} {t : Token}

/-- The token is a backquote, or a run of text that goes on as far as it can. -/
theorem readTemplateToken_cases (h : readTemplateToken previous cs = (t, rest)) :
    t = .invalid ∨ t = .substitution ∨ t = .backquote ∧ cs = '\x60' :: rest ∨
      ∃ b, t = .chunk b ∧ EndsChunk rest := by
  unfold readTemplateToken at h
  split at h
  · obtain ⟨rfl, rfl⟩ := Prod.mk.inj h
    exact .inr (.inr (.inl ⟨rfl, rfl⟩))
  · exact .inr (.inl (Prod.mk.inj h).1.symm)
  · unfold readChunk at h
    split at h
    · rename_i body rest hcut
      obtain ⟨rfl, rfl⟩ := Prod.mk.inj h
      exact .inr (.inr (.inr ⟨_, rfl, cutChunk_ends hcut⟩))
    · exact .inl (Prod.mk.inj h).1.symm

theorem isOfText_readTemplateToken (h : readTemplateToken previous cs = (t, rest))
    (ht : t ≠ .invalid) (hs : t ≠ .substitution) : t.IsOfText := by
  obtain rfl | rfl | ⟨rfl, -⟩ | ⟨b, rfl, -⟩ := readTemplateToken_cases h
  · exact absurd rfl ht
  · exact absurd rfl hs
  · exact .inl rfl
  · exact .inr ⟨b, rfl⟩

theorem endsChunk_of_readTemplateToken {b : Option String}
    (h : readTemplateToken previous cs = (.chunk b, rest)) : EndsChunk rest := by
  obtain h | h | ⟨h, -⟩ | ⟨_, -, h⟩ := readTemplateToken_cases h
  · cases h
  · cases h
  · cases h
  · exact h

theorem readTemplateToken_backquote (h : readTemplateToken previous cs = (.backquote, rest)) :
    cs = '\x60' :: rest := by
  obtain h | h | ⟨-, h⟩ | ⟨_, h, -⟩ := readTemplateToken_cases h
  · cases h
  · cases h
  · exact h
  · cases h

end

/-! ### Cursors -/

namespace Cursor

variable {c c' d : Cursor} {l : Lexeme} {post w u : List Char} {n : Nat} {t : Token}

/-- a step outside of the text of templates, to a token `t` -/
theorem next_of_code {e : GapEnd} {chars rest : List Char}
    (hstart : (c.fresh && ['#', '!'].isPrefixOf c.chars) = false) (ht : ¬ c.InTemplate)
    (hgap : c.gap = e) (hclosed : e.closed = true) (hchars : e.chars = chars)
    (hnull : chars.head? ≠ some '\x00') (hread : readToken chars = some (t, rest)) :
    c.next = (some (c.accept t e.start e.offset e.newline chars rest).1,
      (c.accept t e.start e.offset e.newline chars rest).2) := by
  subst hgap hchars
  have hnil : c.gap.chars ≠ [] := by
    intro hnil
    rw [hnil] at hread
    cases hread
  have ht' : (c.surroundings.stack.head? == some .template) = false := beq_eq_false_iff_ne.2 ht
  unfold gap at *
  unfold next
  rw [hstart, if_neg nofun, ht', if_neg nofun]
  dsimp only
  rw [hclosed, Bool.not_true, if_neg nofun]
  split
  · rename_i h
    exact absurd h hnil
  · rename_i rest h
    exact absurd (by rw [h]; rfl) hnull
  · rw [hread]
    rfl

/-- a step in the text of a template, to a token `t` -/
theorem next_of_text {rest : List Char} (hfresh : c.fresh = false) (ht : c.InTemplate)
    (hne : c.chars ≠ [])
    (hread : readTemplateToken c.surroundings.previous c.chars = (t, rest)) :
    c.next = (some (c.accept t c.offset c.offset false c.chars rest).1,
      (c.accept t c.offset c.offset false c.chars rest).2) := by
  have ht' : (c.surroundings.stack.head? == some .template) = true := beq_iff_eq.2 ht
  unfold next
  rw [hfresh, Bool.false_and, if_neg nofun, ht', if_pos rfl,
    if_neg (fun h => hne (List.isEmpty_iff.1 h)), hread]

/-- how a step comes to a token -/
inductive Comes (c : Cursor) : Lexeme → Cursor → Prop
  | shebang {rest : List Char} : c.fresh = true →
    Comes c (c.accept .shebang c.offset c.offset true c.chars rest).1
      { (c.accept .shebang c.offset c.offset true c.chars rest).2 with fresh := true }
  | code {t : Token} {rest : List Char} : ¬ c.InTemplate → c.gap.closed = true →
    c.gap.chars.head? ≠ some '\x00' → readToken c.gap.chars = some (t, rest) →
    Comes c (c.accept t c.gap.start c.gap.offset c.gap.newline c.gap.chars rest).1
      (c.accept t c.gap.start c.gap.offset c.gap.newline c.gap.chars rest).2
  | text {t : Token} {rest : List Char} : c.InTemplate → c.chars ≠ [] →
    readTemplateToken c.surroundings.previous c.chars = (t, rest) →
    Comes c (c.accept t c.offset c.offset false c.chars rest).1
      (c.accept t c.offset c.offset false c.chars rest).2

theorem comes_of_next (h : c.next = (some l, d)) (hl : l.token ≠ .invalid) : c.Comes l d := by
  revert h
  fun_cases next c with
  | case1 hstart =>
    rintro ⟨⟩
    exact .shebang (Bool.and_eq_true_iff.1 hstart).1
  | case2 => rintro ⟨⟩
  | case3 _ htemplate hne t rest hread =>
    rintro ⟨⟩
    exact .text (eq_of_beq htemplate) (fun h => hne (List.isEmpty_iff.2 h)) hread
  | case4 =>
    rintro ⟨⟩
    exact absurd rfl hl
  | case5 => rintro ⟨⟩
  | case6 => rintro ⟨⟩
  | case7 => rintro ⟨⟩
  | case8 _ htemplate gap hclosed t rest hnil hnull hread =>
    rintro ⟨⟩
    refine .code (fun h => htemplate (beq_iff_eq.2 h)) ?_ ?_ hread
    · exact Bool.not_eq_false _ |>.mp fun hfalse => hclosed (Bool.not_eq_true' _ |>.mpr hfalse)
    · intro hhead
      obtain ⟨ds, hds⟩ := List.head?_eq_some_iff.1 hhead
      exact hnull ds hds

/-- `c` stands before the text that `c'` stands before and `post`, so many bytes further on. -/
structure Abreast (post : List Char) (n : Nat) (c c' : Cursor) : Prop where
  chars : c.chars = c'.chars ++ post
  offset : c.offset = c'.offset + n
  fresh : c.fresh = false
  fresh' : c'.fresh = false
  level : c.surroundings.Level c'.surroundings

theorem Abreast.inTemplate_iff (h : c.Abreast post n c') : c.InTemplate ↔ c'.InTemplate :=
  h.level.head?_iff

/-- The same token behind two cursors. -/
theorem accept_abreast {start start' at_ at' : Nat} {newline newline' : Bool}
    (hlevel : (c.surroundings.after t newline).Level (c'.surroundings.after t newline'))
    (hstart : start = start' + n) (hat : at_ = at' + n) :
    (c.accept t start at_ newline (u ++ (w ++ post)) (w ++ post)).1.Moved n
        (c'.accept t start' at' newline' (u ++ w) w).1 ∧
      (c.accept t start at_ newline (u ++ (w ++ post)) (w ++ post)).2.Abreast post n
        (c'.accept t start' at' newline' (u ++ w) w).2 := by
  have htake : ∀ r : List Char, (u ++ r).take ((u ++ r).length - r.length) = u := fun r => by simp
  have hstop : at_ + byteLength u = at' + byteLength u + n := by omega
  unfold accept
  rw [htake, htake]
  exact ⟨⟨rfl, hstart, hstop⟩, ⟨rfl, hstop, rfl, rfl, hlevel⟩⟩

/-- Where a gap ends in front of a part of a text, with a text behind it and without. -/
theorem gap_of_skips {r g : List Char} {ended : Bool} {mark : Option Nat} (hc : c.chars = g ++ r)
    (h : Gap.code.Skips c.fresh g r ended mark) :
    c.gap = ⟨r, c.offset + byteLength g, ended, true, mark.map (c.offset + ·)⟩ := by
  rw [gap, hc, h, Option.none_or]

theorem start_moved (r r' : List Char) (o k : Nat) (ended ended' : Bool) (mark : Option Nat) :
    GapEnd.start ⟨r, o + n + k, ended, true, mark.map (o + n + ·)⟩ =
      GapEnd.start ⟨r', o + k, ended', true, mark.map (o + ·)⟩ + n := by
  cases mark with
  | none =>
    show o + n + k = o + k + n
    omega
  | some m =>
    show o + n + m = o + m + n
    omega

/-- `c'` comes to the token `l` as well, and is abreast of `d` behind it. -/
def Follows (c' : Cursor) (post : List Char) (n : Nat) (l : Lexeme) (d : Cursor) : Prop :=
  ∃ l' d', c'.next = (some l', d') ∧ l.Moved n l' ∧ l.newline = l'.newline ∧ d.Abreast post n d'

theorem follows_of_code (h : c.Abreast post n c') (hcode : ¬ c.InTemplate)
    (hnull : c.gap.chars.head? ≠ some '\x00')
    (hread : readToken c.gap.chars = some (t, w ++ post)) (ht : t ≠ .invalid) :
    c'.Follows post n
      (c.accept t c.gap.start c.gap.offset c.gap.newline c.gap.chars (w ++ post)).1
      (c.accept t c.gap.start c.gap.offset c.gap.newline c.gap.chars (w ++ post)).2 := by
  have hcode' : ¬ c'.InTemplate := fun htemplate => hcode (h.inTemplate_iff.2 htemplate)
  obtain ⟨hchars, hoffset, hfresh, hfresh', hlevel⟩ := h
  obtain ⟨u, hu, hread'⟩ := readToken_cut hread ht
  have hne : u ++ w ≠ [] := by
    intro hnil
    rw [hnil] at hread'
    cases hread'
  rw [← List.append_assoc] at hu
  obtain ⟨g, ended, mark, hg, hskips, -⟩ := skipGap_cut hu hne
  have hg' : c'.chars = g ++ (u ++ w) := by
    rw [hchars, ← List.append_assoc g, List.append_cancel_right_eq] at hg
    exact hg
  have hgap := gap_of_skips hg (hskips _ (.inr rfl))
  have hgap' := gap_of_skips hg' (by rw [hfresh', ← hfresh]; exact hskips _ (.inl rfl))
  have hnull' : (u ++ w).head? ≠ some '\x00' := by
    rwa [hgap, List.head?_append_of_ne_nil _ hne] at hnull
  have hnext' := next_of_code (by rw [hfresh', Bool.false_and]) hcode' hgap' rfl rfl hnull' hread'
  refine ⟨_, _, hnext', ?_⟩
  rw [hgap, hoffset]
  dsimp only
  rw [List.append_assoc]
  have hlevel' := hlevel.after (t := t) (fun h => absurd h.head? hcode) ended ended
  obtain ⟨hmoved, habreast⟩ := accept_abreast (u := u) (w := w) hlevel'
    (start_moved (u ++ (w ++ post)) (u ++ w) c'.offset (byteLength g) ended ended mark)
    (Nat.add_right_comm _ n (byteLength g))
  exact ⟨hmoved, rfl, habreast⟩

/-- The text of a template is followed up to a backquote. -/
theorem follows_of_text (h : c.Abreast post n c') (htext : c.InTemplate)
    (hread : readTemplateToken c.surroundings.previous c.chars = (t, w ++ post))
    (ht : t ≠ .invalid) (hs : t ≠ .substitution)
    (hchunk : (∃ b, t = .chunk b) → w.head? = some '\x60') :
    c'.Follows post n (c.accept t c.offset c.offset false c.chars (w ++ post)).1
      (c.accept t c.offset c.offset false c.chars (w ++ post)).2 := by
  have htext' : c'.InTemplate := h.inTemplate_iff.1 htext
  obtain ⟨hchars, hoffset, hfresh, hfresh', hlevel⟩ := h
  have hkind : t.IsOfText := isOfText_readTemplateToken hread ht hs
  obtain ⟨u, hu, hread'⟩ := readTemplateToken_cut hread ht hs fun hquote =>
    hchunk (hkind.resolve_left hquote)
  have hu' : c'.chars = u ++ w := by
    rw [hchars, ← List.append_assoc, List.append_cancel_right_eq] at hu
    exact hu
  have hprevious : c.surroundings.previous = c'.surroundings.previous := by
    cases hlevel with
    | code hs _ => exact absurd htext hs.not_inText
    | text _ _ h => exact h
  rw [hprevious, ← hu'] at hread'
  have hne' : c'.chars ≠ [] := by
    intro hnil
    rw [hnil, readTemplateToken_text (fun _ _ _ h => by cases h) fun _ _ _ h => by cases h]
      at hread'
    exact ht (Prod.mk.inj hread').1.symm
  refine ⟨_, _, next_of_text hfresh' htext' hne' hread', ?_⟩
  rw [hu, hu']
  obtain ⟨hmoved, habreast⟩ := accept_abreast (u := u) (w := w)
    (hlevel.after (fun _ => hkind) false false) hoffset hoffset
  exact ⟨hmoved, rfl, habreast⟩

/-- **A step of both.**  From cursors that are abreast the same token is read, as long as the part
that `c'` reads goes on: the text of a template up to a backquote. -/
theorem next_abreast (h : c.Abreast post n c') (hnext : c.next = (some l, d))
    (hl : l.token ≠ .invalid) (hs : l.token ≠ .substitution) (hd : d.chars = w ++ post)
    (hchunk : c.InTemplate → (∃ b, l.token = .chunk b) → w.head? = some '\x60') :
    c'.Follows post n l d := by
  cases comes_of_next hnext hl with
  | shebang hstart => exact absurd hstart (h.fresh ▸ Bool.false_ne_true)
  | @code t rest hcode _ hnull hread =>
    obtain rfl : rest = w ++ post := hd
    exact follows_of_code h hcode hnull hread hl
  | @text t rest htext _ hread =>
    obtain rfl : rest = w ++ post := hd
    exact follows_of_text h htext hread hl hs (hchunk htext)

/-- The gap `g` in front of `x` ends the same in the text `g ++ x` by itself, which begins where what
stands behind the gap of `c` does. -/
structure OpensBy (c : Cursor) (x g : List Char) (ended : Bool) (mark : Option Nat) : Prop where
  gap : gap { chars := g ++ x } = ⟨x, 0 + byteLength g, ended, true, mark.map (0 + ·)⟩
  offset : c.gap.offset = c.gap.start + byteLength g
  start : GapEnd.start ⟨x, 0 + byteLength g, ended, true, mark.map (0 + ·)⟩ = 0
  unmarked : ofText (g ++ x) = { chars := g ++ x }
  shebang : (true && ['#', '!'].isPrefixOf (g ++ x)) = false

theorem exists_opensBy {x : List Char} (hx : c.gap.chars = x ++ post) (hne : x ≠ [])
    (harrow : ¬ ['-', '-', '>'] <+: c.gap.chars) (hshebang : ¬ ['#', '!'] <+: c.gap.chars) :
    ∃ pre g ended mark, c.chars = pre ++ ((g ++ x) ++ post) ∧
      c.gap.start = c.offset + byteLength pre ∧ c.OpensBy x g ended mark := by
  have hgapne : c.gap.chars ≠ [] := hx ▸ List.append_ne_nil_of_left_ne_nil hne post
  obtain ⟨r, ⟨pre, hpre, hstart⟩, ⟨b, hsame⟩, hmarked⟩ := skipGap_restarts hgapne harrow
  change c.gap.start = c.offset + byteLength pre at hstart
  change skipGap .code r c.gap.start true none = { c.gap with newline := b } at hsame
  obtain ⟨g, ended, mark, rfl, hskips, -⟩ := skipGap_cut ((congrArg GapEnd.chars hsame).trans hx) hne
  have hwhole := (hskips _ (.inr rfl) c.gap.start none).symm.trans hsame
  have hoffset : c.gap.offset = c.gap.start + byteLength g := (congrArg GapEnd.offset hwhole).symm
  have hmark : c.gap.mark = mark.map (c.gap.start + ·) :=
    (congrArg GapEnd.mark hwhole).symm.trans Option.none_or
  refine ⟨pre, g, ended, mark, by rw [hpre, List.append_assoc], hstart, ?_, hoffset, ?_, ?_, ?_⟩
  · exact gap_of_skips rfl (hskips _ (.inl rfl))
  · have hself : c.gap.start = (mark.map (c.gap.start + ·)).getD (c.gap.start + byteLength g) := by
      rw [← hmark, ← hoffset]
      rfl
    cases mark with
    | none =>
      have hself : c.gap.start = c.gap.start + byteLength g := hself
      show 0 + byteLength g = 0
      omega
    | some m =>
      have hself : c.gap.start = c.gap.start + m := hself
      show 0 + m = 0
      omega
  · unfold ofText
    split
    · rename_i rest heq
      rw [← List.append_assoc,
        List.head?_append_of_ne_nil _ (List.append_ne_nil_of_right_ne_nil g hne), heq] at hmarked
      exact absurd rfl hmarked
    · rfl
  · -- no gap begins with a number sign
    rw [Bool.true_and, Bool.eq_false_iff, ne_eq, List.isPrefixOf_iff_prefix]
    rintro ⟨ds, hds⟩
    have hsolid : Solid true '#' ('!' :: ds) := ⟨nofun, nofun, nofun, nofun, rfl, by decide⟩
    have hstop := hsolid.skips 0 none
    rw [List.nil_append, show '#' :: '!' :: ds = g ++ x from hds] at hstop
    have hends := (hskips _ (.inl rfl) 0 none).symm.trans hstop
    have hg : x = '#' :: '!' :: ds := (congrArg GapEnd.chars hends).trans hds.symm
    exact hshebang ⟨ds ++ post, by rw [hx, hg]; rfl⟩

/-- A text by itself begins outside of templates. -/
theorem inCode_start : ({} : Surroundings).InCode := by
  unfold Surroundings.InCode
  decide

theorem inCode_ofText (cs : List Char) : (ofText cs).surroundings.InCode := by
  unfold ofText
  split
  · exact inCode_start
  · exact inCode_start

theorem le_length_ofText (cs : List Char) : cs.length ≤ (ofText cs).chars.length + 1 := by
  unfold ofText
  split
  · exact le_rfl
  · exact Nat.le_succ _

theorem length_ofText_le (cs : List Char) : (ofText cs).chars.length ≤ cs.length := by
  unfold ofText
  split
  · exact Nat.le_succ _
  · exact le_rfl

/-- **The first step.**  A token begins a text of its own, with the comments in front of it that
count as its beginning. -/
theorem first_abreast (hfresh : c.fresh = false) (hcode : c.surroundings.InCode)
    (hnext : c.next = (some l, d)) (hl : l.token ≠ .invalid) (hd : d.chars = w ++ post)
    (harrow : ¬ ['-', '-', '>'] <+: c.gap.chars) (hshebang : ¬ ['#', '!'] <+: c.gap.chars) :
    ∃ pre mid, c.chars = pre ++ (mid ++ post) ∧ l.start = c.offset + byteLength pre ∧
      ∃ l' d', (ofText mid).next = (some l', d') ∧ l.Moved l.start l' ∧
        d.Abreast post l.start d' := by
  cases comes_of_next hnext hl with
  | shebang hstart => exact absurd hstart (hfresh ▸ Bool.false_ne_true)
  | text htext _ _ => exact absurd htext hcode.not_inText
  | @code t rest _ hclosed hnull hread =>
    obtain rfl : rest = w ++ post := hd
    obtain ⟨u, hu, hread'⟩ := readToken_cut hread hl
    have hne : u ++ w ≠ [] := by
      intro hnil
      rw [hnil] at hread'
      cases hread'
    have hgapchars : c.gap.chars = (u ++ w) ++ post := by rw [hu, List.append_assoc]
    have hnull' : (u ++ w).head? ≠ some '\x00' := by
      rwa [hgapchars, List.head?_append_of_ne_nil _ hne] at hnull
    obtain ⟨pre, g, ended, mark, hpre, hstart, hopens⟩ :=
      exists_opensBy hgapchars hne harrow hshebang
    have hcode' : ¬ InTemplate { chars := g ++ (u ++ w) } := inCode_start.not_inText
    have hnext' := next_of_code hopens.shebang hcode' hopens.gap rfl rfl hnull' hread'
    have hlevel : c.surroundings.Level ({} : Surroundings) := .code hcode inCode_start
    have hafter := hlevel.after (t := t) (fun h => absurd h.head? hcode.not_inText) c.gap.newline ended
    refine ⟨pre, g ++ (u ++ w), hpre, hstart, ?_⟩
    rw [hopens.unmarked]
    refine ⟨_, _, hnext', ?_⟩
    rw [hu]
    refine accept_abreast hafter ?_ ?_
    · rw [hopens.start, Nat.zero_add]
      rfl
    · rw [hopens.offset]
      show _ = 0 + byteLength g + c.gap.start
      omega

/-- Templates are not nested, a text begins outside of them, and a run of a template's text goes on
as far as it can. -/
structure Steady (c : Cursor) : Prop where
  level : c.surroundings.Level c.surroundings
  start : c.fresh = true → c.surroundings.InCode
  chunk : c.InTemplate → ∀ b, c.surroundings.previous = some (.chunk b) → EndsChunk c.chars

theorem Steady.inCode (h : c.Steady) (ht : ¬ c.InTemplate) : c.surroundings.InCode := by
  cases h.level with
  | code h _ => exact h
  | text h _ _ => exact absurd h.head? ht

theorem lookAhead_of_nil (h : c.chars = []) : c.lookAhead.1 = none := by
  have hnone := next_of_nil h
  have hsuffix := c.next_suffix
  unfold lookAhead
  rcases hnext : c.next with ⟨_ | l, c'⟩
  · rw [hnext, h] at hsuffix
    exact next_of_nil (List.suffix_nil.1 hsuffix)
  · rw [hnext] at hnone
    cases hnone

/-- a step outside of the text of templates -/
theorem Steady.code (h : c.Steady) (hfresh : c.fresh = false) (ht : ¬ c.InTemplate)
    (hnext : c.next = (some l, d)) (hl : l.token ≠ .invalid) :
    readToken c.gap.chars = some (l.token, d.chars) ∧ d.fresh = false ∧
      (l.token ≠ .backquote → d.surroundings.InCode) := by
  cases comes_of_next hnext hl with
  | shebang hstart => exact absurd hstart (hfresh ▸ Bool.false_ne_true)
  | code _ _ _ hread => exact ⟨hread, rfl, fun hquote => (h.inCode ht).after hquote _⟩
  | text htext _ _ => exact absurd htext ht

/-- a step in the text of a template -/
theorem Steady.text (h : c.Steady) (ht : c.InTemplate) (hnext : c.next = (some l, d))
    (hl : l.token ≠ .invalid) :
    readTemplateToken c.surroundings.previous c.chars = (l.token, d.chars) ∧
      d.surroundings = c.surroundings.after l.token false := by
  cases comes_of_next hnext hl with
  | shebang hfresh => exact absurd ht (h.start hfresh).not_inText
  | code hcode _ _ _ => exact absurd ht hcode
  | text _ _ hread => exact ⟨hread, rfl⟩

theorem Steady.inText (h : c.Steady) (ht : c.InTemplate) : c.surroundings.InText := by
  cases h.level with
  | code h _ => exact absurd ht h.not_inText
  | text h _ _ => exact h

theorem Steady.next (h : c.Steady) (hnext : c.next = (some l, d)) (hl : l.token ≠ .invalid)
    (hs : l.token ≠ .substitution) : d.Steady ∧ (l.token ≠ .shebang → d.fresh = false) := by
  cases comes_of_next hnext hl with
  | shebang hfresh =>
    have hcode := (h.start hfresh).after (t := .shebang) nofun true
    exact ⟨⟨.code hcode hcode, fun _ => hcode, fun ht => absurd ht hcode.not_inText⟩,
      fun hno => absurd rfl hno⟩
  | @code t _ hcode _ _ _ =>
    have hlevel := h.level.after (t := t) (fun ht => absurd ht.head? hcode) c.gap.newline c.gap.newline
    refine ⟨⟨hlevel, nofun, fun ht b hb => ?_⟩, fun _ => rfl⟩
    obtain rfl : t = .chunk b := Option.some.inj hb
    exact absurd ht ((h.inCode hcode).after (t := .chunk b) nofun c.gap.newline).not_inText
  | @text t _ _ _ hread =>
    have ht : t.IsOfText := isOfText_readTemplateToken hread hl hs
    refine ⟨⟨h.level.after (fun _ => ht) false false, nofun, fun _ b hb => ?_⟩, fun _ => rfl⟩
    obtain rfl : t = .chunk b := Option.some.inj hb
    exact endsChunk_of_readTemplateToken hread

end Cursor

/-! ### States -/

/-- the token depends on no more than its own text and what stands right behind it -/
def Token.standsAlone : Token → Bool
  | .regex => false
  | .substitution => false
  | _ => true

theorem Token.ne_substitution {t : Token} (h : t.standsAlone = true) : t ≠ .substitution := by
  rintro rfl
  cases h

namespace ReaderState

variable {cs w : List Char} {s s' t : ReaderState} {l : Lexeme} {ls : List Lexeme}

/-- In a text without null characters the token ahead is the one of the next step. -/
theorem Placed.next (h : s.Placed cs) (hnull : '\x00' ∉ cs) (hahead : s.ahead = some l) :
    s.before.next = (some l, s.after) := by
  obtain ⟨c, hc, hnext, -, rfl | hnone⟩ := h.cursor hahead
  · exact hnext
  · obtain ⟨u, v, hcs, -, -⟩ := h.stands.null_of_next hnone (congrArg Prod.fst hnext)
    exact absurd (by rw [hcs]; simp) hnull

/-- The cursor before the state is steady, and stands at the start of the text before the first token
only. -/
structure Steady (s : ReaderState) : Prop where
  before : s.before.Steady
  fresh : ∀ l ∈ s.taken.head?, l.token ≠ .shebang → s.before.fresh = false

theorem steady_load (cs : List Char) : (load (Cursor.ofText cs) 0 []).Steady := by
  have hcode := Cursor.inCode_ofText cs
  exact ⟨⟨.code hcode hcode, fun _ => hcode, fun ht => absurd ht hcode.not_inText⟩, nofun⟩

theorem Steady.past (h : s.Steady) (hs : s.Placed cs) (hnull : '\x00' ∉ cs)
    (hahead : s.ahead = some l) (hv : l.token ≠ .invalid) (hl : l.token.standsAlone = true) :
    (s.past l s.after).Steady := by
  obtain ⟨hsteady, hfresh⟩ := h.before.next (hs.next hnull hahead) hv (Token.ne_substitution hl)
  refine ⟨hsteady, ?_⟩
  rintro _ ⟨⟩
  exact hfresh

theorem not_standsAlone_of_regex {c : Cursor} (h : s.regexAhead = .ok (l, c)) :
    l.token.standsAlone ≠ true := by
  rw [token_regexAhead h]
  decide

theorem Steady.reads (h : s.Steady) (hs : s.Placed cs) (hnull : '\x00' ∉ cs) (hr : s.Reads ls t)
    (hls : ∀ l ∈ ls, l.token.standsAlone = true) : t.Steady := by
  induction hr with
  | nil _ => exact h
  | @token s t l ls hahead hv hr ih =>
    obtain ⟨hl, hls⟩ := List.forall_mem_cons.1 hls
    exact ih (h.past hs hnull hahead hv hl) (hs.past hahead).1 hls
  | regex hregex _ _ =>
    exact absurd (hls _ List.mem_cons_self) (not_standsAlone_of_regex hregex)

theorem Steady.fresh_of_opened (h : s.Steady) (ho : s.Opened) : s.before.fresh = false := by
  obtain ⟨k, hk, hopens⟩ := ho
  refine h.fresh k hk fun heq => ?_
  rw [heq] at hopens
  cases hopens

/-- In the text of a template no item ends. -/
theorem Steady.not_inTemplate (h : s.Steady) (hs : s.Placed cs) (hnull : '\x00' ∉ cs)
    (hend : s.EndsItem) : ¬ s.before.InTemplate := by
  intro htemplate
  obtain ⟨k, hk, hclose⟩ := hend
  obtain ⟨l, hahead, rfl⟩ := Option.map_eq_some_iff.1 hk
  have hvalid : l.token ≠ .invalid := fun heq => by
    rw [heq] at hclose
    cases hclose
  have hsub : l.token ≠ .substitution := fun heq => by
    rw [heq] at hclose
    cases hclose
  obtain ⟨hread, -⟩ := h.before.text htemplate (hs.next hnull hahead) hvalid
  obtain hquote | ⟨b, hchunk⟩ := isOfText_readTemplateToken hread hvalid hsub
  · rw [hquote] at hclose
    cases hclose
  · rw [hchunk] at hclose
    cases hclose

/-- Behind a run of a template's text the template goes on, with a backquote if there is no
substitution. -/
theorem Steady.head_of_chunk (h : s.Steady) (hs : s.Placed cs) (hnull : '\x00' ∉ cs)
    (htemplate : s.before.InTemplate) {b : Option String}
    (hprevious : s.before.surroundings.previous = some (.chunk b))
    (hr : s.Reads ls t) (hls : ∀ l ∈ ls, l.token.standsAlone = true) (hend : t.EndsItem)
    (hw : s.before.chars = w ++ t.before.chars) : w.head? = some '\x60' := by
  cases hr with
  | nil _ => exact absurd htemplate (h.not_inTemplate hs hnull hend)
  | regex hregex _ =>
    exact absurd (hls _ List.mem_cons_self) (not_standsAlone_of_regex hregex)
  | @token _ _ l ls hahead hv hr =>
    have hl := hls l List.mem_cons_self
    have hsuffix := ((hs.past hahead).1.reads hr).2
    obtain ⟨hread, -⟩ := h.before.text htemplate (hs.next hnull hahead) hv
    rw [hprevious] at hread
    obtain ⟨ds, hds⟩ | ⟨ds, hds⟩ := h.before.chunk htemplate b hprevious
    · rw [hds, readTemplateToken_chunk_backquote] at hread
      have hbehind : t.before.chars <:+ ds := (Prod.mk.inj hread).2 ▸ hsuffix
      cases w with
      | nil =>
        rw [hds] at hw
        exact absurd hbehind.length_le (by rw [← List.nil_append t.before.chars, ← hw]; simp)
      | cons x w => rw [List.head?_cons, (List.cons.inj (hds.symm.trans hw)).1]
    · rw [hds, readTemplateToken_chunk_substitution] at hread
      rw [← (Prod.mk.inj hread).1] at hl
      cases hl

/-- Behind a run of a template's text the template goes on. -/
theorem Steady.behind_chunk (h : s.Steady) (hnext : s.before.next = (some l, s.after))
    (hv : l.token ≠ .invalid) (htemplate : s.before.InTemplate) {b : Option String}
    (hb : l.token = .chunk b) :
    s.after.InTemplate ∧ s.after.surroundings.previous = some (.chunk b) := by
  obtain ⟨-, hsurroundings⟩ := h.before.text htemplate hnext hv
  rw [hb] at hsurroundings
  rw [Cursor.InTemplate, hsurroundings]
  exact ⟨htemplate, rfl⟩

theorem load_of_next {c d : Cursor} {stop : Nat} {taken : List Lexeme}
    (h : c.next = (some l, d)) :
    (load c stop taken).ahead = some l ∧ (load c stop taken).after = d := by
  have hlook : c.lookAhead = (some l, d) := by rw [Cursor.lookAhead, h]
  exact ⟨congrArg Prod.fst hlook, congrArg Prod.snd hlook⟩

/-- **Reading side by side.**  What is read up to the end of an excerpt is read from the text of the
excerpt as well, from where the cursors are abreast. -/
theorem track_of_abreast {x : Excerpt} (hr : s.Reads ls x.finish) (h : s.Steady) (hs : s.Placed cs)
    (hnull : '\x00' ∉ cs) (hls : ∀ l ∈ ls, l.token.standsAlone = true)
    (habreast : s.before.Abreast x.finish.before.chars x.shift s'.before)
    (hs' : s' = .load s'.before s'.stop s'.taken) : x.Track s s' := by
  generalize hfinish : x.finish = t at hr
  induction hr generalizing s' with
  | nil s =>
    subst hfinish
    have hnil : s'.before.chars = [] := List.append_left_eq_self.1 habreast.chars.symm
    refine .finish ?_
    rw [hs']
    exact Cursor.lookAhead_of_nil hnil
  | @token s t l ls hahead hv hr ih =>
    obtain ⟨hl, hls⟩ := List.forall_mem_cons.1 hls
    have hsub := Token.ne_substitution hl
    have hnext := hs.next hnull hahead
    obtain ⟨hpast, -⟩ := hs.past hahead
    have hsteady := h.past hs hnull hahead hv hl
    obtain ⟨w, hw⟩ := (hpast.reads hr).2
    have hw : s.after.chars = w ++ t.before.chars := hw.symm
    have hchunk : s.before.InTemplate → (∃ b, l.token = .chunk b) → w.head? = some '\x60' := by
      rintro htemplate ⟨b, hb⟩
      obtain ⟨htemplate', hprevious⟩ := h.behind_chunk hnext hv htemplate hb
      exact hsteady.head_of_chunk hpast hnull htemplate' hprevious hr hls (hfinish ▸ x.closed) hw
    obtain ⟨l', d', hnext', hmoved, hnewline, hbehind⟩ :=
      Cursor.next_abreast habreast hnext hv hsub (hfinish ▸ hw) hchunk
    obtain ⟨hahead', hafter'⟩ : s'.ahead = some l' ∧ s'.after = d' := by
      rw [hs']
      exact load_of_next hnext'
    refine .token hahead hahead' hv hmoved (fun _ => hnewline) ?_
    rw [hafter']
    exact ih hsteady hpast hls hbehind rfl hfinish
  | regex hregex _ _ =>
    exact absurd (hls _ List.mem_cons_self) (not_standsAlone_of_regex hregex)

/-- There are no more than twice as many tokens as characters: a run of a template's text may be empty,
but a backquote follows it. -/
theorem Steady.length_le (h : s.Steady) (hs : s.Placed cs) (hnull : '\x00' ∉ cs) (hr : s.Reads ls t)
    (hls : ∀ l ∈ ls, l.token.standsAlone = true) :
    ls.length + 2 * t.before.chars.length ≤ 2 * s.before.chars.length + 1 ∧
      (¬ s.before.InTemplate ∨ (∃ b, s.before.surroundings.previous = some (.chunk b)) →
        ls.length + 2 * t.before.chars.length ≤ 2 * s.before.chars.length) := by
  induction hr with
  | nil _ => simp
  | @token s t l ls hahead hv hr ih =>
    obtain ⟨hl, hls⟩ := List.forall_mem_cons.1 hls
    have hsub := Token.ne_substitution hl
    have hnext := hs.next hnull hahead
    obtain ⟨hpast, hsuffix⟩ := hs.past hahead
    obtain ⟨ih1, ih2⟩ := ih (h.past hs hnull hahead hv hl) hpast hls
    change _ ≤ 2 * s.after.chars.length + 1 at ih1
    change _ → _ ≤ 2 * s.after.chars.length at ih2
    rw [List.length_cons]
    by_cases htemplate : s.before.InTemplate
    · obtain ⟨hread, hsurroundings⟩ := h.before.text htemplate hnext hv
      obtain hquote | ⟨b, hchunk⟩ := isOfText_readTemplateToken hread hv hsub
      · -- behind the backquote there is no template
        rw [hquote] at hread hsurroundings
        have hlt : s.before.chars.length = s.after.chars.length + 1 := by
          rw [readTemplateToken_backquote hread, List.length_cons]
        have hcode : ¬ s.after.InTemplate := by
          unfold Cursor.InTemplate
          rw [hsurroundings]
          exact ((h.before.inText htemplate).after_backquote false).not_inText
        have := ih2 (.inl hcode)
        exact ⟨by omega, fun _ => by omega⟩
      · obtain ⟨-, hprevious⟩ := h.behind_chunk hnext hv htemplate hchunk
        rw [hchunk] at hread
        have hle := hsuffix.length_le
        have := ih2 (.inr ⟨b, hprevious⟩)
        refine ⟨by omega, fun hor => ?_⟩
        -- a run does not follow a run
        obtain ⟨b', hb'⟩ := hor.resolve_left (not_not_intro htemplate)
        rw [hb'] at hread
        obtain ⟨ds, hds⟩ | ⟨ds, hds⟩ := h.before.chunk htemplate b' hb'
        · rw [hds, readTemplateToken_chunk_backquote] at hread
          cases hread
        · rw [hds, readTemplateToken_chunk_substitution] at hread
          cases hread
    · have hlt := (Cursor.begins_of_next htemplate hnext).length_lt hv
      exact ⟨by omega, fun _ => by omega⟩
  | regex hregex _ _ =>
    exact absurd (hls _ List.mem_cons_self) (not_standsAlone_of_regex hregex)

/-- the text that the token ahead is read from does not read otherwise at the start of a text -/
structure Starts (s : ReaderState) : Prop where
  arrow : ¬ ['-', '-', '>'] <+: s.before.gap.chars
  shebang : ¬ ['#', '!'] <+: s.before.gap.chars

/-- **Parts of a script.**  What is read between two states, the first one behind a token that opens an
item, the second one before a token that closes it, is read from its own text as well. -/
theorem Steady.exists_mirror {v : ReaderState} (h : s.Steady) (hs : s.Placed cs)
    (hnull : '\x00' ∉ cs) (ho : s.Opened) (hstarts : s.Starts) (hr : s.Reads ls v) (hne : ls ≠ [])
    (hls : ∀ l ∈ ls, l.token.standsAlone = true) (hend : v.EndsItem)
    (hplain : ∀ l ∈ v.taken, l.token ≠ .regex) :
    ∃ (x : Excerpt) (pre mid : List Char), x.finish = v ∧ cs = pre ++ (mid ++ v.before.chars) ∧
      byteLength pre = s.position ∧ ls.length ≤ 2 * mid.length ∧
      x.Mirror (ls.length + 1) s (load (Cursor.ofText mid) 0 []) := by
  cases hr with
  | nil _ => exact absurd rfl hne
  | regex hregex _ =>
    exact absurd (hls _ List.mem_cons_self) (not_standsAlone_of_regex hregex)
  | @token _ _ l ls hahead hv hr =>
    obtain ⟨hl, hls⟩ := List.forall_mem_cons.1 hls
    have hnext := hs.next hnull hahead
    have hcode := (hs.opened ho).1
    obtain ⟨hpast, -⟩ := hs.past hahead
    have hsteady := h.past hs hnull hahead hv hl
    have hfresh := h.fresh_of_opened ho
    obtain ⟨w, hw⟩ := (hpast.reads hr).2
    obtain ⟨pre, mid, hpre, hstart, l', d', hnext', hmoved, habreast⟩ :=
      Cursor.first_abreast hfresh (h.before.inCode hcode) hnext hv hw.symm hstarts.arrow
        hstarts.shebang
    have hposition : s.position = l.start := by rw [position, hahead]
    obtain ⟨b, hb, hoffset⟩ := hs.stands
    let x : Excerpt := ⟨v, l.start, s.taken.length, hend, hplain⟩
    refine ⟨x, b ++ pre, mid, rfl, ?_, ?_, ?_, ?_⟩
    · rw [hb, hpre, List.append_assoc]
    · rw [byteLength_append, ← hoffset, hposition, hstart]
    · have hcount := (hsteady.length_le hpast hnull hr hls).1
      have hvalid' : l'.token ≠ .invalid := hmoved.token ▸ hv
      have hshorter := (Cursor.begins_of_next (Cursor.inCode_ofText mid).not_inText
        hnext').length_lt hvalid'
      have hmid := Cursor.length_ofText_le mid
      change ls.length + _ ≤ 2 * s.after.chars.length + 1 at hcount
      rw [habreast.chars, List.length_append] at hcount
      rw [List.length_cons]
      omega
    · obtain ⟨hahead', hafter'⟩ := load_of_next (c := Cursor.ofText mid) hnext'
      have hbegun : ¬ x.Begun s := lt_irrefl _
      have htaken : v.taken.length = ls.length + (s.taken.length + 1) := by
        rw [taken_of_reads hr, List.length_append, List.length_reverse]
        rfl
      refine ⟨⟨.token hahead hahead' hv hmoved (fun h => absurd h hbegun) ?_,
        fun h => absurd h hbegun⟩, le_rfl, ?_⟩
      · rw [hafter']
        exact track_of_abreast hr hsteady hpast hnull hls habreast rfl
      · show v.taken.length < s.taken.length + _
        rw [List.length_cons, htaken]
        omega

end ReaderState

end PageQuery.Script
