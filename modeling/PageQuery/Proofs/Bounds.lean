import PageQuery.Proofs.Lexing
import PageQuery.Script.Source

/-!
# Bounds on the tokens that a script is read from

* `KeepsBounds ts` — no more than `maxTokens` tokens, which nest no deeper than `maxDepth`;
* `checkNesting_eq_ok` — the check before a script is read is this bound, on the tokens of its own pass;
* `reads_split` — the tokens that are read are those of the pass as far as the pass goes, and up to
  the first regular expression, whose text the pass takes for other tokens;
* `readSource_keepsBounds` — so what is read keeps the bounds up to the first regular expression and
  up to the first null character between tokens, at which the pass ends.
-/

namespace PageQuery.Script

/-! ### The check -/

/-- The tokens are within the bounds on their number and on how deep they nest. -/
structure KeepsBounds (ts : List Token) : Prop where
  few : ts.length ≤ maxTokens
  flat : ∀ pre, pre <+: ts → (pre.foldl Nesting.step {}).depth ≤ maxDepth

theorem KeepsBounds.of_prefix {ts us : List Token} (h : KeepsBounds us) (hts : ts <+: us) :
    KeepsBounds ts where
  few := hts.length_le.trans h.few
  flat pre hpre := h.flat pre (hpre.trans hts)

/-- One more token is accepted within both bounds. -/
theorem checkNestingFrom_cons_eq_ok {l : Lexeme} {ls : List Lexeme} {index : Nat} {n : Nesting} :
    checkNestingFrom index n (l :: ls) = .ok () ↔
      (index < maxTokens ∧ (n.step l.token).depth ≤ maxDepth) ∧
        checkNestingFrom (index + 1) (n.step l.token) ls = .ok () := by
  rw [checkNestingFrom]
  by_cases hfull : maxTokens ≤ index
  · simp [hfull, Nat.not_lt.2 hfull]
  · by_cases hdeep : maxDepth < (n.step l.token).depth
    · simp [hfull, hdeep, Nat.not_le.2 hdeep]
    · simp [hfull, hdeep, Nat.lt_of_not_le hfull, Nat.le_of_not_lt hdeep]

theorem checkNestingFrom_eq_ok {ls : List Lexeme} {index : Nat} {n : Nesting}
    (hindex : index ≤ maxTokens) (hdepth : n.depth ≤ maxDepth) :
    checkNestingFrom index n ls = .ok () ↔ index + ls.length ≤ maxTokens ∧
      ∀ pre, pre <+: ls.map (·.token) → (pre.foldl Nesting.step n).depth ≤ maxDepth := by
  induction ls generalizing index n with
  | nil => simp [checkNestingFrom, hindex, hdepth]
  | cons l ls ih =>
    rw [checkNestingFrom_cons_eq_ok, List.length_cons, List.map_cons]
    constructor
    · rintro ⟨⟨hfew, hflat⟩, hrest⟩
      obtain ⟨hlength, hrest⟩ := (ih hfew hflat).1 hrest
      refine ⟨by omega, fun pre hpre => ?_⟩
      rcases List.prefix_cons_iff.1 hpre with rfl | ⟨pre, rfl, hpre'⟩
      · exact hdepth
      · exact hrest pre hpre'
    · rintro ⟨hlength, hflat⟩
      have hfirst := hflat [l.token] (List.cons_prefix_cons.2 ⟨rfl, List.nil_prefix⟩)
      refine ⟨⟨by omega, hfirst⟩, (ih (by omega) hfirst).2 ⟨by omega, fun pre hpre => ?_⟩⟩
      exact hflat (l.token :: pre) (List.cons_prefix_cons.2 ⟨rfl, hpre⟩)

/-- What the check accepts is what keeps the bounds. -/
theorem checkNesting_eq_ok {ls : List Lexeme} :
    checkNesting ls = .ok () ↔ KeepsBounds (ls.map (·.token)) := by
  rw [checkNesting, checkNestingFrom_eq_ok (Nat.zero_le _) (Nat.zero_le _), Nat.zero_add]
  exact ⟨fun h => ⟨by simpa using h.1, h.2⟩, fun h => ⟨by simpa using h.few, h.flat⟩⟩

/-! ### The tokens of the pass and the tokens that are read -/

/-- A null character stands between two offsets of a text. -/
def NullBetween (cs : List Char) (start stop : Nat) : Prop :=
  ∃ u v, cs = u ++ '\x00' :: v ∧ start ≤ byteLength u ∧ byteLength u < stop

/-- where the last one of the tokens ends, or else `start` -/
def stopOf (start : Nat) (ls : List Lexeme) : Nat := (ls.getLast?.map (·.stop)).getD start

theorem stopOf_cons (start : Nat) (l : Lexeme) (ls : List Lexeme) :
    stopOf start (l :: ls) = stopOf l.stop ls := by
  cases ls with
  | nil => rfl
  | cons m ls => simp [stopOf, List.getLast?_cons]

/-- The token passes for others before a script is read: it is a regular expression, or it stands
behind a null character, with no token in between. -/
def Escapes (cs : List Char) (start : Nat) (l : Lexeme) : Prop :=
  l.token = .regex ∨ NullBetween cs start l.start

theorem token_regexAhead {s : ReaderState} {l : Lexeme} {c : Cursor}
    (h : s.regexAhead = .ok (l, c)) : l.token = .regex := by
  unfold ReaderState.regexAhead at h
  dsimp only at h
  split at h
  · split at h
    · cases h
    · split at h
      · cases h
        rfl
      · cases h
  · cases h

/-- Of the tokens read from a cursor on, `n` at least are those of the pass, unless one escapes. -/
theorem reads_split {cs : List Char} {s t : ReaderState} {ls : List Lexeme} (h : s.Reads ls t) :
    ∀ {c : Cursor} {stop : Nat} {taken : List Lexeme}, s = .load c stop taken → c.StandsIn cs →
      c.offset = stop → ∀ n, ∃ kept rest, ls = kept ++ rest ∧ kept <+: c.lexemesUpTo n ∧
        (kept.length = n ∨ ∀ l ∈ rest.head?, Escapes cs (stopOf stop kept) l) := by
  induction h with
  | nil s =>
    rintro c stop taken - - - n
    exact ⟨[], [], rfl, List.nil_prefix, .inr nofun⟩
  | @token s t l ls hahead _ _ ih =>
    rintro c stop taken rfl hc hstop n
    rcases n with _ | n
    · exact ⟨[], l :: ls, rfl, List.nil_prefix, .inl rfl⟩
    rcases hnext : c.next with ⟨_ | m, c'⟩
    · -- the reader passes over what the pass ends at
      have hnext' : c'.next.1 = some l := by
        simpa [ReaderState.load, Cursor.lookAhead, hnext] using hahead
      refine ⟨[], l :: ls, rfl, List.nil_prefix, .inr ?_⟩
      rintro _ ⟨⟩
      exact .inr (hstop ▸ hc.null_of_next hnext hnext')
    · have hlook : c.lookAhead = (some m, c') := by simp [Cursor.lookAhead, hnext]
      have hm : m = l := by simpa [ReaderState.load, hlook] using hahead
      subst hm
      have hsteps := hc.steps_next hnext
      have hpast : (ReaderState.load c stop taken).past m (ReaderState.load c stop taken).after =
          .load c' m.stop (m :: taken) := by
        simp [ReaderState.past, ReaderState.load, hlook]
      obtain ⟨kept, rest, rfl, hkept, hend⟩ := ih hpast hsteps.standsIn hsteps.stop.symm n
      refine ⟨m :: kept, rest, rfl, ?_, ?_⟩
      · rw [Cursor.lexemesUpTo, hnext]
        exact List.cons_prefix_cons.2 ⟨rfl, hkept⟩
      · rw [stopOf_cons]
        exact hend.imp (congrArg (· + 1)) id
  | @regex s t l c' ls hregex _ ih =>
    rintro c stop taken - - - n
    refine ⟨[], l :: ls, rfl, List.nil_prefix, .inr ?_⟩
    rintro _ ⟨⟩
    exact .inl (token_regexAhead hregex)

/-- The state that tokens were read to remembers them. -/
theorem taken_of_reads {s t : ReaderState} {ls : List Lexeme} (h : s.Reads ls t) :
    t.taken = ls.reverse ++ s.taken := by
  induction h with
  | nil s => rfl
  | token _ _ _ ih =>
    rw [ih, ReaderState.past, ReaderState.load, List.reverse_cons, List.append_assoc]
    rfl
  | regex _ _ ih =>
    rw [ih, ReaderState.past, ReaderState.load, List.reverse_cons, List.append_assoc]
    rfl

/-- the text that the offsets of a script count in: a byte order mark at its start is no part of it -/
def countedText (text : String) : List Char := (Cursor.ofText text.toList).chars

theorem standsIn_ofText (text : String) :
    (Cursor.ofText text.toList).StandsIn (countedText text) ∧
      (Cursor.ofText text.toList).offset = 0 := by
  unfold countedText Cursor.ofText
  split
  · exact ⟨⟨[], rfl, rfl⟩, rfl⟩
  · exact ⟨⟨[], rfl, rfl⟩, rfl⟩

theorem readStatements_reads {cs : List Char} {ss : List Statement} {ls : List Lexeme}
    (h : readStatements cs = .ok (ss, ls)) :
    ∃ t, (ReaderState.load (Cursor.ofText cs) 0 []).Reads ls t := by
  unfold readStatements at h
  dsimp only at h
  generalize hreader : script (enoughLevels (Cursor.ofText cs).chars) = r at h
  rcases hrun : r.run (.load (Cursor.ofText cs) 0 []) with _ | ⟨ss, t⟩
  · rw [hrun] at h
    cases h
  · rw [hrun] at h
    cases h
    obtain ⟨ls, hreads⟩ := r.forward hrun
    refine ⟨t, ?_⟩
    simpa [taken_of_reads hreads, ReaderState.load] using hreads

theorem readSource_eq_ok {text : String} {s : Source} (h : readSource text = .ok s) :
    checkNesting (boundedLexemes (Cursor.ofText text.toList)) = .ok () ∧
      readStatements text.toList = .ok ([.expression s.expr], s.tokens) ∧ s.text = text := by
  unfold readSource at h
  dsimp only at h
  split at h
  · cases h
  · cases h
  · rename_i hcheck
    split at h
    · cases h
    · rename_i hread
      cases h
      exact ⟨hcheck, hread, rfl⟩
    · cases h
    · cases h

/-- What is read as a script of one expression has tokens that keep the bounds, up to the first one
that escapes. -/
theorem readSource_keepsBounds {text : String} {s : Source} (h : readSource text = .ok s) :
    ∃ kept rest, s.tokens = kept ++ rest ∧ KeepsBounds (kept.map (·.token)) ∧
      ∀ l ∈ rest.head?, Escapes (countedText text) (stopOf 0 kept) l := by
  obtain ⟨hcheck, hread, -⟩ := readSource_eq_ok h
  have hbounds := checkNesting_eq_ok.1 hcheck
  obtain ⟨t, hreads⟩ := readStatements_reads hread
  obtain ⟨hstands, hzero⟩ := standsIn_ofText text
  obtain ⟨kept, rest, htokens, hkept, hend⟩ := reads_split hreads rfl hstands hzero (maxTokens + 1)
  have hkeeps : KeepsBounds (kept.map (·.token)) := hbounds.of_prefix (hkept.map _)
  refine ⟨kept, rest, htokens, hkeeps, hend.resolve_left ?_⟩
  have := hkeeps.few
  rw [List.length_map] at this
  omega

/-- a callback of seventy exclamation marks, behind a null character -/
def nullText : String :=
  "dv.pages()\x00.where(p => " ++ String.ofList (List.replicate 70 '!') ++ "p.a)"

/-- Of what stands behind a null character nothing is bounded. -/
theorem nullText_exceeds :
    ∃ s, readSource nullText = .ok s ∧ ¬ KeepsBounds (s.tokens.map (·.token)) ∧
      ∃ kept rest, s.tokens = kept ++ rest ∧ KeepsBounds (kept.map (·.token)) ∧
        ∀ l ∈ rest.head?, Escapes (countedText nullText) (stopOf 0 kept) l := by
  have hdepth : (readSource nullText).toOption.map (fun s =>
      ((s.tokens.map (·.token)).dropLast.foldl Nesting.step {}).depth) = some 72 := by
    decide +kernel
  rcases hs : readSource nullText with f | s
  · rw [hs] at hdepth
    cases hdepth
  · rw [hs] at hdepth
    refine ⟨s, rfl, fun hkeeps => ?_, readSource_keepsBounds hs⟩
    have hflat := hkeeps.flat _ (List.dropLast_prefix _)
    simp only [Except.toOption, Option.map_some, Option.some.injEq] at hdepth
    rw [hdepth] at hflat
    exact absurd hflat (by decide)

end PageQuery.Script
