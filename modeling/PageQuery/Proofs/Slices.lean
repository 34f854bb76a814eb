import PageQuery.Proofs.Bounds
import PageQuery.Proofs.Heads
import PageQuery.Proofs.RereadStatements
import PageQuery.Proofs.Stretches

/-!
# Arguments that are read by themselves

The source of an argument is a text of its own.  `readSource_slice` compares what it is read as with
the argument as it was read where it stands, in a text without the few things that depend on more
than the argument: null characters, regular expressions and substitutions of templates.
-/

namespace PageQuery.Script

open Grammar Reader

/-! ### How arguments begin -/

/-- What the token at a closing angle, an exclamation mark or a minus can be. -/
theorem readToken_punctuation {c : Char} (hc : c = '>' ∨ c = '!' ∨ c = '-') (ds : List Char) :
    ∃ k rest, readToken (c :: ds) = some (k, rest) ∧
      (k = .invalid ∨ ∃ p ∈ Token.punctuators, p.1.head? = some c ∧ p.2 = k) := by
  have hnumber : ¬ (c.isDigit || c == '.' && ds.head?.any Char.isDigit) = true := by
    obtain rfl | rfl | rfl := hc <;> simp [Char.isDigit]
  have hword : ¬ (Text.isIdentifierStart c || c == '\\') = true := by
    obtain rfl | rfl | rfl := hc <;> decide
  have hquote : (c = '"' → False) ∧ (c = '\'' → False) ∧ (c = '\x60' → False) := by
    obtain rfl | rfl | rfl := hc <;> exact ⟨nofun, nofun, nofun⟩
  rw [readToken_cons hquote.1 hquote.2.1 hquote.2.2, if_neg hnumber, if_neg hword]
  split
  · rename_i p hp
    refine ⟨_, _, rfl, .inr ⟨p, List.mem_of_find?_eq_some hp, ?_, rfl⟩⟩
    have hprefix := List.find?_some hp
    change p.1.isPrefixOf (c :: ds) = true at hprefix
    obtain ⟨rest, hrest⟩ := List.isPrefixOf_iff_prefix.1 hprefix
    have hne := (punctuators_plain p (List.mem_of_find?_eq_some hp)).1
    obtain ⟨x, xs, hx⟩ := List.exists_cons_of_ne_nil hne
    rw [hx] at hrest ⊢
    rw [List.head?_cons, (List.cons.inj hrest).1]
  · exact ⟨_, _, rfl, .inl rfl⟩

namespace ReaderState

variable {cs : List Char} {s t : ReaderState} {l : Lexeme} {e : Expr}

section

variable {d : Cursor} (stop : Nat) (taken : List Lexeme) {c : Char} {ds : List Char}

/-- What a cursor stands before that stands before no blank and no comment. -/
theorem tokenAhead_of_solid (hstart : (d.fresh && ['#', '!'].isPrefixOf d.chars) = false)
    (hcode : d.surroundings.InCode) (hd : d.chars = c :: ds) (hsolid : Solid d.fresh c ds)
    (hnull : c ≠ '\x00') {k : Token} {rest : List Char}
    (hread : readToken (c :: ds) = some (k, rest)) :
    d.gap.chars = c :: ds ∧ (load d stop taken).tokenAhead = some k := by
  have hgap := Cursor.gap_of_skips (g := []) hd hsolid.skips
  have hnext := Cursor.next_of_code hstart hcode.not_inText hgap rfl rfl (by simpa using hnull) hread
  refine ⟨congrArg GapEnd.chars hgap, ?_⟩
  rw [tokenAhead, (load_of_next hnext).1]
  rfl

/-- Where a closing angle or an exclamation mark is ahead. -/
theorem tokenAhead_punctuation (hfresh : d.fresh = false) (hcode : d.surroundings.InCode)
    (hc : c = '>' ∨ c = '!') (hd : d.chars = c :: ds) :
    d.gap.chars = c :: ds ∧ ∃ k, (load d stop taken).tokenAhead = some k ∧
      (k = .invalid ∨ ∃ p ∈ Token.punctuators, p.1.head? = some c ∧ p.2 = k) := by
  have hsolid : Solid d.fresh c ds := by
    obtain rfl | rfl := hc
    · exact ⟨nofun, nofun, nofun, nofun, rfl, by decide⟩
    · exact ⟨nofun, nofun, nofun, nofun, rfl, by decide⟩
  have hnull : c ≠ '\x00' := by
    obtain rfl | rfl := hc <;> decide
  obtain ⟨k, rest, hread, hk⟩ := readToken_punctuation (hc.imp id .inl) ds
  obtain ⟨hgap, hahead⟩ := tokenAhead_of_solid stop taken
    (by rw [hfresh, Bool.false_and]) hcode hd hsolid hnull hread
  exact ⟨hgap, k, hahead, hk⟩

end

/-- What begins an expression begins a text as well. -/
theorem BeginsWith.starts (h : s.BeginsWith e) (hs : s.Placed cs) (hnull : '\x00' ∉ cs)
    (hsteady : s.Steady) (ho : s.Opened) {ls : List Lexeme} (hr : s.Reads (l :: ls) t)
    (hls : ∀ k ∈ l :: ls, k.token.standsAlone = true) : s.Starts := by
  cases hr with
  | regex hregex _ => exact absurd (hls _ List.mem_cons_self) (not_standsAlone_of_regex hregex)
  | token hahead hv hr =>
    have hnext := hs.next hnull hahead
    have htake : s.Takes l.token (s.past l s.after) := ⟨l, hahead, rfl, hv, rfl⟩
    obtain ⟨hread, hfresh, hcode⟩ := hsteady.before.code (hsteady.fresh_of_opened ho)
      (hs.opened ho).1 hnext hv
    constructor
    · rintro ⟨ds, hds⟩
      have hdecrement : readToken (['-', '-', '>'] ++ ds) = some (.decrement, '>' :: ds) := rfl
      rw [← hds, hdecrement] at hread
      obtain ⟨htoken, hchars⟩ := Prod.mk.inj (Option.some.inj hread)
      obtain ⟨hgap, k, hk, hkind⟩ := tokenAhead_punctuation l.stop (l :: s.taken)
        hfresh (hcode (htoken ▸ nofun)) (.inl rfl) hchars.symm
      obtain ⟨k', hk', hopens⟩ := h.decrement _ (htoken ▸ htake)
      obtain rfl : k = k' := Option.some.inj (hk.symm.trans hk')
      have hno : ∀ p ∈ Token.punctuators, p.1.head? = some '>' → p.2.opensOperand = false := by
        decide
      obtain hopens | ⟨-, hslash⟩ := hopens
      · obtain rfl | ⟨p, hp, hhead, rfl⟩ := hkind
        · cases hopens
        · rw [hno p hp hhead] at hopens
          cases hopens
      · cases (congrArg List.head? hgap).symm.trans hslash
    · rintro ⟨ds, hds⟩
      have hhash : readToken (['#', '!'] ++ ds) = some (.hash, '!' :: ds) := rfl
      rw [← hds, hhash] at hread
      obtain ⟨htoken, hchars⟩ := Prod.mk.inj (Option.some.inj hread)
      obtain ⟨-, k, hk, hkind⟩ := tokenAhead_punctuation l.stop (l :: s.taken)
        hfresh (hcode (htoken ▸ nofun)) (.inr rfl) hchars.symm
      obtain ⟨w, hw⟩ := h.hash _ (htoken ▸ htake)
      obtain rfl : k = .word w := Option.some.inj (hk.symm.trans hw)
      have hno : ∀ p ∈ Token.punctuators, p.1.head? = some '!' → p.2.isPlain = false := by decide
      obtain hinvalid | ⟨p, hp, hhead, hword⟩ := hkind
      · cases hinvalid
      · have hplain := hno p hp hhead
        rw [hword] at hplain
        cases hplain

end ReaderState

/-! ### Sources -/

/-- the bytes of a text with one more character in front -/
theorem exists_byteLength_cons (c : Char) (u : List Char) :
    ∃ n, byteLength (c :: u) = n + 1 ∧ c.utf8Size ≤ n + 1 ∧ n + 1 - c.utf8Size = byteLength u := by
  have hsize := c.utf8Size_pos
  refine ⟨c.utf8Size - 1 + byteLength u, ?_, ?_, ?_⟩
  · rw [byteLength_cons]
    omega
  · omega
  · omega

theorem dropBytes?_append (u r : List Char) : dropBytes? (byteLength u) (u ++ r) = some r := by
  induction u with
  | nil =>
    show dropBytes? 0 r = some r
    rw [dropBytes?]
  | cons c u ih =>
    obtain ⟨n, hn, hle, hrest⟩ := exists_byteLength_cons c u
    rw [hn, List.cons_append, dropBytes?, if_pos hle, hrest, ih]

theorem takeBytes?_append (u r : List Char) : takeBytes? (byteLength u) (u ++ r) = some u := by
  induction u with
  | nil =>
    show takeBytes? 0 r = some []
    rw [takeBytes?]
  | cons c u ih =>
    obtain ⟨n, hn, hle, hrest⟩ := exists_byteLength_cons c u
    rw [hn, List.cons_append, takeBytes?, if_pos hle, hrest, ih, Option.map_some]

theorem slice_of_cut {s : Source} {x : Extent} {pre mid post : List Char}
    (h : s.text.toList = pre ++ (mid ++ post)) (hstart : x.start = byteLength pre)
    (hstop : x.stop = byteLength (pre ++ mid)) : s.slice x = String.ofList mid := by
  have hlength : x.stop - x.start = byteLength mid := by
    rw [hstart, hstop, byteLength_append]
    omega
  rw [Source.slice, h, hlength, hstart, dropBytes?_append, Option.bind_some, takeBytes?_append,
    Option.getD_some]

/-! ### Bounds -/

/-- the nesting is nowhere as deep -/
structure Nesting.Below (n n' : Nesting) : Prop where
  depth : n.depth ≤ n'.depth
  opened : ∃ front back, n'.opened = front ++ back ∧ List.Forall₂ (· ≤ ·) n.opened front

namespace Nesting

variable {n n' : Nesting}

theorem Below.step (h : n.Below n') (t : Token) : (n.step t).Below (n'.step t) := by
  obtain ⟨depth, opened⟩ := n
  obtain ⟨hdepth, front, back, hopened, hfront⟩ := h
  unfold Nesting.step
  split
  · refine ⟨Nat.succ_le_succ hdepth, n'.depth :: front, back, ?_, .cons hdepth hfront⟩
    rw [hopened]
    rfl
  · split
    · rw [hopened]
      cases hfront with
      | nil => exact ⟨Nat.zero_le _, [], _, rfl, .nil⟩
      | cons hle hrest => exact ⟨hle, _, back, rfl, hrest⟩
    · split
      · exact ⟨Nat.succ_le_succ hdepth, front, back, hopened, hfront⟩
      · exact ⟨hdepth, front, back, hopened, hfront⟩

theorem Below.foldl (h : n.Below n') (ts : List Token) :
    (ts.foldl Nesting.step n).Below (ts.foldl Nesting.step n') := by
  induction ts generalizing n n' with
  | nil => exact h
  | cons t ts ih => exact ih (h.step t)

end Nesting

/-- A part of what keeps the bounds keeps them. -/
theorem KeepsBounds.of_infix {ts us : List Token} (h : KeepsBounds us) (hts : ts <:+: us) :
    KeepsBounds ts := by
  obtain ⟨before, behind, rfl⟩ := hts
  have h : KeepsBounds (before ++ ts) := h.of_prefix (List.prefix_append _ _)
  refine ⟨(List.length_append ▸ Nat.le_add_left _ _).trans h.few, fun pre hpre => ?_⟩
  have hbelow : Nesting.Below {} (before.foldl Nesting.step {}) :=
    ⟨Nat.zero_le _, [], _, rfl, .nil⟩
  have hdeep := h.flat (before ++ pre) ((List.prefix_append_right_inj before).2 hpre)
  rw [List.foldl_append] at hdeep
  exact (hbelow.foldl pre).depth.trans hdeep

/-! ### Statements that are expressions -/

theorem run_bind {α β : Type} {r : Reader α} {f : α → Reader β} {s t : ReaderState} {a : α}
    (h : r.run s = .ok (a, t)) : (r >>= f).run s = (f a).run t := by
  simp only [bind]
  rw [h]

theorem run_peek {β : Type} {s : ReaderState} {k : Option Token} (hk : s.tokenAhead = k)
    (f : Option Token → Reader β) : (peek >>= f).run s = (f k).run s :=
  congrArg (fun k => (f k).run s) hk

theorem run_ifEat {α : Type} {s : ReaderState} {k : Token} (hk : s.tokenAhead ≠ some k)
    (f : Bool → Reader α) : (eat k >>= f).run s = (f false).run s := by
  refine run_bind ?_
  show (if s.tokenAhead == some k then _ else pure false : Reader Bool).run s = _
  rw [if_neg fun h => hk (eq_of_beq h)]
  rfl

theorem ensures_run {α : Type} (r : Reader α) (s : ReaderState) :
    r.Ensures s fun a t => r.run s = .ok (a, t) := fun _ _ h => h

namespace Grammar

variable {g : Grammar} {place : Place} {scope : Scope} {s : ReaderState}

/-- the statement, if it is an expression, is what the rule for expressions gives -/
def FromExpression (g : Grammar) (scope : Scope) (s : ReaderState) (st : Statement) : Prop :=
  ∀ e, st = .expression e → ∃ p t, (g.expression scope).run s = .ok (p, t) ∧ p.expr = e

theorem expressionStatement_from :
    (g.expressionStatement place scope).Ensures s fun st _ => g.FromExpression scope s st := by
  simp only [expressionStatement, ensures_bind, ensures_peekSecond, ensures_peek]
  split
  · simp [FromExpression]
  · simp only [ensures_bind, ensures_pure]
    refine (ensures_run _ s).mono fun p t hrun => (ensures_advances _ t).mono ?_
    rintro _ u - _ ⟨⟩
    exact ⟨p, t, hrun, rfl⟩

/-- Of the statements that their first word tells, only a call of `import` is an expression. -/
theorem keywordStatement_from (w : String) :
    (g.keywordStatement w place scope).Ensures s fun r t =>
      (∀ st ∈ r, g.FromExpression scope s st) ∧ (r = none → t = s) := by
  by_cases himport : w = "import"
  · subst himport
    simp only [keywordStatement_import, ensures_bind, ensures_peekSecond, ensures_ite, ensures_pure]
    refine ⟨fun _ => ?_, fun _ => ensures_fail⟩
    refine (ensures_run _ s).mono fun p t hrun =>
      (ensures_advances _ t).mono fun _ u _ => ⟨?_, fun h => by cases h⟩
    rintro _ ⟨⟩ _ ⟨⟩
    exact ⟨p, t, hrun, rfl⟩
  · unfold keywordStatement
    dsimp only
    split <;> first | exact absurd rfl himport | simp [FromExpression]

theorem declarationAhead_stays : declarationAhead.Ensures s fun _ t => t = s := by
  rw [declarationAhead, ensures_bind, ensures_peek]
  split <;> simp

theorem declaration_stays :
    (g.declaration place scope).Ensures s fun b t => b = false → t = s := by
  rw [declaration, ensures_bind]
  refine declarationAhead_stays.mono ?_
  rintro b _ rfl
  rw [ensures_ite]
  exact ⟨fun _ => by simp, fun _ => by simp⟩

theorem anyStatement_from (g : Grammar) (place : Place) (scope : Scope) (s : ReaderState) :
    (g.anyStatement place scope).Ensures s fun st _ => g.FromExpression scope.enclosed s st := by
  simp only [anyStatement, ensures_bind, ensures_peek]
  split
  · simp [FromExpression]
  · simp [FromExpression]
  · rename_i w hw
    rw [ensures_bind]
    refine (keywordStatement_from w).mono ?_
    rintro (_ | st) t ⟨hst, ht⟩
    · obtain rfl := ht rfl
      simp only [ensures_bind, ensures_ite, ensures_pure]
      refine declaration_stays.mono fun b u hu => ⟨fun _ => by rintro _ ⟨⟩, fun hb => ?_⟩
      obtain rfl := hu (Bool.eq_false_iff.2 hb)
      exact expressionStatement_from
    · exact ensures_pure.2 (hst st rfl)
  · exact expressionStatement_from

/-- a statement that is one expression -/
def expressionAlone (g : Grammar) (scope : Scope) : Reader Statement := do
  let p ← g.expression scope
  semicolon
  pure (.expression p.expr)

theorem keywordStatement_of_not_isReserved {w : String} (h : isReserved w = false) :
    g.keywordStatement w place scope = pure none := by
  obtain hw | hnone := mem_statementKeywords_or w
  · have hreserved : ∀ w ∈ statementKeywords, isReserved w = true := by decide
    rw [hreserved w hw] at h
    cases h
  · exact hnone

/-- Behind a word that is no keyword a declaration begins only with `let` or `async function`. -/
theorem declarationAhead_run {w : String} (hw : s.tokenAhead = some (.word w))
    (hnot : isReserved w = false) (hlet : w = "let" → ∀ k ∈ s.tokenBehind, opensLet k = false) :
    declarationAhead.run s = .ok (false, s) := by
  rw [declarationAhead, run_peek hw]
  split
  · rename_i heq
    cases heq
    exact absurd hnot (by decide)
  · rename_i heq
    cases heq
    exact absurd hnot (by decide)
  · rename_i heq
    cases heq
    have hbehind : (s.after.lookAhead.1.any fun l => opensLet l.token) = false := by
      rw [Option.any_eq_false]
      exact fun l hl => hlet rfl l.token (Option.mem_map_of_mem _ hl)
    show Except.ok (s.after.lookAhead.1.any fun l => opensLet l.token, s) = _
    rw [hbehind]
  · rfl

theorem expressionStatement_run
    (h : s.tokenBehind ≠ some .colon ∨ ∀ w, s.tokenAhead ≠ some (.word w)) :
    (g.expressionStatement place scope).run s = (g.expressionAlone scope).run s := by
  have hsecond : peekSecond.run s = .ok (s.after.lookAhead.1, s) := rfl
  rw [expressionStatement, run_bind hsecond]
  dsimp only
  rw [run_peek rfl]
  split
  · rename_i hw hcolon
    have hcolon : s.tokenBehind = some .colon := hcolon
    exact absurd h (by simp [hw, hcolon])
  · rfl

/-- what a word begins that names a variable and stands before an arrow, or before what an
asynchronous arrow function goes on with -/
theorem anyStatement_word {w : String} {k : Token} (hw : s.tokenAhead = some (.word w))
    (hnot : isReserved w = false) (hk : s.tokenBehind = some k) (hcolon : k ≠ .colon)
    (hfunction : k ≠ .word "function") (hlet : w = "let" → opensLet k = false) :
    (g.anyStatement .list scope).run s = (g.expressionAlone scope.enclosed).run s := by
  have hdeclaration : declarationAhead.run s = .ok (false, s) :=
    declarationAhead_run hw hnot fun h k' hk' => Option.some.inj (hk.symm.trans hk') ▸ hlet h
  obtain ⟨l, hl, rfl⟩ := Option.map_eq_some_iff.1 hk
  have hasync : (g.declaration .list scope.enclosed).run s = .ok (false, s) := by
    have hno :
        (s.after.lookAhead.1.any fun l => l.token == .word "function" && !l.newline) = false := by
      rw [hl, Option.any_some, beq_false_of_ne hfunction, Bool.false_and]
    have hahead : (isAhead (.word "async")).run s = .ok (s.tokenAhead == some (.word "async"), s) :=
      rfl
    have hsecond : peekSecond.run s = .ok (s.after.lookAhead.1, s) := rfl
    rw [declaration, run_bind hdeclaration, if_neg Bool.false_ne_true, run_bind hahead,
      run_bind hsecond, hno, Bool.and_false, if_neg Bool.false_ne_true]
    rfl
  rw [anyStatement, run_peek hw]
  dsimp only
  rw [keywordStatement_of_not_isReserved hnot]
  show ((g.declaration .list scope.enclosed) >>= _ : Reader Statement).run s = _
  rw [run_bind hasync, if_neg Bool.false_ne_true]
  exact expressionStatement_run (.inl fun h => hcolon (Option.some.inj (hk.symm.trans h)))

theorem anyStatement_of_atArrow (g : Grammar) (scope : Scope) (h : s.AtArrow) :
    (g.anyStatement .list scope).run s = (g.expressionAlone scope.enclosed).run s := by
  cases h with
  | parens hk =>
    rw [anyStatement, run_peek hk]
    refine expressionStatement_run (.inr fun w hw => ?_)
    cases hk.symm.trans hw
  | name hw hnot hk => exact anyStatement_word hw hnot hk (by simp) (by simp) fun _ => rfl
  | asyncParens hw hk => exact anyStatement_word hw (by decide) hk (by simp) (by simp) (by decide)
  | @asyncName w hw hk hnot =>
    refine anyStatement_word hw (by decide) hk (by simp) ?_ fun h => absurd h (by decide)
    rintro ⟨⟩
    exact absurd hnot (by decide)

end Grammar

/-! ### Scripts of one expression -/

section

variable {s t : ReaderState} {n : Nat} {e : Expr} {p : Phrase}

/-- A script of one expression is what the rule for expressions gives. -/
theorem script_from (hs : s.tokenAhead ≠ some .shebang) (n : Nat) :
    (script (n + 1)).Ensures s fun ss _ => ∀ e, ss = [.expression e] →
      ∃ p t, ((grammar n).expression {}).run s = .ok (p, t) ∧ p.expr = e := by
  simp only [script, ensures_bind, ensures_eat]
  refine ⟨fun u hu => absurd hu.tokenAhead_eq hs, fun _ => ?_⟩
  simp only [scriptStatements, ensures_bind, ensures_peek, ensures_ite, ensures_pure]
  refine ⟨fun _ => by rintro _ ⟨⟩, fun _ => ?_⟩
  refine (anyStatement_from (grammar n) .list {} s).mono fun st t hst => ?_
  refine (ensures_advances _ t).mono fun ss u _ e he => ?_
  exact hst e (List.cons.inj he).1

/-- An arrow function up to the end of a text is a script. -/
theorem script_run (hs : s.AtArrow) (hrun : ((grammar (n + 1)).expression {}).run s = .ok (p, t))
    (ht : t.ahead = none) : (script (n + 2)).run s = .ok ([.expression p.expr], t) := by
  obtain ⟨k, hk, hshebang⟩ : ∃ k, s.tokenAhead = some k ∧ k ≠ .shebang := by
    cases hs with
    | parens hk => exact ⟨_, hk, by simp⟩
    | name hk _ _ => exact ⟨_, hk, by simp⟩
    | asyncParens hk _ => exact ⟨_, hk, by simp⟩
    | asyncName hk _ _ => exact ⟨_, hk, by simp⟩
  have hnone : t.tokenAhead = none := by rw [ReaderState.tokenAhead, ht, Option.map_none]
  have hsemicolon : semicolon.run t = .ok ((), t) := by
    rw [semicolon, run_ifEat (by simp [hnone]), if_neg Bool.false_ne_true, run_peek hnone]
    rfl
  have hstatement : ((grammar (n + 2)).statement .list {}).run s = .ok (.expression p.expr, t) := by
    refine (anyStatement_of_atArrow (grammar (n + 1)) {} hs).trans ?_
    rw [expressionAlone]
    refine (run_bind hrun).trans ?_
    rw [run_bind hsemicolon]
    rfl
  rw [script, run_ifEat fun h => hshebang (Option.some.inj (hk.symm.trans h)), scriptStatements,
    run_peek hk]
  show (if false = true then _ else _ : Reader (List Statement)).run s = _
  rw [if_neg Bool.false_ne_true, run_bind hstatement]
  have hrest : ∀ directives scope,
      (scriptStatements (grammar (n + 2)) directives scope (n + 1)).run t = .ok ([], t) := by
    intro directives scope
    rw [scriptStatements, run_peek hnone]
    rfl
  refine (run_bind (hrest _ _)).trans ?_
  rfl

end


/-! ### Items that are read again -/

theorem isArrow_of_other {es : List Expr} {e : Expr} (h : e.unparen = .other es) :
    e.isArrow = false := by
  rw [Expr.isArrow, h]

theorem Excerpt.Aligned.ahead {x : Excerpt} {s' : ReaderState} (h : x.Aligned x.finish s') :
    s'.ahead = none := by
  rcases h.track.cases with ⟨l, l', hi⟩ | hend
  · have htakes : x.finish.Takes l.token _ := ⟨l, hi.ahead, rfl, hi.valid, rfl⟩
    exact absurd hi.track.reaches (Excerpt.not_advances_finish htakes.advances)
  · exact hend.ahead'

section

variable {g : Grammar} {scope : Scope} {s t : ReaderState} {p : Phrase}

/-- at the end of a text -/
theorem Grammar.expression_run (hrun : (g.assignment scope).run s = .ok (p, t))
    (hahead : t.ahead = none) (hsettled : p.unsettled = none) :
    (g.expression scope).run s = .ok (p, t) := by
  have hcomma : (isAhead .comma).run t = .ok (false, t) := by
    show Except.ok (t.tokenAhead == some .comma, t) = _
    rw [ReaderState.tokenAhead, hahead]
    rfl
  have hopen : (g.openExpression scope).run s = .ok (p, t) := by
    rw [openExpression, run_bind hrun, run_bind hcomma]
    rfl
  rw [expression, run_bind hopen, Phrase.settle, hsettled]
  rfl

/-- Behind a comma there are several expressions. -/
theorem Grammar.expression_of_comma (hrun : (g.assignment scope).run s = .ok (p, t))
    (hahead : t.tokenAhead = some .comma) :
    (g.expression scope).Ensures s fun q _ => q.expr.isArrow = false := by
  simp only [expression, openExpression, ensures_bind, ensures_isAhead, ensures_ite,
    ensures_settle, ensures_phraseFrom, ensures_pure]
  intro q u hq
  obtain ⟨rfl, rfl⟩ := Prod.mk.inj (Except.ok.inj (hrun.symm.trans hq))
  refine ⟨fun _ _ => (ensures_advances _ t).mono fun _ _ _ _ => rfl, fun hno => ?_⟩
  exact absurd (beq_iff_eq.2 hahead) hno

end

open Excerpt

variable {x : Excerpt} {s s' v : ReaderState} {e : Expr} {m k : Nat}

theorem ReaderState.IsItem.begins {scope : Scope} {t : ReaderState} (h : s.IsItem scope t e) :
    s.BeginsWith e := by
  obtain ⟨-, n, p, u, hrun, hp⟩ := h
  have hbegins := (grammar_begins n).assignment scope s p u hrun
  refine ⟨hbegins.operand, hbegins.decrement, hbegins.hash, fun ha => hbegins.arrow ?_⟩
  obtain ⟨-, -, hunparen⟩ | ⟨-, -, es, hother⟩ := hp
  · rw [Expr.isArrow, hunparen]
    exact ha
  · rw [isArrow_of_other hother] at ha
    cases ha

/-- What makes up an item is read in an excerpt of its own as the same expression, places and
parentheses aside, or as no arrow function where it is none. -/
theorem ReaderState.IsItem.reread (h : s.IsItem {} x.finish e) (hs : x.Mirror m s s') (hm : m ≤ k) :
    (((grammar k).expression {}).Ensures s' fun p _ =>
        p.expr.core = e.core ∨ p.expr.isArrow = false ∧ e.isArrow = false) ∧
      (e.isArrow = true →
        ∃ p t, ((grammar k).expression {}).run s' = .ok (p, t) ∧ t.ahead = none) := by
  obtain ⟨-, n, p, u, hrun, hp⟩ := h
  have hagree := (grammar_agrees x n k m hm).assignment {} hs p u hrun
  obtain ⟨rfl, hsettled, hunparen⟩ | ⟨hcomma, hadvances, es, hother⟩ := hp
  · obtain ⟨p', t', hrun', hlike, haligned⟩ := hagree (.refl _)
    have hsettled' : p'.unsettled = none := by
      rw [← Option.isNone_iff_eq_none, ← Option.isSome_eq_false_iff, ← hlike.unsettled, hsettled]
      rfl
    have hexpression := expression_run hrun' haligned.ahead hsettled'
    have hcore : p'.expr.core = e.core := by
      rw [← hlike.expr.core, ← Expr.core_unparen, hunparen, Expr.core_unparen]
    refine ⟨fun q t hq => ?_, fun _ => ⟨p', t', hexpression, haligned.ahead⟩⟩
    obtain ⟨rfl, -⟩ := Prod.mk.inj (Except.ok.inj (hexpression.symm.trans hq))
    exact .inl hcore
  · have hno := isArrow_of_other hother
    obtain ⟨p', t', hrun', -, haligned⟩ := hagree (hadvances.mono (Nat.zero_le _))
    have hcomma' : t'.tokenAhead = some .comma := by
      rcases haligned.track.cases with ⟨l, l', hi⟩ | hend
      · rw [hi.tokenAhead', ← hi.tokenAhead, hcomma]
      · exact absurd (.refl _) (hend.not_advances hadvances)
    refine ⟨(expression_of_comma hrun' hcomma').mono fun q _ hq => .inr ⟨hq, hno⟩, fun h => ?_⟩
    rw [hno] at h
    cases h

/-- An arrow function begins in an excerpt of its own as it does where it stands. -/
theorem Excerpt.Mirror.atArrow (h : x.Mirror m s s') (ha : s.AtArrow) : s'.AtArrow := by
  have hbehind : ∀ {k j : Token}, s.tokenAhead = some k → k.closesItem = false →
      s.tokenBehind = some j → j.closesItem = false → s'.tokenBehind = some j := by
    intro k j hk hclose hj hclose'
    obtain ⟨l, l', hi⟩ := h.inside hk hclose
    obtain ⟨j', hj', rfl⟩ := Option.map_eq_some_iff.1 hj
    exact ((hi.past h).tokenAhead_iff hclose').2 (congrArg (Option.map Lexeme.token) hj')
  cases ha with
  | parens hk => exact .parens ((h.tokenAhead_iff rfl).2 hk)
  | name hk hnot hj => exact .name ((h.tokenAhead_iff rfl).2 hk) hnot (hbehind hk rfl hj rfl)
  | asyncParens hk hj => exact .asyncParens ((h.tokenAhead_iff rfl).2 hk) (hbehind hk rfl hj rfl)
  | asyncName hk hj hnot =>
    exact .asyncName ((h.tokenAhead_iff rfl).2 hk) (hbehind hk rfl hj rfl) hnot

/-- The tokens that the bounds are checked on are tokens of the excerpt. -/
theorem Excerpt.Track.lexemesUpTo (h : x.Track s s')
    (hs' : s' = .load s'.before s'.stop s'.taken) (n : Nat) :
    ∃ ls, s.Reads ls x.finish ∧
      (s'.before.lexemesUpTo n).map (·.token) <+: ls.map (·.token) := by
  induction h generalizing n with
  | @finish s' hahead =>
    refine ⟨[], .nil _, ?_⟩
    rcases n with _ | n
    · exact List.nil_prefix
    rcases hnext : s'.before.next with ⟨_ | k, d⟩
    · rw [Cursor.lexemesUpTo, hnext]
    · rw [hs', ReaderState.load, Cursor.lookAhead, hnext] at hahead
      cases hahead
  | @token s s' l l' hahead hahead' hv hmoved _ _ ih =>
    rcases n with _ | n
    · obtain ⟨ls, hls, -⟩ := ih rfl 0
      exact ⟨l :: ls, .token hahead hv hls, List.nil_prefix⟩
    obtain ⟨ls, hls, hprefix⟩ := ih rfl n
    refine ⟨l :: ls, .token hahead hv hls, ?_⟩
    rcases hnext : s'.before.next with ⟨_ | k, d⟩
    · rw [Cursor.lexemesUpTo, hnext]
      exact List.nil_prefix
    · obtain ⟨hk, hd⟩ : s'.ahead = some k ∧ s'.after = d := by
        rw [hs']
        exact ReaderState.load_of_next hnext
      obtain rfl : k = l' := Option.some.inj (hk.symm.trans hahead')
      rw [Cursor.lexemesUpTo, hnext, List.map_cons, List.map_cons, hmoved.token, ← hd]
      exact (List.prefix_cons_inj _).2 hprefix

/-! ### Arguments -/

theorem readSource_of_run {text : String} {t : ReaderState}
    (hcheck : KeepsBounds ((boundedLexemes (Cursor.ofText text.toList)).map (·.token)))
    (hrun : (script (enoughLevels (Cursor.ofText text.toList).chars)).run
      (.load (Cursor.ofText text.toList) 0 []) = .ok ([.expression e], t)) :
    readSource text = .ok ⟨text, e, t.taken.reverse⟩ := by
  have hstatements : readStatements text.toList = .ok ([.expression e], t.taken.reverse) := by
    rw [readStatements, hrun]
    rfl
  rw [readSource, checkNesting_eq_ok.2 hcheck, hstatements]

theorem run_of_readSource {text : String} {src : Source} (h : readSource text = .ok src) :
    ∃ t, (script (enoughLevels (Cursor.ofText text.toList).chars)).run
      (.load (Cursor.ofText text.toList) 0 []) = .ok ([.expression src.expr], t) := by
  obtain ⟨-, hread, -⟩ := readSource_eq_ok h
  unfold readStatements at hread
  dsimp only at hread
  generalize script (enoughLevels (Cursor.ofText text.toList).chars) = r at hread ⊢
  rcases hrun : r.run (.load (Cursor.ofText text.toList) 0 []) with o | ⟨ss, t⟩
  · rw [hrun] at hread
    cases hread
  · rw [hrun] at hread
    have hss : ss = [.expression src.expr] := congrArg Prod.fst (Except.ok.inj hread)
    exact ⟨t, by rw [hss]⟩

theorem Grammar.Begins.expression {g : Grammar} (hg : g.Begins) (scope : Scope) (s : ReaderState) :
    (g.expression scope).Ensures s fun p _ => s.BeginsWith p.expr := by
  simp only [Grammar.expression, openExpression, ensures_bind, ensures_isAhead, ensures_ite,
    ensures_settle, ensures_phraseFrom, ensures_pure]
  refine (hg.assignment scope s).mono fun p t hp => ⟨fun _ _ => ?_, fun _ _ => hp⟩
  exact (ensures_advances _ t).mono fun _ _ _ _ => hp.of_eq_or (.inr rfl)

/-- The first tokens of a text are those of its expression. -/
theorem readSource_begins {text : String} {src : Source} (h : readSource text = .ok src)
    (hshebang : (ReaderState.load (Cursor.ofText text.toList) 0 []).tokenAhead ≠ some .shebang) :
    (ReaderState.load (Cursor.ofText text.toList) 0 []).BeginsWith src.expr := by
  obtain ⟨t, hrun⟩ := run_of_readSource h
  obtain ⟨p, u, hexpression, hp⟩ := script_from hshebang _ _ t hrun _ rfl
  exact hp ▸ (grammar_begins _).expression {} _ p u hexpression

/-- the text is read without anything that depends on more than its own part of the text: without
byte order marks and null characters, regular expressions and substitutions of templates -/
structure Source.Plain (src : Source) : Prop where
  unmarked : ¬ IsMarked src.text
  null : '\x00' ∉ src.text.toList
  standsAlone : ∀ l ∈ src.tokens, l.token.standsAlone = true

theorem Source.Plain.keepsBounds {text : String} {src : Source} (h : src.Plain)
    (hread : readSource text = .ok src) : KeepsBounds (src.tokens.map (·.token)) := by
  obtain ⟨-, -, rfl⟩ := readSource_eq_ok hread
  obtain ⟨kept, rest, htokens, hkeeps, hescapes⟩ := readSource_keepsBounds hread
  rcases rest with _ | ⟨l, rest⟩
  · rw [htokens, List.append_nil]
    exact hkeeps
  · have halone : l.token.standsAlone = true := h.standsAlone l (by rw [htokens]; simp)
    obtain hregex | ⟨u, v, htext, -, -⟩ := hescapes l rfl
    · rw [hregex] at halone
      cases halone
    · rw [countedText_of_not_isMarked h.unmarked] at htext
      exact absurd (by rw [htext]; simp) h.null

/-- What makes up an item, read again from its own text. -/
theorem ReaderState.IsItem.readSource {mid : List Char} (h : s.IsItem {} x.finish e)
    (hs : x.Mirror m s (.load (Cursor.ofText mid) 0 [])) (hm : m ≤ 2 * mid.length + 1)
    (hbounds : ∀ ls, s.Reads ls x.finish → KeepsBounds (ls.map (·.token))) :
    (∀ src, Script.readSource (String.ofList mid) = .ok src →
        src.expr.core = e.core ∨ src.expr.isArrow = false ∧ e.isArrow = false) ∧
      (e.isArrow = true → ∃ src, Script.readSource (String.ofList mid) = .ok src) := by
  obtain ⟨n, hn, hle⟩ : ∃ n, enoughLevels (Cursor.ofText mid).chars = n + 2 ∧ m ≤ n + 1 := by
    have hmid := Cursor.le_length_ofText mid
    exact ⟨2 * (Cursor.ofText mid).chars.length + 2, rfl, by omega⟩
  obtain ⟨hsame, hreadable⟩ := h.reread hs hle
  constructor
  · intro src hsrc
    obtain ⟨t, hrun⟩ := run_of_readSource hsrc
    rw [String.toList_ofList, hn] at hrun
    have hshebang : (load (Cursor.ofText mid) 0 []).tokenAhead ≠ some .shebang := by
      rw [Ne, hs.tokenAhead_iff rfl]
      intro hk
      obtain ⟨k, hk', hopens⟩ := h.begins.operand
      obtain rfl : .shebang = k := Option.some.inj (hk.symm.trans hk')
      obtain hopens | ⟨hslash, -⟩ := hopens
      · cases hopens
      · exact absurd hslash (by decide)
    obtain ⟨p, u, hexpression, hp⟩ := script_from hshebang (n + 1) _ t hrun _ rfl
    exact hp ▸ hsame p u hexpression
  · intro harrow
    obtain ⟨p, t, hexpression, hend⟩ := hreadable harrow
    have hrun := script_run (hs.atArrow (h.begins.arrow harrow)) hexpression hend
    obtain ⟨ls, hls, hprefix⟩ := hs.track.lexemesUpTo rfl (maxTokens + 1)
    refine ⟨_, readSource_of_run (t := t) (e := p.expr) ?_ ?_⟩
    · rw [String.toList_ofList]
      exact KeepsBounds.of_prefix (hbounds ls hls) hprefix
    · rw [String.toList_ofList, hn]
      exact hrun

open Chain (links objectLinks)
open ReaderState (placed_load steady_load)

/-- **Arguments by themselves.**  The source of an argument is read as the same expression as the
argument, places and parentheses aside, or neither is an arrow function; and it can be read if the
argument is an arrow function. -/
theorem readSource_slice {text : String} {src : Source} (hread : readSource text = .ok src)
    (hplain : src.Plain) {l : Chain.Link} (hl : l ∈ links src.expr ++ objectLinks src.expr)
    {a : Argument Expr} (ha : a ∈ l.args) :
    (∀ src', readSource (src.slice a.extent) = .ok src' →
        src'.expr.core = a.value.core ∨ src'.expr.isArrow = false ∧ a.value.isArrow = false) ∧
      (a.value.isArrow = true → ∃ src', readSource (src.slice a.extent) = .ok src') := by
  obtain ⟨t, hholds, htokens⟩ := readSource_holdsArguments hread
  have hbounds := hplain.keepsBounds hread
  obtain ⟨-, -, rfl⟩ := readSource_eq_ok hread
  obtain ⟨s, v, ⟨ls₀, hls₀, -⟩, ⟨ls₁, hls₁, -⟩, hopened, hisRead, hitem⟩ := hholds l hl a ha
  have htaken : ∀ ls, s.Reads ls v → src.tokens = ls₀ ++ (ls ++ ls₁) := fun ls hls => by
    have hall := taken_of_reads (hls₀.append (hls.append hls₁))
    rw [← htokens, hall, List.reverse_append, List.reverse_reverse]
    rfl
  obtain ⟨ls, hls, hone⟩ := hisRead.advances
  have hne : ls ≠ [] := List.ne_nil_of_length_pos hone
  obtain ⟨halone₀, halone, -⟩ : (∀ l ∈ ls₀, l.token.standsAlone = true) ∧
      (∀ l ∈ ls, l.token.standsAlone = true) ∧ ∀ l ∈ ls₁, l.token.standsAlone = true := by
    simpa only [htaken ls hls, List.forall_mem_append] using hplain.standsAlone
  have hload := placed_load src.text
  rw [countedText_of_not_isMarked hplain.unmarked] at hload
  obtain ⟨hplaced, -⟩ := hload.reads hls₀
  obtain ⟨hplaced', -⟩ := hplaced.reads hls
  have hsteady := (steady_load src.text.toList).reads hload hplain.null hls₀ halone₀
  have hstarts : s.Starts := by
    obtain ⟨k, ks, rfl⟩ := List.exists_cons_of_ne_nil hne
    exact hitem.begins.starts hplaced hplain.null hsteady hopened hls halone
  have hregex : ∀ l ∈ v.taken, l.token ≠ .regex := by
    intro l hl hregex
    have hl : l ∈ ls₀ ++ ls := by
      simpa [taken_of_reads (hls₀.append hls), ReaderState.load, or_comm] using hl
    have hl := (List.mem_append.1 hl).elim (halone₀ l) (halone l)
    rw [hregex] at hl
    cases hl
  obtain ⟨x, pre, mid, rfl, htext, hpre, hlength, hmirror⟩ := hsteady.exists_mirror hplaced
    hplain.null hopened hstarts hls hne halone hitem.ends hregex
  have hslice : src.slice a.extent = String.ofList mid := by
    obtain ⟨b, hb, hoffset⟩ := hplaced'.stands
    have hstop : a.extent.stop = byteLength (pre ++ mid) := by
      rw [List.append_cancel_right ((List.append_assoc ..).trans (htext.symm.trans hb)), ← hoffset,
        hplaced'.offset, hisRead.extent]
    exact slice_of_cut htext (by rw [hpre, hisRead.extent]) hstop
  rw [hslice]
  refine hitem.readSource hmirror (Nat.succ_le_succ hlength) fun ms hms => ?_
  rw [htaken ms hms, List.map_append, List.map_append] at hbounds
  exact hbounds.of_infix ⟨_, _, List.append_assoc ..⟩

end PageQuery.Script
