import PageQuery.Proofs.NumberTexts
import PageQuery.Proofs.Parentheses
import PageQuery.Proofs.Slices

/-!
# Chains with and without their expressions

A chain is lowered to the same query whether the arguments keep their expressions or are read again
from their texts, unless a text stands where a call takes a callback: its value is read again as the
script that it spells, while the text that was written is no callback.

* `Arg.rereads_argGiven` — an argument that is no text comes out the same, for a script without the few
  things that depend on more than the argument;
* `answer?_eq_ite_withoutNodes` — what a chain is lowered to with its expressions and without them.
-/

namespace PageQuery

open Script

/-! ### Arguments that are no callbacks -/

theorem Script.Expr.lambda?_eq_none {e : Expr} (h : e.isArrow = false) : e.lambda? = none := by
  induction e using unparen.induct with
  | case1 e ih => exact ih h
  | case2 e hparen =>
    cases e with
    | paren e => exact absurd rfl (hparen e)
    | arrow _ _ _ => cases h
    | _ => rfl

theorem Arg.not_isCallback {a : Arg} (h : ∀ e ∈ a.expr.toOption, e.isArrow = false) :
    ¬ a.IsCallback := by
  rw [IsCallback, condition?_eq, path?_eq]
  rcases he : a.expr.toOption with _ | e
  · simp
  · have hlambda : e.core.lambda? = none := by
      rw [Expr.lambda?_core, Expr.lambda?_eq_none (h e he), Option.map_none]
    simp [hlambda]

/-! ### Texts of numbers -/

namespace Script

/-- an arrow function can begin with the token, or a text with a line that is passed over -/
def Token.opensArrow : Token → Bool
  | .leftParen => true
  | .word _ => true
  | .shebang => true
  | _ => false

theorem isArrow_of_tokenAhead {text : String} {src : Source} (h : readSource text = .ok src)
    {k : Token} (hk : (ReaderState.load (Cursor.ofText text.toList) 0 []).tokenAhead = some k)
    (hopens : k.opensArrow = false) : src.expr.isArrow = false := by
  have hno : ∀ j : Token, j.opensArrow = true →
      (ReaderState.load (Cursor.ofText text.toList) 0 []).tokenAhead ≠ some j := by
    intro j hj heq
    rw [Option.some.inj (hk.symm.trans heq), hj] at hopens
    cases hopens
  refine Bool.eq_false_iff.2 fun harrow => ?_
  cases (readSource_begins h (hno _ rfl)).arrow harrow with
  | parens hk => exact hno _ rfl hk
  | name hk _ _ => exact hno _ rfl hk
  | asyncParens hk _ => exact hno _ rfl hk
  | asyncName hk _ _ => exact hno _ rfl hk

end Script

open Number Binary64

/-- what a text of a number begins with -/
theorem tokenAhead_of_isNumberChar {c : Char} {cs : List Char}
    (hchars : ∀ x ∈ c :: cs, isNumberChar x = true) (hc : c.isDigit = true ∨ c = '-') :
    ∃ k, (ReaderState.load (Cursor.ofText (c :: cs)) 0 []).tokenAhead = some k ∧
      k.opensArrow = false := by
  obtain ⟨hplain, hend, hblank⟩ : c ∉ ['/', '<', '\ufeff', '\x00', '#', '"', '\'', '\x60'] ∧
      isLineEnd c = false ∧ (Text.isBlank c || c == '\ufeff') = false :=
    forall_of_isNumberChar (P := fun c =>
      c ∉ ['/', '<', '\ufeff', '\x00', '#', '"', '\'', '\x60'] ∧ isLineEnd c = false ∧
        (Text.isBlank c || c == '\ufeff') = false) (by decide) (hchars c List.mem_cons_self)
  simp only [List.mem_cons, not_or] at hplain
  obtain ⟨hslash, hangle, hmark, hnull, hhash, hdouble, hsingle, hquote, -⟩ := hplain
  have hof : Cursor.ofText (c :: cs) = { chars := c :: cs } := by
    unfold Cursor.ofText
    split
    · rename_i heq
      exact absurd (List.cons.inj heq).1 hmark
    · rfl
  have hsolid : Solid true c cs := by
    refine ⟨fun _ h => absurd h hslash, fun _ h => absurd h hslash, fun _ h => absurd h hangle, ?_,
      hend, hblank⟩
    rintro ds - rfl
    exact absurd (hchars '>' (by simp)) (by decide)
  have hstart : (true && ['#', '!'].isPrefixOf (c :: cs)) = false := by
    simp [List.isPrefixOf, Ne.symm hhash]
  obtain ⟨k, rest, hread, hk⟩ : ∃ k rest, readToken (c :: cs) = some (k, rest) ∧
      k.opensArrow = false := by
    obtain hdigit | rfl := hc
    · have hnumber : (readNumber (c :: cs)).1.opensArrow = false :=
        readNumber_token (P := fun k => k.opensArrow = false) (fun _ => rfl) rfl rfl (c :: cs)
      refine ⟨_, (readNumber (c :: cs)).2, ?_, hnumber⟩
      rw [readToken_cons hdouble hsingle hquote, if_pos (by rw [hdigit, Bool.true_or])]
    · obtain ⟨k, rest, hread, hk⟩ := readToken_punctuation (.inr (.inr rfl)) cs
      refine ⟨k, rest, hread, ?_⟩
      obtain rfl | ⟨p, hp, hhead, rfl⟩ := hk
      · rfl
      · have hno : ∀ p ∈ Token.punctuators, p.1.head? = some '-' → p.2.opensArrow = false := by
          decide
        exact hno p hp hhead
  refine ⟨k, ?_, hk⟩
  rw [hof]
  exact (ReaderState.tokenAhead_of_solid 0 [] hstart (fun h => by simp at h) rfl hsolid hnull
    hread).2

/-- No text of a number is an arrow function. -/
theorem isArrow_scriptText {x : Binary64} {src : Source}
    (h : readSource (scriptText x) = .ok src) : src.expr.isArrow = false := by
  have hdecide : ∀ {text : String},
      ((readSource text).toOption.all fun src => !src.expr.isArrow) = true →
      ∀ {src : Source}, readSource text = .ok src → src.expr.isArrow = false := by
    intro text hall src hsrc
    rw [hsrc] at hall
    simpa [Except.toOption] using hall
  cases hx : x.isFinite with
  | false =>
    have hrank : infinityRank ≤ x.rank := by simpa [isFinite] using hx
    rcases Nat.eq_or_lt_of_le hrank with heq | hlt
    · rw [scriptText_of_isInfinite (by simp [isInfinite, heq])] at h
      cases hnegative : x.negative with
      | true =>
        rw [hnegative] at h
        exact hdecide (by decide +kernel) h
      | false =>
        rw [hnegative] at h
        exact hdecide (by decide +kernel) h
    · rw [scriptText_of_isNaN (by simpa [isNaN] using hlt)] at h
      exact hdecide (by decide +kernel) h
  | true =>
    obtain ⟨c, cs, htext, hc⟩ := head_scriptText hx
    have hchars := isNumberChar_scriptText hx
    rw [htext] at hchars
    obtain ⟨k, hk, hopens⟩ := tokenAhead_of_isNumberChar hchars hc
    exact isArrow_of_tokenAhead h (htext ▸ hk) hopens

/-! ### Arguments that come out the same -/

/-- the argument was written as a text: a string, or a template without substitutions -/
def Arg.isText (a : Arg) : Bool := (a.node.bind Expr.stringValue?).isSome

open Chain (argGiven links objectLinks)

theorem Chain.isText_argGiven {src : Source} {a : Argument Expr} :
    (argGiven src a).isText = true ↔ ∃ t, a.value.IsText t := by
  show (a.value.unparen.stringValue?).isSome = true ↔ _
  simp only [Option.isSome_iff_exists, Expr.stringValue?_eq_some]
  exact Expr.unparen_iff (P := fun e => ∃ t, e.IsText t) (fun e => by simp only [Expr.isText_paren]) _

theorem Script.Expr.isArrow_unparen (e : Expr) : e.unparen.isArrow = e.isArrow :=
  Bool.eq_iff_iff.2 (Expr.unparen_iff (P := fun e => e.isArrow = true) (fun _ => Iff.rfl) e)

theorem Script.Expr.IsText.isArrow {e : Expr} {t : String} (h : e.IsText t) : e.isArrow = false := by
  induction h with
  | string _ => rfl
  | template _ => rfl
  | paren _ ih => exact ih

theorem Script.Expr.IsNumber.isArrow {e : Expr} {x : Binary64} (h : e.IsNumber x) :
    e.isArrow = false := by
  induction h with
  | number x => rfl
  | paren _ ih => exact ih

theorem readExpression_eq_ok {text : String} {src : Source} :
    readExpression text = .ok src ↔ readSource text = .ok src := by
  unfold readExpression
  split
  · rename_i h
    rw [h, Except.ok.injEq, Except.ok.injEq]
  · rename_i h
    rw [h]
    simp

theorem Arg.expr_withoutNode {a : Arg} {e : Expr} :
    a.withoutNode.expr.toOption = some e ↔ ∃ src, readSource a.text = .ok src ∧ src.expr = e := by
  simp only [← readExpression_eq_ok]
  show ((readExpression a.text).map (·.expr)).toOption = some e ↔ _
  cases readExpression a.text <;> simp [Except.map, Except.toOption]

/-- **Arguments that are read again.**  An argument that is no text comes out the same when it is read
again from its text. -/
theorem Arg.rereads_argGiven {text : String} {src : Source} (hread : readSource text = .ok src)
    (hplain : src.Plain) {l : Chain.Link} (hl : l ∈ links src.expr ++ objectLinks src.expr)
    {a : Argument Expr} (ha : a ∈ l.args) (htext : (argGiven src a).isText = false) :
    (argGiven src a).Rereads := by
  -- neither as it was written nor as it is read again is the argument an arrow function
  have hother : a.value.isArrow = false →
      (∀ src', readSource (argGiven src a).text = .ok src' → src'.expr.isArrow = false) →
      (argGiven src a).Rereads := by
    intro harrow hagain
    refine .of_not_isCallback (not_isCallback ?_) (not_isCallback ?_)
    · rintro _ ⟨⟩
      rw [Expr.isArrow_unparen, harrow]
    · intro e he
      obtain ⟨src', h, rfl⟩ := Arg.expr_withoutNode.1 he
      exact hagain src' h
  cases hgiven : a.value.givenText? with
  | some t =>
    obtain h | ⟨x, hx, rfl⟩ := Expr.givenText?_eq_some.1 hgiven
    · rw [Chain.isText_argGiven.2 ⟨t, h⟩] at htext
      cases htext
    · refine hother hx.isArrow fun src' h => ?_
      rw [argGiven, hgiven] at h
      exact isArrow_scriptText h
  | none =>
    have hslice : (argGiven src a).text = src.slice a.extent := by
      rw [argGiven, hgiven, Option.getD_none]
    obtain ⟨hsame, hreadable⟩ := readSource_slice hread hplain hl ha
    rw [← hslice] at hsame hreadable
    cases hagain : readSource (argGiven src a).text with
    | error f =>
      refine hother (Bool.eq_false_iff.2 fun harrow => ?_) fun src' h => ?_
      · obtain ⟨src', h⟩ := hreadable harrow
        cases hagain.symm.trans h
      · cases hagain.symm.trans h
    | ok src' =>
      obtain hcore | ⟨h', h⟩ := hsame src' hagain
      · refine .of_core ?_
        rw [Arg.expr_withoutNode.2 ⟨src', hagain, rfl⟩, Option.map_some, hcore, ← Expr.core_unparen]
        rfl
      · refine hother h fun src'' h'' => ?_
        cases hagain.symm.trans h''
        exact h'

/-! ### Chains -/

/-- a text stands where the call takes a callback, as every call but a limit does -/
def MethodCall.takesText (m : MethodCall) : Bool :=
  m.method != "limit" && m.args.head?.any Arg.isText

/-- the arguments of the calls of a chain are those of calls that the expression is made of -/
theorem Chain.exists_link_of_ofLinks {src : Source} {d : Dialect} {ls : List Link}
    {after : List MethodCall} {c : Chain} (h : ofLinks src d after ls = .ok c) :
    ∀ m ∈ c.calls, m ∈ after ∨ ∃ l ∈ ls, m.args = l.args.map (argGiven src) := by
  induction ls generalizing after with
  | nil =>
    cases h
    exact fun m hm => .inl hm
  | cons l ls ih =>
    obtain ⟨start, method, args⟩ := l
    cases method with
    | none => cases h
    | some method =>
      simp only [ofLinks] at h
      obtain ⟨as, has, h⟩ := bind_eq_ok.1 h
      obtain ⟨-, rfl⟩ := mapM_argOf_eq_ok.1 has
      split at h
      · split at h
        · cases h
          exact fun m hm => .inl hm
        · cases h
      · intro m hm
        obtain hm | ⟨l, hl, hargs⟩ := ih h m hm
        · obtain rfl | hm := List.mem_cons.1 hm
          · exact .inr ⟨_, List.mem_cons_self, rfl⟩
          · exact .inl hm
        · exact .inr ⟨l, List.mem_cons_of_mem _ hl, hargs⟩

theorem Arg.not_isCallback_of_isText {a : Arg} (h : a.isText = true) : ¬ a.IsCallback := by
  obtain ⟨t, ht⟩ := Option.isSome_iff_exists.1 h
  obtain ⟨e, he, ht⟩ := Option.bind_eq_some_iff.1 ht
  refine not_isCallback ?_
  rw [Arg.expr, he]
  rintro _ ⟨⟩
  exact (Expr.stringValue?_eq_some.1 ht).isArrow

/-- A call that takes a callback takes no text for one. -/
theorem clauseOf_of_takesText {m : MethodCall} (h : m.takesText = true) :
    (Clause.ofCall m).toOption = none := by
  obtain ⟨method, _ | ⟨a, rest⟩⟩ := m
  · simp [MethodCall.takesText] at h
  obtain ⟨hlimit, htext⟩ := Bool.and_eq_true_iff.1 h
  have hno := Arg.not_isCallback_of_isText htext
  simp only [Arg.IsCallback, not_or, Option.not_isSome_iff_eq_none] at hno
  have hcondition : (Condition.ofArg a).toOption = none := hno.1
  have hkey : (Selector.key a).toOption = none := by rw [toOption_key, hno.2, Option.map_none]
  have hfield : (Selector.singleField a).toOption = none := by
    rw [toOption_singleField, hno.2, Option.bind_none]
  have hsole : ∀ {α : Type} {f : Arg → Except QueryError α}, (f a).toOption = none →
      (Clause.soleArgument ⟨method, a :: rest⟩ >>= f).toOption = none := by
    intro α f hf
    cases rest with
    | nil => exact hf
    | cons _ _ => rfl
  unfold Clause.ofCall
  split
  · exact hsole (by rw [toOption_bind, hcondition, Option.bind_none])
  · exact hsole (by rw [toOption_bind, hcondition, Option.bind_none])
  · exact hsole (by rw [toOption_bind, hkey, Option.bind_none])
  · exact hsole (by rw [toOption_bind, hfield, Option.bind_none])
  · rcases rest with _ | ⟨d, _ | ⟨_, _⟩⟩
    · simp only [Clause.sortKeyOf, toOption_bind, hkey, Option.bind_none]
    · simp only [Clause.sortKeyOf, toOption_bind, hkey, Option.bind_none, Option.bind_fun_none]
    · rfl
  · exact hsole (by rw [toOption_bind, hkey, Option.bind_none])
  · rename_i hmethod
    exact absurd hmethod (bne_iff_ne.1 hlimit)
  · rfl

theorem eq_ok_of_toOption {α ε : Type} {x : Except ε α} {a : α} (h : x.toOption = some a) :
    x = .ok a := by
  cases x with
  | error e => cases h
  | ok b => exact congrArg Except.ok (Option.some.inj h)

theorem toOption_mapM_eq_none {α β ε : Type} {f : α → Except ε β} {xs : List α}
    (h : ∃ x ∈ xs, (f x).toOption = none) : (xs.mapM f).toOption = none := by
  induction xs with
  | nil => simp at h
  | cons x xs ih =>
    rw [List.mapM_cons, toOption_bind]
    obtain ⟨y, hy, hnone⟩ := h
    obtain rfl | hy := List.mem_cons.1 hy
    · rw [hnone, Option.bind_none]
    · simp only [toOption_bind, ih ⟨y, hy, hnone⟩, Option.bind_none, Option.bind_fun_none]

namespace Translation

theorem answer?_of_takesText {c : Chain} (h : c.calls.any MethodCall.takesText = true)
    (d : Dialect) : answer? c d = none := by
  obtain ⟨m, hm, htext⟩ := List.any_eq_true.1 h
  have hnone := toOption_mapM_eq_none ⟨m, hm, clauseOf_of_takesText htext⟩
  rw [answer?, ofChain, toOption_bind, hnone, Option.bind_none, Option.map_none]

/-- **Expressions kept and read again.**  A chain is lowered to the same query without the expressions
of its arguments, or is lowered to none since it takes a text for a callback. -/
theorem answer?_eq_ite_withoutNodes {text : String} {src : Source} {d : Dialect} {c : Chain}
    (hread : readExpression text = .ok src) (hplain : src.Plain)
    (hchain : Chain.ofSource src d = .ok c) :
    answer? c d =
      if c.calls.any MethodCall.takesText then none else answer? c.withoutNodes d := by
  split
  · rename_i h
    exact answer?_of_takesText h d
  · rename_i h
    refine answer?_withoutNodes (fun m hm hmethod a ha => ?_) d
    have hlinks : Chain.ofLinks src d [] (links src.expr) = .ok c := by
      unfold Chain.ofSource at hchain
      split at hchain
      · cases hchain
      · exact hchain
    obtain hm' | ⟨l, hl, hargs⟩ := Chain.exists_link_of_ofLinks hlinks m hm
    · cases hm'
    have htext : a.isText = false := by
      refine Bool.eq_false_iff.2 fun htext => h (List.any_eq_true.2 ⟨m, hm, ?_⟩)
      rw [MethodCall.takesText, Option.mem_def.1 ha, Option.any_some, htext, Bool.and_true]
      exact bne_iff_ne.2 hmethod
    obtain ⟨b, hb, rfl⟩ := List.mem_map.1 (hargs ▸ List.mem_of_mem_head? ha)
    exact Arg.rereads_argGiven (readExpression_eq_ok.1 hread) hplain
      (List.mem_append_left _ hl) hb htext

/-- a callback, and another one that is written as a text -/
def quotedText : String := "dv.pages(\"#a\").map(p => p.a).where('p => p.b')"

/-- The text is no callback, and is one when it is read again. -/
theorem quotedText_answer? :
    ∃ src c, readExpression quotedText = .ok src ∧ src.Plain ∧ Chain.ofSource src {} = .ok c ∧
      answer? c {} = none ∧
      (answer? c.withoutNodes {}).map (·.1) = some "LIST a WHERE contains(file.tags, \"#a\") AND b" := by
  have hall : (readExpression quotedText).toOption.bind (fun src =>
      (Chain.ofSource src {}).toOption.map fun c =>
        (src.tokens.all (·.token.standsAlone), c.calls.any MethodCall.takesText,
          (answer? c.withoutNodes {}).map (·.1))) =
      some (true, true, some "LIST a WHERE contains(file.tags, \"#a\") AND b") := by
    decide +kernel
  obtain ⟨src, hsrc, hall⟩ := Option.bind_eq_some_iff.1 hall
  obtain ⟨c, hc, hall⟩ := Option.map_eq_some_iff.1 hall
  obtain ⟨htokens, htext, hanswer⟩ : _ ∧ _ ∧ _ := by simpa only [Prod.mk.injEq] using hall
  have hread : readExpression quotedText = .ok src := eq_ok_of_toOption hsrc
  have hchain : Chain.ofSource src {} = .ok c := eq_ok_of_toOption hc
  obtain ⟨-, -, hsame⟩ := readSource_eq_ok (readExpression_eq_ok.1 hread)
  have hplain : src.Plain := by
    refine ⟨?_, ?_, List.all_eq_true.1 htokens⟩
    · rw [hsame, IsMarked]
      decide
    · rw [hsame]
      decide
  refine ⟨src, c, hread, hplain, hchain, ?_, hanswer⟩
  rw [answer?_eq_ite_withoutNodes hread hplain hchain, if_pos htext]

end Translation

end PageQuery
