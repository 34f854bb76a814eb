import PageQuery.Proofs.Conjunction
import PageQuery.Proofs.Grouping

/-!
# Terms delimit themselves

The tokens of a term of a condition (`IsTerm`) tell where it ends, whatever word follows it:
`IsTerm.afterTerm`.  What is joined with AND in the text of a query are such terms:
`Condition.exists_terms`.
-/

namespace PageQuery

namespace Where

/-! ### Tokens of terms -/

/-- the tokens of a term -/
inductive IsTerm : List Token → Prop
  | item (x : String) : IsTerm [.item x]
  | comparison (x op y : String) : IsTerm [.item x, .comparison op, .item y]
  | contains (x y : String) :
    IsTerm [.item "contains", .opening, .item x, .comma, .item y, .closing]
  | not {ts : List Token} : IsTerm ts → IsTerm (.bang :: ts)
  | paren (k : Connective) {tss : List (List Token)} : tss ≠ [] → (∀ ts ∈ tss, IsTerm ts) →
    IsTerm (.opening :: [.item k.word].intercalate tss ++ [.closing])

/-- what is left behind a term: some parentheses are open, and an operand is expected or not -/
def afterTerm : Nat → Bool → List Token → List Token
  | depth, true, .item _ :: ts => afterTerm depth false ts
  | depth, true, .bang :: ts => afterTerm depth true ts
  | depth, _, .opening :: ts => afterTerm (depth + 1) true ts
  | depth, false, .comparison _ :: ts => afterTerm depth true ts
  | depth + 1, false, .item _ :: ts => afterTerm (depth + 1) true ts
  | depth + 1, false, .comma :: ts => afterTerm (depth + 1) true ts
  | depth + 1, false, .closing :: ts => afterTerm depth false ts
  | _, _, ts => ts

/-- the terms in parentheses, joined by words -/
theorem afterTerm_intercalate {x : String} {tss : List (List Token)} (hne : tss ≠ [])
    (h : ∀ ts ∈ tss, ∀ depth rest,
      afterTerm depth true (ts ++ rest) = afterTerm depth false rest)
    (depth : Nat) (rest : List Token) :
    afterTerm (depth + 1) true ([.item x].intercalate tss ++ rest) =
      afterTerm (depth + 1) false rest := by
  induction tss with
  | nil => exact absurd rfl hne
  | cons ts tss ih =>
    obtain ⟨hts, htss⟩ := List.forall_mem_cons.1 h
    by_cases hnil : tss = []
    · rw [hnil, List.intercalate_singleton]
      exact hts _ rest
    · rw [List.intercalate_cons_of_ne_nil hnil, List.append_assoc, List.append_assoc, hts,
        List.singleton_append, afterTerm, ih hnil htss]

/-- **Terms delimit themselves.**  A term is passed as a whole, at any depth. -/
theorem IsTerm.afterTerm {ts : List Token} (h : IsTerm ts) (depth : Nat) (rest : List Token) :
    afterTerm depth true (ts ++ rest) = afterTerm depth false rest := by
  induction h generalizing depth rest with
  | item x => rfl
  | comparison x op y => rfl
  | contains x y => rfl
  | not _ ih => exact ih depth rest
  | paren k hne _ ih =>
    rw [List.cons_append, List.cons_append, Where.afterTerm, List.append_assoc,
      afterTerm_intercalate hne ih, List.singleton_append, Where.afterTerm]

/-- a word or the end of the text stands here -/
def StartsWord : List Token → Prop
  | [] => True
  | .item _ :: _ => True
  | _ => False

theorem afterTerm_of_startsWord {ts : List Token} (h : StartsWord ts) :
    afterTerm 0 false ts = ts := by
  rcases ts with _ | ⟨_ | _ | _ | _ | _ | _, ts⟩
  · rfl
  · rfl
  all_goals cases h

theorem IsTerm.ne_nil {ts : List Token} (h : IsTerm ts) : ts ≠ [] := by
  cases h <;> simp

/-- behind a word at its beginning a term is over or goes on with a comparison -/
theorem IsTerm.of_item {x : String} {ts : List Token} (h : IsTerm (.item x :: ts))
    (hx : x ≠ "contains") : ts = [] ∨ ∃ op y, ts = [.comparison op, .item y] := by
  cases h with
  | item => exact Or.inl rfl
  | comparison _ op y => exact Or.inr ⟨op, y, rfl⟩
  | contains x y => exact absurd rfl hx

/-- an operand, a negation or a parenthesis stands here -/
def StartsOperand : List Token → Prop
  | .item _ :: _ => True
  | .bang :: _ => True
  | .opening :: _ => True
  | _ => False

theorem IsTerm.startsOperand {ts : List Token} (h : IsTerm ts) (rest : List Token) :
    StartsOperand (ts ++ rest) := by
  cases h <;> trivial

/-! ### Texts of terms -/

/-- the text has the tokens of a term; a term of one word is that word -/
structure TermText (s : String) (ts : List Token) : Prop where
  head : s.toList.head? ≠ some '='
  spells : Spells s ts
  isTerm : IsTerm ts
  word : ∀ x, ts = [.item x] → s = x

/-- the text has the tokens of terms joined by one connective -/
def IsJoinText (s : String) : Prop :=
  ∃ (k : Connective) (tss : List (List Token)), tss ≠ [] ∧ (∀ ts ∈ tss, IsTerm ts) ∧
    Spells s ([.item k.word].intercalate tss)

theorem TermText.isJoinText {s : String} {ts : List Token} (h : TermText s ts) : IsJoinText s :=
  ⟨.and, [ts], by simp, by simpa using h.isTerm, by simpa using h.spells⟩

theorem IsJoinText.paren {s : String} (h : IsJoinText s) : ∃ ts, TermText ("(" ++ s ++ ")") ts := by
  obtain ⟨k, tss, hne, htss, hs⟩ := h
  exact ⟨_, by simp, hs.paren, .paren k hne htss, by simp⟩

theorem TermText.not {s : String} {ts : List Token} (h : TermText s ts) :
    TermText ("!" ++ s) (.bang :: ts) :=
  ⟨by simp, h.spells.bang h.head, .not h.isTerm, by simp⟩

theorem IsItem.termText {s : String} (h : IsItem s) : TermText s [.item s] :=
  ⟨h.head, h.spells, .item s, by simp⟩

theorem isItem_word (k : Connective) : IsItem k.word := by
  cases k with
  | and => exact isItem_of_isWord (show isWord "AND".toList = true by decide)
  | or => exact isItem_of_isWord (show isWord "OR".toList = true by decide)

theorem separator_eq (k : Connective) : k.separator = " " ++ k.word ++ " " := by
  cases k <;> rfl

/-- texts of terms are joined as their tokens are -/
theorem spells_intercalate (k : Connective) {texts : List String} {tss : List (List Token)}
    (h : List.Forall₂ TermText texts tss) (hne : texts ≠ []) :
    Spells (String.intercalate k.separator texts) ([.item k.word].intercalate tss) := by
  induction h with
  | nil => exact absurd rfl hne
  | @cons s ts texts tss hs htexts ih =>
    by_cases hnil : texts = []
    · subst hnil
      cases htexts
      simpa using hs.spells
    · have htss : tss ≠ [] := fun htss => hnil (List.forall₂_nil_right_iff.1 (htss ▸ htexts))
      have hspells := (hs.spells.append_space (isItem_word k).spells).append_space (ih hnil)
      have hseparator : s ++ " " ++ k.word ++ " " = s ++ k.separator := by
        simp only [separator_eq, String.append_assoc]
      rwa [hseparator, ← String.intercalate_cons_of_ne_nil hnil,
        ← List.intercalate_cons_of_ne_nil htss] at hspells

theorem isJoinText_intercalate (k : Connective) {texts : List String} (hne : texts ≠ [])
    (h : ∀ s ∈ texts, ∃ ts, TermText s ts) : IsJoinText (String.intercalate k.separator texts) := by
  obtain ⟨tss, htss⟩ := exists_forall₂_iff.2 h
  refine ⟨k, tss, ?_, fun ts hts => ?_, spells_intercalate k htss hne⟩
  · exact fun hnil => hne (List.forall₂_nil_right_iff.1 (hnil ▸ htss))
  · obtain ⟨s, -, hs⟩ := exists_of_forall₂ htss ts hts
    exact hs.isTerm

end Where

open Where

/-! ### Conditions -/

namespace Condition

/-- the condition is a group of the connective -/
def isGroup (k : Connective) (c : Condition) : Bool :=
  match k with
  | .and => c.isAll
  | .or => c.isAny

/-- the text of a group joins terms, any other text is that of a term -/
def HasTerms (c : Condition) : Prop :=
  IsJoinText c.render ∧ ((∀ k, c.isGroup k = false) → ∃ ts, TermText c.render ts)

theorem HasTerms.of_termText {c : Condition} {ts : List Token} (h : TermText c.render ts) :
    c.HasTerms := ⟨h.isJoinText, fun _ => ⟨ts, h⟩⟩

/-- the text of the condition among others that the connective joins -/
theorem HasTerms.exists_termText {c : Condition} (h : c.HasTerms) {k : Connective}
    (hk : c.isGroup k = false) : ∃ ts, TermText (termText k c) ts := by
  unfold termText parens
  cases hsplit : c.isSplitBy k with
  | true => exact h.1.paren
  | false =>
    refine h.2 fun k' => ?_
    cases k <;> cases k' <;> assumption

/-- **Terms.**  The text of a readable condition in normal form is made of terms. -/
theorem Normal.hasTerms {c : Condition} (h : c.Normal) (hr : c.Readable) : c.HasTerms := by
  induction h with
  | @all terms hne _ hkind ih =>
    cases hr with
    | all _ hread =>
      refine ⟨?_, fun hgroup => absurd (hgroup .and) (by simp [isGroup, isAll])⟩
      rw [render, renderAll_eq_map]
      refine isJoinText_intercalate .and (by simpa using hne) fun s hs => ?_
      obtain ⟨d, hd, rfl⟩ := List.mem_map.1 hs
      exact (ih d hd (hread d hd)).exists_termText (hkind d hd)
  | @any terms hne _ hkind ih =>
    cases hr with
    | any _ hread =>
      refine ⟨?_, fun hgroup => absurd (hgroup .or) (by simp [isGroup, isAny])⟩
      rw [render, renderAny_eq_map]
      refine isJoinText_intercalate .or (by simpa using hne) fun s hs => ?_
      obtain ⟨d, hd, rfl⟩ := List.mem_map.1 hs
      exact (ih d hd (hread d hd)).exists_termText (hkind d hd)
  | @not inner _ ih =>
    cases hr with
    | not hread =>
      have hinner := ih hread
      have hterm : ∃ ts, TermText (parens (!inner.isAtomic) inner.render) ts := by
        cases hatomic : inner.isAtomic with
        | false => exact hinner.1.paren
        | true =>
          refine hinner.2 fun k => ?_
          cases inner <;> cases k <;> first | rfl | cases hatomic
      obtain ⟨ts, hts⟩ := hterm
      have hnot : TermText (Condition.not inner).render (.bang :: ts) := by
        rw [render]
        exact hts.not
      exact .of_termText hnot
  | compare l op r =>
    cases hr with
    | compare hl hr =>
      have hspells := (hl.isItem.spells.append_space
        (spells_symbol (symbol_mem_symbols op))).append_space hr.isItem.spells
      refine .of_termText ⟨?_, hspells, .comparison _ _ _, by simp⟩
      have hhead := hl.isItem.head
      simp only [render, String.toList_append, List.append_assoc]
      cases hleft : l.render.toList with
      | nil => simp
      | cons c cs => rwa [hleft] at hhead
  | contains h n =>
    cases hr with
    | contains hh hn =>
      refine .of_termText ⟨?_, spells_contains hh.isItem hn.isItem, .contains _ _, by simp⟩
      simp [render]
  | truthy o =>
    cases hr with
    | truthy ho => exact .of_termText ho.isItem.termText

/-- the texts of conditions, joined with AND, are texts of terms joined with AND -/
theorem exists_terms {cs : List Condition} (h : ∀ c ∈ cs, c.Normal ∧ c.Readable) :
    ∃ texts tss, List.Forall₂ TermText texts tss ∧ (texts = [] ↔ cs = []) ∧
      String.intercalate " AND " (cs.map (·.fragment)) = String.intercalate " AND " texts := by
  have hterms : ∀ s ∈ (cs.flatMap asRequirements).map (termText .and), ∃ ts, TermText s ts := by
    intro s hs
    obtain ⟨d, hd, rfl⟩ := List.mem_map.1 hs
    obtain ⟨c, hc, hd⟩ := List.mem_flatMap.1 hd
    obtain ⟨hnormal, hall⟩ := (h c hc).1.asRequirements.2 d hd
    exact (hnormal.hasTerms ((h c hc).2.asRequirements.2 d hd)).exists_termText hall
  obtain ⟨tss, htss⟩ := exists_forall₂_iff.2 hterms
  have hne : ∀ c ∈ cs, c.asRequirements ≠ [] := fun c hc => (h c hc).1.asRequirements.1
  refine ⟨_, tss, htss, ?_, (fragment_allOf hne).symm.trans (fragment_eq_intercalate (allOf cs))⟩
  cases cs with
  | nil => simp
  | cons c cs => simp [hne c List.mem_cons_self]

end Condition

end PageQuery
