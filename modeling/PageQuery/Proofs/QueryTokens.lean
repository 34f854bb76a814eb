import PageQuery.Proofs.Pieces
import PageQuery.Proofs.Projection

/-!
# The tokens of queries

`Clauses.Spelled.spells`: the text of a query has the tokens of what is listed and of a row of pieces,
one for each flattened field, each term of the conditions, the sort and the limit.  The text of every
chain that starts from all pages or from a tag is like that: `Translation.exists_spelled`.
-/

namespace PageQuery

open Where Piece

/-! ### Texts of several words -/

namespace Where

/-- the texts have the tokens, one after the other -/
inductive SpellsAll : List String → List Token → Prop
  | nil : SpellsAll [] []
  | cons {s : String} {ts : List Token} {ss : List String} {us : List Token} :
    Spells s ts → SpellsAll ss us → SpellsAll (s :: ss) (ts ++ us)

theorem SpellsAll.append {ss ss' : List String} {ts ts' : List Token} (h : SpellsAll ss ts)
    (h' : SpellsAll ss' ts') : SpellsAll (ss ++ ss') (ts ++ ts') := by
  induction h with
  | nil => exact h'
  | cons hs _ ih =>
    rw [List.append_assoc]
    exact .cons hs ih

theorem SpellsAll.singleton {s : String} {ts : List Token} (h : Spells s ts) : SpellsAll [s] ts := by
  simpa using SpellsAll.cons h .nil

theorem SpellsAll.spells {ss : List String} {ts : List Token} (h : SpellsAll ss ts) (hne : ss ≠ []) :
    Spells (String.intercalate " " ss) ts := by
  induction h with
  | nil => exact absurd rfl hne
  | @cons s ts ss us hs hss ih =>
    by_cases hnil : ss = []
    · subst hnil
      cases hss
      simpa using hs
    · rw [String.intercalate_cons_of_ne_nil hnil]
      exact hs.append_space (ih hnil)

theorem Spells.tokenize {s : String} {ts : List Token} (h : Spells s ts) :
    Where.tokenize s.toList = some ts := by
  have htokens := h [] atBoundary_nil
  rw [List.append_nil, Where.tokenize] at htokens
  simpa using htokens

theorem Spells.append_comma {s s' : String} {ts ts' : List Token} (h : Spells s ts)
    (h' : Spells s' ts') : Spells (s ++ ", " ++ s') (ts ++ .comma :: ts') := by
  intro rest hrest
  have hs : (s ++ ", " ++ s').toList ++ rest = s.toList ++ ',' :: ' ' :: (s'.toList ++ rest) := by
    simp
  rw [hs, h _ (atBoundary_comma _), tokenize_of_token? rfl, tokenize_space, h' rest hrest]
  simp [Option.map_map, Function.comp_def]

/-- a word and a space in front -/
theorem Spells.behind {w head s : String} {ts : List Token} (h : Spells s ts)
    (hw : isWord w.toList = true) (hhead : head = w ++ " ") : Spells (head ++ s) (.item w :: ts) := by
  have hitem := isItem_of_isWord hw
  rw [String.ofList_toList] at hitem
  rw [hhead]
  exact hitem.spells.append_space h

end Where

namespace Piece

theorem spells_renderSort {k : SortKey} (h : IsItem k.field) :
    Spells (Clauses.renderSort k) (keyTokens k) := by
  have hdirection : IsItem k.direction.render := by
    cases k.direction with
    | ascending => exact isItem_of_isWord (show isWord "asc".toList = true by decide)
    | descending => exact isItem_of_isWord (show isWord "desc".toList = true by decide)
  exact h.spells.append_space hdirection.spells

theorem spells_sorts {ks : List SortKey} (hne : ks ≠ []) (h : ∀ k ∈ ks, IsItem k.field) :
    Spells (String.intercalate ", " (ks.map Clauses.renderSort)) (sortTokens ks) := by
  induction ks with
  | nil => exact absurd rfl hne
  | cons k ks ih =>
    obtain ⟨hk, hks⟩ := List.forall_mem_cons.1 h
    by_cases hnil : ks = []
    · subst hnil
      simpa [sortTokens] using spells_renderSort hk
    · rw [List.map_cons, String.intercalate_cons_of_ne_nil (by simpa using hnil),
        sortTokens_cons_of_ne_nil k hnil]
      exact (spells_renderSort hk).append_comma (ih hnil hks)

theorem isItem_digitWord (n : Nat) : IsItem (digitWord n) :=
  isItem_of_isWord (isWord_of_isNumeral (isNumeral_of_isDigits (Number.isDigits_digitChars n)))

theorem direction_render_injective {d d' : Direction} (h : d.render = d'.render) : d = d' := by
  revert h
  cases d <;> cases d' <;> decide

theorem keyTokens_injective {k k' : SortKey} (h : keyTokens k = keyTokens k') : k = k' := by
  obtain ⟨field, direction⟩ := k
  obtain ⟨field', direction'⟩ := k'
  simp only [keyTokens, List.cons.injEq, Token.item.injEq, and_true] at h
  rw [h.1, direction_render_injective h.2]

theorem sortTokens_injective {ks ks' : List SortKey} (h : sortTokens ks = sortTokens ks') :
    ks = ks' := by
  induction ks generalizing ks' with
  | nil =>
    cases ks' with
    | nil => rfl
    | cons k' ks' =>
      rw [sortTokens_cons] at h
      cases h
  | cons k ks ih =>
    cases ks' with
    | nil =>
      rw [sortTokens_cons] at h
      cases h
    | cons k' ks' =>
      rw [sortTokens_cons, sortTokens_cons] at h
      obtain ⟨hkey, hkeys⟩ := List.append_inj h rfl
      rw [keyTokens_injective hkey]
      by_cases hnil : ks = [] <;> by_cases hnil' : ks' = []
      · rw [hnil, hnil']
      · simp [hnil, hnil'] at hkeys
      · simp [hnil, hnil'] at hkeys
      · simp only [hnil, hnil', if_false, List.cons.injEq, true_and] at hkeys
        rw [ih hkeys]

theorem digitWord_injective {n n' : Nat} (h : digitWord n = digitWord n') : n = n' := by
  have hchars : Nat.toDigits 10 n = Nat.toDigits 10 n' := String.ofList_injective h
  rw [← @Nat.ofDigitChars_ten_toDigits n, hchars, Nat.ofDigitChars_ten_toDigits]

end Piece

/-! ### Pieces of a query -/

namespace Clauses

def flattenPieces (fields : List String) : List Piece := fields.map fun f => ⟨"FLATTEN", [.item f]⟩

/-- the requirements, the first of them behind the word of the clause -/
def requirementPieces : List (List Token) → List Piece
  | [] => []
  | ts :: tss => ⟨"WHERE", ts⟩ :: tss.map fun ts => ⟨"AND", ts⟩

def sortPieces (ks : List SortKey) : List Piece :=
  if ks = [] then [] else [⟨"SORT", sortTokens ks⟩]

def limitPieces (limit : Option Nat) : List Piece :=
  limit.toList.map fun n => ⟨"LIMIT", [.item (digitWord n)]⟩

/-- the pieces of a query behind what is listed, if these are the terms of its conditions -/
def pieces (c : Clauses) (tss : List (List Token)) : List Piece :=
  flattenPieces c.flattens ++ requirementPieces tss ++ sortPieces c.sorts ++ limitPieces c.limit

/-- what the words of a query begin with -/
def headTokens (listed : Option String) : List Token := .item "LIST" :: listed.toList.map .item

/-- the names in the query are words, and these are the terms that its conditions join -/
structure Spelled (c : Clauses) (texts : List String) (tss : List (List Token)) : Prop where
  pages : c.pages = ""
  groups : c.groups = []
  listed : ∀ s ∈ c.listed, IsItem s
  flattens : ∀ f ∈ c.flattens, IsItem f
  sorts : ∀ k ∈ c.sorts, IsItem k.field
  terms : List.Forall₂ TermText texts tss
  nil_iff : texts = [] ↔ c.conditions = []
  joined : String.intercalate " AND " c.conditions = String.intercalate " AND " texts

theorem allTokens_requirementPieces {tss : List (List Token)} (hne : tss ≠ []) :
    allTokens (requirementPieces tss) = .item "WHERE" :: [.item "AND"].intercalate tss := by
  obtain ⟨ts, tss, rfl⟩ := List.exists_cons_of_ne_nil hne
  have hrest : ∀ ts : List Token, ts ++ allTokens (tss.map fun ts => ⟨"AND", ts⟩) =
      [.item "AND"].intercalate (ts :: tss) := by
    induction tss with
    | nil => simp [allTokens]
    | cons us tss ih =>
      intro ts
      rw [List.intercalate_cons_of_ne_nil (by simp), ← ih (by simp) us, List.map_cons,
        allTokens_cons, List.append_assoc, List.singleton_append]
  exact congrArg (.item "WHERE" :: ·) (hrest ts)

theorem spellsAll_flattens {fields : List String} (h : ∀ f ∈ fields, IsItem f) :
    SpellsAll (fields.map ("FLATTEN " ++ ·)) (allTokens (flattenPieces fields)) := by
  induction fields with
  | nil => exact .nil
  | cons f fields ih =>
    obtain ⟨hf, hfields⟩ := List.forall_mem_cons.1 h
    have hspells : Spells ("FLATTEN " ++ f) [.item "FLATTEN", .item f] :=
      hf.spells.behind (by decide) (by decide)
    exact .cons hspells (ih hfields)

variable {c : Clauses} {texts : List String} {tss : List (List Token)}

theorem Spelled.spellsAll_conditions (h : c.Spelled texts tss) :
    SpellsAll (if c.conditions.isEmpty then []
      else ["WHERE " ++ String.intercalate " AND " c.conditions])
      (allTokens (requirementPieces tss)) := by
  by_cases hnil : c.conditions = []
  · obtain rfl := h.nil_iff.2 hnil
    have hterms := h.terms
    cases hterms
    rw [if_pos (by simpa using hnil)]
    exact .nil
  · have htexts : texts ≠ [] := fun htexts => hnil (h.nil_iff.1 htexts)
    have htss : tss ≠ [] := fun htss => htexts (List.forall₂_nil_right_iff.1 (htss ▸ h.terms))
    rw [if_neg (by simpa using hnil), h.joined, allTokens_requirementPieces htss]
    exact .singleton ((spells_intercalate .and h.terms htexts).behind (by decide) (by decide))

theorem Spelled.spellsAll_sorts (h : c.Spelled texts tss) :
    SpellsAll (if c.sorts.isEmpty then []
      else ["SORT " ++ String.intercalate ", " (c.sorts.map renderSort)])
      (allTokens (sortPieces c.sorts)) := by
  by_cases hnil : c.sorts = []
  · rw [if_pos (by simpa using hnil), sortPieces, if_pos hnil]
    exact .nil
  · have hspells : Spells ("SORT " ++ String.intercalate ", " (c.sorts.map renderSort))
        (.item "SORT" :: sortTokens c.sorts) :=
      (spells_sorts hnil h.sorts).behind (by decide) (by decide)
    rw [if_neg (by simpa using hnil), sortPieces, if_neg hnil]
    simpa [allTokens, tokens] using SpellsAll.singleton hspells

theorem spellsAll_limit (limit : Option Nat) :
    SpellsAll (match limit with
      | some n => ["LIMIT " ++ String.ofList (Number.digitChars n)]
      | none => []) (allTokens (limitPieces limit)) := by
  cases limit with
  | none => exact .nil
  | some n =>
    have hspells : Spells ("LIMIT " ++ digitWord n) [.item "LIMIT", .item (digitWord n)] :=
      (isItem_digitWord n).spells.behind (by decide) (by decide)
    exact .singleton hspells

theorem spellsAll_listed (listed : Option String) : (∀ s ∈ listed, IsItem s) →
    SpellsAll [match listed with
      | some field => "LIST " ++ field
      | none => "LIST"] (headTokens listed) := by
  intro h
  cases listed with
  | none => exact .singleton (isItem_of_isWord (show isWord "LIST".toList = true by decide)).spells
  | some s => exact .singleton ((h s rfl).spells.behind (by decide) (by decide))

/-- **Tokens.**  The text of a query has the tokens of what is listed and of its pieces. -/
theorem Spelled.spells (h : c.Spelled texts tss) :
    Spells c.render (headTokens c.listed ++ allTokens (c.pieces tss)) := by
  have hrender := ((((spellsAll_listed _ h.listed).append (spellsAll_flattens h.flattens)).append
    h.spellsAll_conditions).append h.spellsAll_sorts).append (spellsAll_limit c.limit)
  simp only [List.append_assoc] at hrender
  have hall : SpellsAll c.renderEach (headTokens c.listed ++ allTokens (c.pieces tss)) := by
    simp only [renderEach, h.pages, h.groups, show "".isEmpty = true from rfl, List.isEmpty_nil, if_true,
      List.append_nil, pieces, allTokens_append, List.append_assoc]
    exact hrender
  exact hall.spells (by simp [renderEach])

end Clauses

/-! ### Lowered chains -/

/-- the root names no source of pages: it is empty or a tag -/
def Chain.NamesNoSource (chain : Chain) (d : Dialect) : Prop :=
  Text.trim chain.source = "" ∨ (Text.trim chain.source).toList.head? = some d.sigil

theorem Selector.Selects.isItem {a : Arg} {path : List String} (h : Selects a path) :
    IsItem (pathText path) := by
  obtain ⟨e, p, body, -, -, hpath⟩ := h
  have hreadable : (Operand.field path).Readable := ⟨hpath.2, hpath.1.names⟩
  exact hreadable.isItem

theorem exists_map_eq {α β : Type} {f : α → β} {P : α → Prop} {ys : List β}
    (h : ∀ y ∈ ys, ∃ x, P x ∧ y = f x) : ∃ xs : List α, ys = xs.map f ∧ ∀ x ∈ xs, P x := by
  induction ys with
  | nil => exact ⟨[], rfl, by simp⟩
  | cons y ys ih =>
    obtain ⟨⟨x, hx, rfl⟩, hys⟩ := List.forall_mem_cons.1 h
    obtain ⟨xs, rfl, hxs⟩ := ih hys
    exact ⟨x :: xs, rfl, List.forall_mem_cons.2 ⟨hx, hxs⟩⟩

namespace Translation

/-- what the conditions of a query are the texts of -/
theorem exists_condition {chain : Chain} {d : Dialect} {t : Translation} (h : ofChain chain d = .ok t) :
    ∀ text ∈ t.clauses.conditions, ∃ c : Condition, (c.Normal ∧ c.Readable) ∧ text = c.fragment := by
  obtain ⟨cs, hcs, -, hclauses, -⟩ := ofChain_eq_ok.1 h
  rw [hclauses, Clauses.collect, Clauses.ofRoot_conditions]
  intro text htext
  rcases List.mem_append.1 htext with htext | htext
  · split at htext
    · rw [List.mem_singleton.1 htext]
      exact ⟨_, ⟨.contains _ _, Condition.hasTag_readable _⟩, rfl⟩
    · cases htext
  · obtain ⟨c, hc, hcondition⟩ := List.mem_filterMap.1 htext
    obtain ⟨m, -, hm⟩ := exists_of_forall₂ hcs c hc
    cases Clause.ofCall_eq_ok.1 hm with
    | condition _ _ hstates =>
      cases hcondition
      obtain ⟨e, p, body, f, -, -, hf, rfl⟩ := hstates
      exact ⟨_, ⟨hf.normal_condition, hf.readable⟩, rfl⟩
    | _ => cases hcondition

/-- The names in the text of a chain that starts from all pages or from a tag are words, and its
conditions are terms. -/
theorem exists_spelled {chain : Chain} {d : Dialect} {t : Translation} (h : ofChain chain d = .ok t)
    (hroot : chain.NamesNoSource d) : ∃ texts tss, t.clauses.Spelled texts tss := by
  obtain ⟨ds, hds, hterms⟩ := exists_map_eq (exists_condition h)
  obtain ⟨texts, tss, htexts, hnil, hjoined⟩ := Condition.exists_terms hterms
  obtain ⟨cs, hcs, -, hclauses, -⟩ := ofChain_eq_ok.1 h
  have hadds : ∀ c ∈ cs, ∃ m, Clause.Adds m c := by
    intro c hc
    obtain ⟨m, -, hm⟩ := exists_of_forall₂ hcs c hc
    exact ⟨m, Clause.ofCall_eq_ok.1 hm⟩
  refine ⟨texts, tss, ?_, ?_, ?_, ?_, ?_, htexts, ?_, ?_⟩
  · rw [hclauses, Clauses.collect, Clauses.ofRoot_pages]
    rcases hroot with hroot | hroot <;> simp [hroot]
  · rw [hclauses, Clauses.collect]
  · rw [hclauses, Clauses.collect]
    intro s hs
    obtain ⟨c, hc, hlisted⟩ := List.mem_filterMap.1 (List.mem_of_getLast? hs)
    obtain ⟨m, hm⟩ := hadds c hc
    cases hm with
    | listed _ _ hpath => cases hlisted; exact hpath.isItem
    | _ => cases hlisted
  · rw [hclauses, Clauses.collect]
    intro f hf
    obtain ⟨c, hc, hflatten⟩ := List.mem_filterMap.1 hf
    obtain ⟨m, hm⟩ := hadds c hc
    cases hm with
    | flatten _ _ hpath => cases hflatten; simpa [Selector.pathText] using hpath.isItem
    | _ => cases hflatten
  · rw [hclauses, Clauses.collect]
    intro k hk
    obtain ⟨c, hc, hsort⟩ := List.mem_filterMap.1 hk
    obtain ⟨m, hm⟩ := hadds c hc
    cases hm with
    | sort _ _ hpath => cases hsort; exact hpath.isItem
    | sortTowards _ _ hpath _ => cases hsort; exact hpath.isItem
    | sortDesc _ _ hpath => cases hsort; exact hpath.isItem
    | _ => cases hsort
  · rw [hnil, hds, List.map_eq_nil_iff]
  · rw [hds, hjoined]

end Translation

end PageQuery
