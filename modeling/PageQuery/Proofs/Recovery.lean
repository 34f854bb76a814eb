import PageQuery.Proofs.QueryTokens

/-!
# What the text of a query tells of its clauses

The text of a query has the words of its clauses and of the names in them, and nothing keeps a field
from being called like a clause.  Two texts that agree still have the same clauses, but for one case:
a field that is listed by one query only can shift every word behind it by one place, until a direction
of a sort ends that (`Clauses.Clashes`).  Both sides are compared by their rows of pieces, and
`Translation.query_eq_iff` says exactly which chains share a text.
-/

namespace PageQuery

open Where Piece

/-- Lists are parted where a property ends. -/
theorem append_inj_of_head {α : Type} {P : α → Prop} {as bs as' bs' : List α}
    (has : ∀ a ∈ as, P a) (hbs : ∀ b ∈ bs.head?, ¬ P b) (has' : ∀ a ∈ as', P a)
    (hbs' : ∀ b ∈ bs'.head?, ¬ P b) (h : as ++ bs = as' ++ bs') : as = as' ∧ bs = bs' := by
  induction as generalizing as' with
  | nil =>
    cases as' with
    | nil => exact ⟨rfl, h⟩
    | cons a' as' =>
      rw [List.nil_append] at h
      rw [h] at hbs
      exact absurd (has' a' List.mem_cons_self) (hbs a' rfl)
  | cons a as ih =>
    cases as' with
    | nil =>
      rw [List.nil_append] at h
      rw [← h] at hbs'
      exact absurd (has a List.mem_cons_self) (hbs' a rfl)
    | cons a' as' =>
      obtain ⟨rfl, hrest⟩ : a = a' ∧ as ++ bs = as' ++ bs' := List.cons.inj h
      obtain ⟨rfl, rfl⟩ := ih (List.forall_mem_cons.1 has).2 (List.forall_mem_cons.1 has').2 hrest
      exact ⟨rfl, rfl⟩

namespace Clauses

variable {c c' : Clauses} {texts texts' : List String} {tss tss' : List (List Token)}

/-! ### Rows of pieces and clauses -/

/-- flattened fields and requirements -/
def mainPieces (c : Clauses) (tss : List (List Token)) : List Piece :=
  flattenPieces c.flattens ++ requirementPieces tss

/-- sorts and the limit -/
def lastPieces (c : Clauses) : List Piece := sortPieces c.sorts ++ limitPieces c.limit

theorem pieces_eq (c : Clauses) (tss : List (List Token)) :
    c.pieces tss = c.mainPieces tss ++ c.lastPieces := List.append_assoc ..

theorem head_of_mem_flattenPieces {fields : List String} :
    ∀ p ∈ flattenPieces fields, p.head = "FLATTEN" := by
  simp [flattenPieces]

theorem head_of_mem_requirementPieces :
    ∀ p ∈ requirementPieces tss, p.head = "WHERE" ∨ p.head = "AND" := by
  cases tss with
  | nil => simp [requirementPieces]
  | cons ts tss => simp [requirementPieces]

theorem head_of_mem_sortPieces {ks : List SortKey} : ∀ p ∈ sortPieces ks, p.head = "SORT" := by
  by_cases h : ks = [] <;> simp [sortPieces, h]

theorem head_of_mem_limitPieces {limit : Option Nat} :
    ∀ p ∈ limitPieces limit, p.head = "LIMIT" := by
  simp [limitPieces]

theorem head_of_mem_mainPieces : ∀ p ∈ c.mainPieces tss, p.head ∈ plainHeads := by
  intro p hp
  rcases List.mem_append.1 hp with hp | hp
  · rw [head_of_mem_flattenPieces p hp]
    decide
  · rcases head_of_mem_requirementPieces p hp with h | h <;> rw [h] <;> decide

theorem head_of_mem_lastPieces : ∀ p ∈ c.lastPieces, p.head ∉ plainHeads := by
  intro p hp
  rcases List.mem_append.1 hp with hp | hp
  · rw [head_of_mem_sortPieces p hp]
    decide
  · rw [head_of_mem_limitPieces p hp]
    decide

theorem sortPieces_injective {ks ks' : List SortKey} (h : sortPieces ks = sortPieces ks') :
    ks = ks' := by
  by_cases hks : ks = [] <;> by_cases hks' : ks' = []
  · rw [hks, hks']
  · simp [sortPieces, hks, hks'] at h
  · simp [sortPieces, hks, hks'] at h
  · simp only [sortPieces, hks, hks', if_false, List.cons.injEq, Piece.mk.injEq, true_and,
      and_true] at h
    exact sortTokens_injective h

theorem limitPieces_injective {n n' : Option Nat} (h : limitPieces n = limitPieces n') : n = n' := by
  cases n <;> cases n' <;> simp_all [limitPieces]
  exact digitWord_injective h

theorem flattenPieces_injective {fields fields' : List String}
    (h : flattenPieces fields = flattenPieces fields') : fields = fields' :=
  List.map_injective_iff.2 (fun f f' hf => by simpa using hf) h

theorem body_requirementPieces (tss : List (List Token)) :
    (requirementPieces tss).map Piece.body = tss := by
  cases tss with
  | nil => rfl
  | cons ts tss => simp [requirementPieces, Function.comp_def]

theorem requirementPieces_injective (h : requirementPieces tss = requirementPieces tss') :
    tss = tss' := by
  rw [← body_requirementPieces tss, h, body_requirementPieces]

/-- sorts with no other sort behind them -/
theorem sortPieces_append_inj {ks ks' : List SortKey} {rest rest' : List Piece}
    (hrest : ∀ p ∈ rest, p.head = "LIMIT") (hrest' : ∀ p ∈ rest', p.head = "LIMIT")
    (h : sortPieces ks ++ rest = sortPieces ks' ++ rest') : ks = ks' ∧ rest = rest' := by
  have hlimit : ∀ {rest : List Piece}, (∀ p ∈ rest, p.head = "LIMIT") →
      ∀ p ∈ rest.head?, p.head ≠ "SORT" := by
    intro rest hrest p hp
    rw [hrest p (List.mem_of_mem_head? hp)]
    decide
  obtain ⟨hsorts, hrests⟩ := append_inj_of_head head_of_mem_sortPieces (hlimit hrest)
    head_of_mem_sortPieces (hlimit hrest') h
  exact ⟨sortPieces_injective hsorts, hrests⟩

theorem lastPieces_injective (h : c.lastPieces = c'.lastPieces) :
    c.sorts = c'.sorts ∧ c.limit = c'.limit := by
  obtain ⟨hsorts, hlimit⟩ := sortPieces_append_inj head_of_mem_limitPieces head_of_mem_limitPieces h
  exact ⟨hsorts, limitPieces_injective hlimit⟩

theorem mainPieces_injective (h : c.mainPieces tss = c'.mainPieces tss') :
    c.flattens = c'.flattens ∧ tss = tss' := by
  have hrequirement : ∀ tss, ∀ p ∈ (requirementPieces tss).head?, p.head ≠ "FLATTEN" := by
    intro tss p hp
    rcases head_of_mem_requirementPieces p (List.mem_of_mem_head? hp) with h | h <;> rw [h] <;>
      decide
  obtain ⟨hflattens, hrequirements⟩ := append_inj_of_head head_of_mem_flattenPieces
    (hrequirement tss) head_of_mem_flattenPieces (hrequirement tss') h
  exact ⟨flattenPieces_injective hflattens, requirementPieces_injective hrequirements⟩

theorem not_plain_of_mem_head_lastPieces (c : Clauses) :
    ∀ p ∈ c.lastPieces.head?, p.head ∉ plainHeads := fun p hp =>
  head_of_mem_lastPieces p (List.mem_of_mem_head? hp)

/-- a sort by one key and other pieces behind it -/
theorem lastPieces_eq_cons {k : SortKey} {rest : List Piece} (h : c.lastPieces = ofKey k :: rest) :
    c.sorts = [k] ∧ limitPieces c.limit = rest := by
  by_cases hsorts : c.sorts = []
  · rw [lastPieces, hsorts] at h
    have hmem : ofKey k ∈ limitPieces c.limit := by
      rw [show limitPieces c.limit = ofKey k :: rest from h]
      exact List.mem_cons_self
    exact absurd (head_of_mem_limitPieces _ hmem) (show "SORT" ≠ "LIMIT" by decide)
  · rw [lastPieces, sortPieces, if_neg hsorts] at h
    obtain ⟨hsort, hlimit⟩ := List.cons.inj h
    exact ⟨sortTokens_injective (Piece.mk.inj hsort).2, hlimit⟩

/-- The pieces of a query are a row of pieces of two words, with or without a sort by one key, and
others behind them: limits, if there is no sort to tell where these begin. -/
theorem of_pieces_eq_row {xs : List (String × String)} {k : Option SortKey} {rest : List Piece}
    (hxs : ∀ w ∈ xs, w.1 ∈ plainHeads) (hrest : k = none → ∀ p ∈ rest, p.head = "LIMIT")
    (h : c.pieces tss = xs.map ofWords ++ k.toList.map ofKey ++ rest) :
    c.mainPieces tss = xs.map ofWords ∧ c.sorts = k.toList ∧ limitPieces c.limit = rest := by
  have hplain : ∀ p ∈ xs.map ofWords, p.head ∈ plainHeads := by
    intro p hp
    obtain ⟨w, hw, rfl⟩ := List.mem_map.1 hp
    exact hxs w hw
  rw [pieces_eq, List.append_assoc] at h
  have hhead : ∀ p ∈ (k.toList.map ofKey ++ rest).head?, p.head ∉ plainHeads := by
    intro p hp
    cases k with
    | some k =>
      cases hp
      exact show "SORT" ∉ plainHeads by decide
    | none =>
      rw [hrest rfl p (List.mem_of_mem_head? hp)]
      decide
  obtain ⟨hmain, hlast⟩ := append_inj_of_head head_of_mem_mainPieces
    (not_plain_of_mem_head_lastPieces c) hplain hhead h
  refine ⟨hmain, ?_⟩
  cases k with
  | some k => exact lastPieces_eq_cons hlast
  | none =>
    have hnosort : sortPieces c.sorts ++ limitPieces c.limit = sortPieces [] ++ rest := hlast
    exact sortPieces_append_inj head_of_mem_limitPieces (hrest rfl) hnosort

theorem eq_of_pieces_eq (h : c.pieces tss = c'.pieces tss') :
    (c.flattens = c'.flattens ∧ tss = tss') ∧ c.sorts = c'.sorts ∧ c.limit = c'.limit := by
  rw [pieces_eq, pieces_eq] at h
  obtain ⟨hmain, hlast⟩ := append_inj_of_head head_of_mem_mainPieces
    (not_plain_of_mem_head_lastPieces c) head_of_mem_mainPieces
    (not_plain_of_mem_head_lastPieces c') h
  exact ⟨mainPieces_injective hmain, lastPieces_injective hlast⟩

theorem Spelled.valid (h : c.Spelled texts tss) : ∀ p ∈ c.pieces tss, p.Valid := by
  intro p hp
  simp only [pieces, List.mem_append] at hp
  rcases hp with ((hp | hp) | hp) | hp
  · obtain ⟨f, -, rfl⟩ := List.mem_map.1 hp
    exact .flatten f
  · refine .requirement (head_of_mem_requirementPieces p hp) ?_
    have hbody : p.body ∈ tss := by
      rw [← body_requirementPieces tss]
      exact List.mem_map_of_mem hp
    obtain ⟨s, -, hs⟩ := exists_of_forall₂ h.terms p.body hbody
    exact hs.isTerm
  · by_cases hsorts : c.sorts = []
    · simp [sortPieces, hsorts] at hp
    · rw [sortPieces, if_neg hsorts] at hp
      rw [List.mem_singleton.1 hp]
      exact .sort hsorts
  · obtain ⟨n, -, rfl⟩ := List.mem_map.1 hp
    exact .limit n

/-! ### Clauses that are told apart, and clauses that are not -/

/-- the parts of a query, but for how its conditions are split -/
structure Alike (c c' : Clauses) : Prop where
  listed : c.listed = c'.listed
  flattens : c.flattens = c'.flattens
  sorts : c.sorts = c'.sorts
  limit : c.limit = c'.limit
  conditions : String.intercalate " AND " c.conditions = String.intercalate " AND " c'.conditions

/-- the conditions join these words -/
def HasWords (c : Clauses) (ws : List String) : Prop :=
  (ws = [] ↔ c.conditions = []) ∧
    String.intercalate " AND " c.conditions = String.intercalate " AND " ws

/-- requirements of one word, each with the word before it -/
def requirementPairs : List String → List (String × String)
  | [] => []
  | w :: ws => ("WHERE", w) :: ws.map ("AND", ·)

/-- flattened fields and requirements of one word, each with the word before it -/
def wordPairs (c : Clauses) (ws : List String) : List (String × String) :=
  c.flattens.map ("FLATTEN", ·) ++ requirementPairs ws

/-- The first query lists a field and the second one lists nothing.  The conditions of both are words,
one of both is sorted, by one key, and with the field in front the first one has the words of the second
one. -/
def Clashes (c c' : Clauses) : Prop :=
  ∃ s ws ws' k k', c.listed = some s ∧ c'.listed = none ∧ c.limit = c'.limit ∧
    c.HasWords ws ∧ c'.HasWords ws' ∧ c.sorts = Option.toList k ∧ c'.sorts = Option.toList k' ∧
    Overlaps s (c.wordPairs ws) (c'.wordPairs ws') k k'

theorem ofWords_injective : Function.Injective ofWords := by
  rintro ⟨w, w'⟩ ⟨x, x'⟩ h
  simpa [ofWords] using h

theorem mainPieces_words (c : Clauses) (ws : List String) :
    c.mainPieces (ws.map fun w => [.item w]) = (c.wordPairs ws).map ofWords := by
  cases ws <;> simp [mainPieces, flattenPieces, requirementPieces, wordPairs, requirementPairs,
    ofWords, Function.comp_def]

/-- requirements that are pieces of two words -/
theorem Spelled.hasWords (h : c.Spelled texts tss) {xs : List (String × String)}
    (hxs : c.mainPieces tss = xs.map ofWords) : c.HasWords texts ∧ xs = c.wordPairs texts := by
  have hword : ∀ ts ∈ tss, ∃ w, ts = [.item w] := by
    intro ts hts
    rw [← body_requirementPieces tss] at hts
    obtain ⟨p, hp, rfl⟩ := List.mem_map.1 hts
    have hmem : p ∈ xs.map ofWords := hxs ▸ List.mem_append_right _ hp
    obtain ⟨w, -, rfl⟩ := List.mem_map.1 hmem
    exact ⟨w.2, rfl⟩
  have htss : tss = texts.map fun w => [.item w] := by
    have hterms := h.terms
    clear h hxs
    induction hterms with
    | nil => rfl
    | cons hs _ ih =>
      obtain ⟨⟨w, rfl⟩, hrest⟩ := List.forall_mem_cons.1 hword
      rw [List.map_cons, hs.word w rfl, ← ih hrest]
  rw [htss, mainPieces_words] at hxs
  exact ⟨⟨h.nil_iff, h.joined⟩, (List.map_injective_iff.2 ofWords_injective hxs).symm⟩

theorem Spelled.clashes {s : String} (h : c.Spelled texts tss) (h' : c'.Spelled texts' tss')
    (hlisted : c.listed = some s) (hlisted' : c'.listed = none)
    (htokens : .item s :: allTokens (c.pieces tss) = allTokens (c'.pieces tss')) : c.Clashes c' := by
  have hvalid := h.valid
  have hvalid' := h'.valid
  cases hpieces : c'.pieces tss' with
  | nil =>
    rw [hpieces] at htokens
    cases htokens
  | cons q qs =>
    rw [hpieces] at htokens hvalid'
    obtain ⟨hq, hqs⟩ := List.forall_mem_cons.1 hvalid'
    obtain ⟨hs, htokens⟩ : Token.item s = .item q.head ∧
      allTokens (c.pieces tss) = q.body ++ allTokens qs := List.cons.inj htokens
    obtain ⟨xs, ys, k, k', rest, hoverlaps, hxs, hys, hrow, hrow'⟩ :=
      (shifted_of_eq hq hvalid hqs htokens).exists_overlaps
    rw [← hpieces] at hrow'
    -- the row with the sort tells where the limit begins
    have hrest : ∀ p ∈ rest, p.head = "LIMIT" := by
      cases hoverlaps with
      | later _ _ =>
        obtain ⟨-, -, hlimit⟩ := of_pieces_eq_row hys (fun hk => by cases hk) hrow'
        exact hlimit ▸ head_of_mem_limitPieces
      | earlier _ _ =>
        obtain ⟨-, -, hlimit⟩ := of_pieces_eq_row hxs (fun hk => by cases hk) hrow
        exact hlimit ▸ head_of_mem_limitPieces
    obtain ⟨hmain, hsorts, hlimit⟩ := of_pieces_eq_row hxs (fun _ => hrest) hrow
    obtain ⟨hmain', hsorts', hlimit'⟩ := of_pieces_eq_row hys (fun _ => hrest) hrow'
    obtain ⟨hwords, rfl⟩ := h.hasWords hmain
    obtain ⟨hwords', rfl⟩ := h'.hasWords hmain'
    obtain rfl := Token.item.inj hs
    have hlimits : c.limit = c'.limit := limitPieces_injective (hlimit.trans hlimit'.symm)
    exact ⟨_, texts, texts', k, k', hlisted, hlisted', hlimits, hwords, hwords', hsorts, hsorts',
      hoverlaps⟩

/-! ### Texts that are the same -/

/-- texts that are joined and differ in one place -/
theorem intercalate_cancel {sep x y : String} (as bs : List String)
    (h : String.intercalate sep (as ++ x :: bs) = String.intercalate sep (as ++ y :: bs)) :
    x = y := by
  induction as with
  | nil =>
    by_cases hbs : bs = []
    · simpa [hbs] using h
    · simp only [List.nil_append, String.intercalate_cons_of_ne_nil hbs, String.append_left_inj] at h
      exact h
  | cons a as ih =>
    rw [List.cons_append, List.cons_append, String.intercalate_cons_of_ne_nil (by simp),
      String.intercalate_cons_of_ne_nil (by simp), String.append_right_inj] at h
    exact ih h

/-- the text of the conditions has its place among the texts of the other clauses -/
theorem exists_renderEach (c : Clauses) : ∃ before after, ∀ cs : List String, cs ≠ [] →
    { c with conditions := cs }.renderEach =
      before ++ ("WHERE " ++ String.intercalate " AND " cs) :: after := by
  refine ⟨{ c with conditions := [], sorts := [], groups := [], limit := none }.renderEach,
    { c with listed := none, pages := "", flattens := [], conditions := [] }.renderEach.tail,
    fun cs hcs => ?_⟩
  simp [renderEach, hcs]

/-- in texts of queries that agree otherwise the conditions agree -/
theorem conditions_of_render_eq (h : { c with conditions := [] } = { c' with conditions := [] })
    (hnil : c.conditions = [] ↔ c'.conditions = []) (htext : c.render = c'.render) :
    String.intercalate " AND " c.conditions = String.intercalate " AND " c'.conditions := by
  by_cases hempty : c.conditions = []
  · rw [hempty, hnil.1 hempty]
  · have hempty' : c'.conditions ≠ [] := fun h => hempty (hnil.2 h)
    obtain ⟨before, after, heach⟩ := exists_renderEach c
    have hc : c.renderEach = _ := heach c.conditions hempty
    have hc' : c'.renderEach = before ++ ("WHERE " ++ String.intercalate " AND " c'.conditions) ::
        after := by
      rw [← heach c'.conditions hempty']
      exact congrArg (fun x => renderEach { x with conditions := c'.conditions }) h.symm
    rw [render, render, hc, hc'] at htext
    exact (String.append_right_inj "WHERE ").1 (intercalate_cancel before after htext)

theorem Spelled.alike (h : c.Spelled texts tss) (h' : c'.Spelled texts' tss')
    (hlisted : c.listed = c'.listed)
    (htokens : allTokens (c.pieces tss) = allTokens (c'.pieces tss')) (htext : c.render = c'.render) :
    c.Alike c' := by
  obtain ⟨⟨hflattens, rfl⟩, hsorts, hlimit⟩ :=
    eq_of_pieces_eq (eq_of_allTokens_eq h.valid h'.valid htokens)
  have hnil : c.conditions = [] ↔ c'.conditions = [] := by
    rw [← h.nil_iff, ← h'.nil_iff, ← List.length_eq_zero_iff, ← List.length_eq_zero_iff,
      h.terms.length_eq, h'.terms.length_eq]
  refine ⟨hlisted, hflattens, hsorts, hlimit, conditions_of_render_eq ?_ hnil htext⟩
  rw [mk.injEq]
  exact ⟨h.pages.trans h'.pages.symm, hlisted, rfl, hsorts, h.groups.trans h'.groups.symm, hflattens,
    hlimit⟩

theorem Spelled.alike_or_clashes (h : c.Spelled texts tss) (h' : c'.Spelled texts' tss')
    (htext : c.render = c'.render) : c.Alike c' ∨ c.Clashes c' ∨ c'.Clashes c := by
  have htokens : headTokens c.listed ++ allTokens (c.pieces tss) =
      headTokens c'.listed ++ allTokens (c'.pieces tss') := by
    have hspells := h.spells.tokenize
    rw [htext, h'.spells.tokenize] at hspells
    exact (Option.some.inj hspells).symm
  cases hlisted : c.listed with
  | none =>
    cases hlisted' : c'.listed with
    | none =>
      rw [hlisted, hlisted'] at htokens
      exact Or.inl (h.alike h' (hlisted.trans hlisted'.symm) (List.cons.inj htokens).2 htext)
    | some s =>
      rw [hlisted, hlisted'] at htokens
      exact Or.inr (Or.inr (h'.clashes h hlisted' hlisted (List.cons.inj htokens).2.symm))
  | some s =>
    cases hlisted' : c'.listed with
    | none =>
      rw [hlisted, hlisted'] at htokens
      exact Or.inr (Or.inl (h.clashes h' hlisted hlisted' (List.cons.inj htokens).2))
    | some s' =>
      rw [hlisted, hlisted'] at htokens
      obtain ⟨hs, htokens⟩ := List.cons.inj (List.cons.inj htokens).2
      have hsame : c.listed = c'.listed := by rw [hlisted, hlisted', Token.item.inj hs]
      exact Or.inl (h.alike h' hsame htokens htext)

/-- only no conditions are joined to the empty text -/
theorem Spelled.joined_eq_empty_iff (h : c.Spelled texts tss) :
    String.intercalate " AND " c.conditions = "" ↔ c.conditions = [] := by
  rw [h.joined, ← h.nil_iff]
  constructor
  · intro hempty
    have hterms := h.terms
    cases hterms with
    | nil => rfl
    | @cons s ts texts tss hs _ =>
      have hs' : s = "" := by
        by_cases hnil : texts = []
        · simpa [hnil] using hempty
        · rw [String.intercalate_cons_of_ne_nil hnil] at hempty
          simp [String.append_eq_empty_iff] at hempty
      subst hs'
      have htokens := hs.spells.tokenize
      rw [String.toList_empty, tokenize] at htokens
      exact absurd (Option.some.inj htokens).symm hs.isTerm.ne_nil
  · rintro rfl
    rfl

theorem Alike.render_eq (halike : c.Alike c') (h : c.Spelled texts tss) (h' : c'.Spelled texts' tss') :
    c.render = c'.render := by
  refine render_congr ?_ ?_ halike.conditions
  · rw [mk.injEq]
    exact ⟨h.pages.trans h'.pages.symm, halike.listed, rfl, halike.sorts,
      h.groups.trans h'.groups.symm, halike.flattens, halike.limit⟩
  · rw [Bool.eq_iff_iff, List.isEmpty_iff, List.isEmpty_iff, ← h.joined_eq_empty_iff,
      ← h'.joined_eq_empty_iff, halike.conditions]

/-- the words of a limit -/
def limitWords (n : Nat) : List String := ["LIMIT", digitWord n]

theorem intercalate_words_and (w : String) (ws : List String) :
    String.intercalate " " (w :: words (ws.map ("AND", ·))) =
      String.intercalate " AND " (w :: ws) := by
  induction ws generalizing w with
  | nil => rfl
  | cons v ws ih =>
    rw [String.intercalate_cons_of_ne_nil (List.cons_ne_nil v ws), ← ih v, List.map_cons]
    show String.intercalate " " (w :: "AND" :: v :: words (ws.map ("AND", ·))) = _
    rw [String.intercalate_cons_of_ne_nil (by simp), String.intercalate_cons_of_ne_nil (by simp)]
    have hseparator : " AND " = " " ++ ("AND" ++ " ") := by decide
    simp only [hseparator, String.append_assoc]

theorem intercalate_words_requirementPairs {ws : List String} (hne : ws ≠ []) :
    String.intercalate " " (words (requirementPairs ws)) =
      "WHERE " ++ String.intercalate " AND " ws := by
  obtain ⟨w, ws, rfl⟩ := List.exists_cons_of_ne_nil hne
  show String.intercalate " " ("WHERE" :: w :: words (ws.map ("AND", ·))) = _
  rw [String.intercalate_cons_of_ne_nil (by simp), intercalate_words_and]
  exact congrArg (· ++ _) (by decide)

theorem intercalate_pair {w head : String} (s : String) (h : head = w ++ " ") :
    String.intercalate " " [w, s] = head ++ s := by
  rw [h, String.intercalate_cons_of_ne_nil (by simp), String.intercalate_singleton]

/-- the conditions of a query, if these are words -/
theorem HasWords.conditions_eq {ws : List String} (h : c.HasWords ws) :
    (if c.conditions = [] then [] else ["WHERE " ++ String.intercalate " AND " c.conditions]) =
      (if ws = [] then [] else [words (requirementPairs ws)]).map (String.intercalate " ") := by
  by_cases hnil : ws = []
  · rw [if_pos hnil, if_pos (h.1.1 hnil)]
    rfl
  · rw [if_neg hnil, if_neg fun hconditions => hnil (h.1.2 hconditions), h.2, List.map_singleton,
      intercalate_words_requirementPairs hnil]

/-- the sorts of a query, if these are one key or none -/
theorem sorts_eq_words (k : Option SortKey) :
    (if k.toList = [] then []
      else ["SORT " ++ String.intercalate ", " (k.toList.map renderSort)]) =
      (k.toList.map sortWords).map (String.intercalate " ") := by
  cases k with
  | none => rfl
  | some k =>
    show ["SORT " ++ String.intercalate ", " [renderSort k]] =
      [String.intercalate " " ["SORT", k.field, k.direction.render]]
    rw [String.intercalate_singleton, String.intercalate_cons_of_ne_nil (by simp),
      intercalate_pair k.direction.render rfl]
    exact congrArg (fun head => [head ++ renderSort k]) (by decide)

/-- the words of the clauses of a query whose conditions are words, clause by clause -/
theorem renderEach_eq_words {ws : List String} {k : Option SortKey} (hpages : c.pages = "")
    (hgroups : c.groups = []) (hws : c.HasWords ws) (hk : c.sorts = k.toList) :
    c.renderEach = List.map (String.intercalate " ") (["LIST" :: c.listed.toList] ++
      c.flattens.map (["FLATTEN", ·]) ++ (if ws = [] then [] else [words (requirementPairs ws)]) ++
      k.toList.map sortWords ++ c.limit.toList.map limitWords) := by
  have hflattens : c.flattens.map ("FLATTEN " ++ ·) =
      (c.flattens.map (["FLATTEN", ·])).map (String.intercalate " ") := by
    rw [List.map_map]
    exact List.map_congr_left fun f _ => (intercalate_pair f (by decide)).symm
  have hlisted : ∀ s, "LIST " ++ s = String.intercalate " " ["LIST", s] := fun s =>
    (intercalate_pair s (by decide)).symm
  have hlimit : ∀ n, "LIMIT " ++ String.ofList (Number.digitChars n) =
      String.intercalate " " (limitWords n) := fun n =>
    (intercalate_pair (digitWord n) (by decide)).symm
  cases hfield : c.listed <;> cases hnumber : c.limit <;>
    simp only [renderEach, hfield, hnumber, hpages, hgroups, List.isEmpty_iff, List.map_append,
      hflattens, hws.conditions_eq, hk, sorts_eq_words, hlisted, hlimit, String.isEmpty_iff, if_true,
      Option.toList_some, Option.toList_none, List.map_cons, List.map_nil, List.append_nil,
      String.intercalate_singleton]

/-- the text of a query whose conditions are words -/
theorem render_eq_words {ws : List String} {k : Option SortKey} (hpages : c.pages = "")
    (hgroups : c.groups = []) (hws : c.HasWords ws) (hk : c.sorts = k.toList) :
    c.render = String.intercalate " " ("LIST" :: c.listed.toList ++
      (words (c.wordPairs ws) ++ k.toList.flatMap sortWords) ++
      c.limit.toList.flatMap limitWords) := by
  rw [render, renderEach_eq_words hpages hgroups hws hk, intercalate_map_intercalate]
  · by_cases hnil : ws = [] <;>
      simp [hnil, words, wordPairs, requirementPairs, List.flatMap_def, Function.comp_def]
  · intro xs hxs
    simp only [List.mem_append, List.mem_singleton, List.mem_map] at hxs
    rcases hxs with (((rfl | ⟨f, -, rfl⟩) | hxs) | ⟨k, -, rfl⟩) | ⟨n, -, rfl⟩
    · exact List.cons_ne_nil _ _
    · exact List.cons_ne_nil _ _
    · cases ws with
      | nil => cases hxs
      | cons w ws =>
        rw [List.mem_singleton.1 hxs]
        exact List.cons_ne_nil _ _
    · exact List.cons_ne_nil _ _
    · exact List.cons_ne_nil _ _

theorem Clashes.render_eq (hclashes : c.Clashes c') (h : c.Spelled texts tss)
    (h' : c'.Spelled texts' tss') : c.render = c'.render := by
  obtain ⟨s, ws, ws', k, k', hlisted, hlisted', hlimit, hws, hws', hk, hk', hoverlaps⟩ := hclashes
  rw [render_eq_words h.pages h.groups hws hk, render_eq_words h'.pages h'.groups hws' hk', hlisted,
    hlisted', hlimit]
  have hwords := hoverlaps.words_eq
  simp only [Option.toList_some, Option.toList_none, List.cons_append, List.nil_append, hwords]

end Clauses

namespace Translation

/-- **What the text of a query tells.**  Two chains that start from all pages or from a tag are lowered
to one text exactly if the same is listed, flattened, sorted and limited and the joined conditions are
the same, or if one of them lists a field, the other one lists nothing, and they clash. -/
theorem query_eq_iff {chain chain' : Chain} {d d' : Dialect} {t t' : Translation}
    (h : ofChain chain d = .ok t) (h' : ofChain chain' d' = .ok t')
    (hroot : chain.NamesNoSource d) (hroot' : chain'.NamesNoSource d') :
    t.query = t'.query ↔ t.clauses.Alike t'.clauses ∨
      t.clauses.Clashes t'.clauses ∨ t'.clauses.Clashes t.clauses := by
  obtain ⟨texts, tss, hspelled⟩ := exists_spelled h hroot
  obtain ⟨texts', tss', hspelled'⟩ := exists_spelled h' hroot'
  obtain ⟨-, -, -, -, hquery, -⟩ := ofChain_eq_ok.1 h
  obtain ⟨-, -, -, -, hquery', -⟩ := ofChain_eq_ok.1 h'
  rw [hquery, hquery']
  constructor
  · exact hspelled.alike_or_clashes hspelled'
  · rintro (halike | hclashes | hclashes)
    · exact halike.render_eq hspelled hspelled'
    · exact hclashes.render_eq hspelled hspelled'
    · exact (hclashes.render_eq hspelled' hspelled).symm

theorem exists_ok_of_toOption_map {α β ε : Type} {x : Except ε α} {f : α → β} {b : β}
    (h : x.toOption.map f = some b) : ∃ a, x = .ok a ∧ f a = b := by
  cases x with
  | ok a => exact ⟨a, rfl, Option.some.inj h⟩
  | error e => cases h

/-- a field called FLATTEN is listed, and the pages are sorted by one called WHERE -/
def listedFlatten : Chain :=
  ⟨"", [⟨"map", [⟨"p => p.FLATTEN", none⟩]⟩, ⟨"sort", [⟨"p => p.WHERE", none⟩]⟩]⟩

/-- a field called SORT is flattened, and one called asc is a condition -/
def flattenedSort : Chain :=
  ⟨"", [⟨"flatMap", [⟨"p => p.SORT", none⟩]⟩, ⟨"where", [⟨"p => p.asc", none⟩]⟩]⟩

theorem listedFlatten_lowered : ∃ t, ofChain listedFlatten {} = .ok t ∧
    (t.query, t.clauses.listed) = ("LIST FLATTEN SORT WHERE asc", some "FLATTEN") :=
  exists_ok_of_toOption_map (by decide +kernel)

theorem flattenedSort_lowered : ∃ t, ofChain flattenedSort {} = .ok t ∧
    (t.query, t.clauses.listed) = ("LIST FLATTEN SORT WHERE asc", none) :=
  exists_ok_of_toOption_map (by decide +kernel)

theorem namesNoSource_empty (calls : List MethodCall) (d : Dialect) :
    Chain.NamesNoSource ⟨"", calls⟩ d :=
  Or.inl (show Text.trim "" = "" by decide +kernel)

/-- what is listed cannot be told from what is flattened -/
theorem listed_not_recovered : ∃ t t', ofChain listedFlatten {} = .ok t ∧
    ofChain flattenedSort {} = .ok t' ∧ listedFlatten.NamesNoSource {} ∧
    flattenedSort.NamesNoSource {} ∧ t.query = t'.query ∧
    t.clauses.listed ≠ t'.clauses.listed := by
  obtain ⟨t, ht, h⟩ := listedFlatten_lowered
  obtain ⟨t', ht', h'⟩ := flattenedSort_lowered
  obtain ⟨hquery, hlisted⟩ := Prod.mk.inj h
  obtain ⟨hquery', hlisted'⟩ := Prod.mk.inj h'
  refine ⟨t, t', ht, ht', namesNoSource_empty _ _, namesNoSource_empty _ _,
    hquery.trans hquery'.symm, ?_⟩
  rw [hlisted, hlisted']
  exact Option.some_ne_none _

/-- the words of one chain behind the field that it lists are those of the other one -/
theorem listedFlatten_clashes : ∃ t t', ofChain listedFlatten {} = .ok t ∧
    ofChain flattenedSort {} = .ok t' ∧ listedFlatten.NamesNoSource {} ∧
    flattenedSort.NamesNoSource {} ∧ t.query = t'.query ∧ t.clauses.Clashes t'.clauses := by
  obtain ⟨t, ht, h⟩ := listedFlatten_lowered
  obtain ⟨t', ht', h'⟩ := flattenedSort_lowered
  obtain ⟨hquery, hlisted⟩ := Prod.mk.inj h
  obtain ⟨hquery', hlisted'⟩ := Prod.mk.inj h'
  have htext : t.query = t'.query := hquery.trans hquery'.symm
  have hroot := namesNoSource_empty listedFlatten.calls {}
  have hroot' := namesNoSource_empty flattenedSort.calls {}
  refine ⟨t, t', ht, ht', hroot, hroot', htext, ?_⟩
  rcases (query_eq_iff ht ht' hroot hroot').1 htext with halike | hclashes | hclashes
  · have hsame := halike.listed
    rw [hlisted, hlisted'] at hsame
    cases hsame
  · exact hclashes
  · obtain ⟨s, _, _, _, _, hs, -⟩ := hclashes
    rw [hlisted'] at hs
    cases hs

end Translation

end PageQuery
