import PageQuery.Text.Quoted
import PageQuery.Proofs.Collect
import PageQuery.Proofs.Reading

/-!
# Texts that are read back

What is read from the texts that conditions are put together from: `IsItem` for operands, and
`PrimaryText`, `TermText` and `RunText` for terms that stand behind a negation, terms, and terms
joined by one connective.  There is a rule for every way to build a longer text from shorter ones,
down to `RunText.read`: the text as a whole is read.
-/

namespace PageQuery.Where

/-! ### Tokens -/

/-- no word goes on here -/
def AtBoundary : List Char → Prop
  | [] => True
  | c :: _ => c = ' ' ∨ c = ')' ∨ c = ',' ∨ c = '('

theorem atBoundary_nil : AtBoundary [] := trivial

theorem atBoundary_space (cs : List Char) : AtBoundary (' ' :: cs) := Or.inl rfl

theorem atBoundary_closing (cs : List Char) : AtBoundary (')' :: cs) := Or.inr (Or.inl rfl)

theorem atBoundary_comma (cs : List Char) : AtBoundary (',' :: cs) := Or.inr (Or.inr (Or.inl rfl))

theorem atBoundary_opening (cs : List Char) : AtBoundary ('(' :: cs) :=
  Or.inr (Or.inr (Or.inr rfl))

theorem AtBoundary.head_ne {rest : List Char} (h : AtBoundary rest) : rest.head? ≠ some '=' := by
  cases rest with
  | nil => exact nofun
  | cons c rest =>
    intro hc
    cases hc
    rcases h with h | h | h | h <;> cases h

theorem AtBoundary.head_not_wordChar {rest : List Char} (h : AtBoundary rest) :
    ∀ c ∈ rest.head?, isWordChar c = false := by
  intro c hc
  cases rest with
  | nil => cases hc
  | cons d rest =>
    cases hc
    rcases h with rfl | rfl | rfl | rfl <;> decide

/-- the text is cut into the tokens -/
def Spells (s : String) (ts : List Token) : Prop :=
  ∀ rest, AtBoundary rest → tokenize (s.toList ++ rest) = (tokenize rest).map (ts ++ ·)

theorem tokenize_space (cs : List Char) : tokenize (' ' :: cs) = tokenize cs := by
  rw [tokenize]

theorem tokenize_of_token? {cs rest : List Char} {t : Token} (h : token? cs = some (t, rest)) :
    tokenize cs = (tokenize rest).map (t :: ·) := by
  rw [tokenize.eq_def]
  split
  · cases h
  · cases h
  · split
    · rename_i t' rest' h'
      rw [h] at h'
      cases h'
      rfl
    · rename_i h'
      rw [h] at h'
      cases h'

theorem Spells.append_space {s s' : String} {ts ts' : List Token} (h : Spells s ts)
    (h' : Spells s' ts') : Spells (s ++ " " ++ s') (ts ++ ts') := by
  intro rest hrest
  have hs : (s ++ " " ++ s').toList ++ rest = s.toList ++ ' ' :: (s'.toList ++ rest) := by
    simp
  rw [hs, h _ (atBoundary_space _), tokenize_space, h' rest hrest, Option.map_map]
  congr 1
  funext us
  exact (List.append_assoc ts ts' us).symm

theorem Spells.paren {s : String} {ts : List Token} (h : Spells s ts) :
    Spells ("(" ++ s ++ ")") (.opening :: ts ++ [.closing]) := by
  intro rest _
  have hs : ("(" ++ s ++ ")").toList ++ rest = '(' :: (s.toList ++ ')' :: rest) := by
    simp
  rw [hs, tokenize_of_token? rfl, h _ (atBoundary_closing _), tokenize_of_token? rfl]
  simp [Option.map_map, Function.comp_def]

theorem token?_bang {cs : List Char} (h : cs.head? ≠ some '=') :
    token? ('!' :: cs) = some (.bang, cs) := by
  match cs with
  | [] => rfl
  | c :: cs =>
    have hc : c ≠ '=' := fun he => h (congrArg some he)
    simp [token?, hc]

theorem Spells.bang {s : String} {ts : List Token} (hs : s.toList.head? ≠ some '=')
    (h : Spells s ts) : Spells ("!" ++ s) (.bang :: ts) := by
  intro rest hrest
  have hl : ("!" ++ s).toList ++ rest = '!' :: (s.toList ++ rest) := by
    simp
  have hhead : (s.toList ++ rest).head? ≠ some '=' := by
    cases hcs : s.toList with
    | nil => exact hrest.head_ne
    | cons c cs =>
      rw [hcs] at hs
      exact hs
  rw [hl, tokenize_of_token? (token?_bang hhead), h rest hrest, Option.map_map]
  rfl

/-! ### Words -/

theorem isWord_iff {cs : List Char} :
    isWord cs = true ↔ ∃ names, names ≠ [] ∧ (∀ n ∈ names, n ≠ [] ∧ ∀ c ∈ n, isNameChar c = true) ∧
      ['.'].intercalate names = cs := by
  constructor
  · intro h
    refine ⟨cs.splitOn '.', List.splitOn_ne_nil _ _, ?_, List.intercalate_splitOn '.'⟩
    intro n hn
    have hn := List.all_eq_true.1 h n hn
    simpa using hn
  · rintro ⟨names, hne, hnames, rfl⟩
    unfold isWord
    rw [List.splitOn_intercalate '.' _ hne]
    · refine List.all_eq_true.2 fun n hn => ?_
      simpa using hnames n hn
    · intro n hn hdot
      have hdot := (hnames n hn).2 _ hdot
      revert hdot
      decide

theorem isWordChar_of_mem_word {cs : List Char} (h : isWord cs = true) :
    ∀ c ∈ cs, isWordChar c = true := by
  obtain ⟨names, -, hnames, rfl⟩ := isWord_iff.1 h
  clear h
  induction names with
  | nil => simp
  | cons n names ih =>
    have hn : ∀ c ∈ n, isWordChar c = true := by
      intro c hc
      have := (hnames n List.mem_cons_self).2 c hc
      simp [isWordChar, this]
    have ih := ih fun m hm => hnames m (List.mem_cons_of_mem _ hm)
    by_cases hnil : names = []
    · rwa [hnil, List.intercalate_singleton]
    · rw [List.intercalate_cons_of_ne_nil hnil]
      intro c hc
      rcases List.mem_append.1 hc with hc | hc
      · rcases List.mem_append.1 hc with hc | hc
        · exact hn c hc
        · rw [List.mem_singleton.1 hc]
          decide
      · exact ih c hc

theorem token?_of_isWordChar {c : Char} (h : isWordChar c = true) (cs : List Char) :
    token? (c :: cs) =
      if isWord ((c :: cs).takeWhile isWordChar) then
        some (.item (String.ofList ((c :: cs).takeWhile isWordChar)),
          (c :: cs).dropWhile isWordChar)
      else none := by
  unfold token?
  -- no character that stands alone is one of a word
  split <;> first
    | rfl
    | rename_i heq
      cases heq
      exact absurd h (by decide)

/-! ### Operands -/

/-- the text is that of an operand -/
structure IsItem (s : String) : Prop where
  head : s.toList.head? ≠ some '='
  token : ∀ rest, AtBoundary rest → token? (s.toList ++ rest) = some (.item s, rest)

theorem IsItem.spells {s : String} (h : IsItem s) : Spells s [.item s] := by
  intro rest hrest
  rw [tokenize_of_token? (h.token rest hrest)]
  rfl

theorem isItem_of_isWord {cs : List Char} (h : isWord cs = true) : IsItem (String.ofList cs) := by
  have hchars := isWordChar_of_mem_word h
  cases cs with
  | nil => exact absurd h (by decide)
  | cons c cs =>
    have hc := hchars c List.mem_cons_self
    constructor
    · rw [String.toList_ofList]
      intro he
      cases he
      exact absurd hc (by decide)
    · intro rest hrest
      rw [String.toList_ofList, List.cons_append, token?_of_isWordChar hc, ← List.cons_append,
        takeWhile_append_of_head? hchars hrest.head_not_wordChar,
        dropWhile_append_of_head? hchars hrest.head_not_wordChar, if_pos h]

theorem isNameChar_of_isDigit {c : Char} (h : c.isDigit = true) : isNameChar c = true := by
  have hle : c.toNat < 128 := by
    have hnine : '9'.toNat = 57 := rfl
    have := (Char.isDigit_iff_toNat.1 h).2
    omega
  simp [isNameChar, Text.isAlphanumeric, hle, Char.isAlphanum, h]

theorem name_of_isDigits {cs : List Char} (h : isDigits cs = true) :
    (!cs.isEmpty && cs.all isNameChar) = true := by
  unfold isDigits at h
  rw [Bool.and_eq_true, List.all_eq_true] at h
  rw [Bool.and_eq_true, List.all_eq_true]
  exact ⟨h.1, fun c hc => isNameChar_of_isDigit (h.2 c hc)⟩

theorem isWord_of_isNumeral {cs : List Char} (h : isNumeral cs = true) : isWord cs = true := by
  unfold isNumeral at h
  rcases Bool.or_eq_true_iff.1 h with h | h
  · rw [eq_of_beq h]
    decide
  · unfold isWord
    split at h
    · rename_i whole hs
      simp [hs, name_of_isDigits h]
    · rename_i whole fraction hs
      obtain ⟨hw, hf⟩ := Bool.and_eq_true_iff.1 h
      rw [hs, List.all_cons, List.all_cons, name_of_isDigits hw, name_of_isDigits hf]
      rfl
    · cases h

/-- a number below zero -/
theorem isItem_negative {cs : List Char} (h : isNumeral cs = true) :
    IsItem (String.ofList ('-' :: cs)) := by
  have hchars := isWordChar_of_mem_word (isWord_of_isNumeral h)
  constructor
  · rw [String.toList_ofList]
    intro he
    cases he
  · intro rest hrest
    rw [String.toList_ofList, List.cons_append]
    simp only [token?, takeWhile_append_of_head? hchars hrest.head_not_wordChar,
      dropWhile_append_of_head? hchars hrest.head_not_wordChar, h, if_true]

theorem quoted?_cons {c : Char} (hquote : c ≠ '"') (hslash : c ≠ '\\') (cs : List Char) :
    quoted? (c :: cs) = (quoted? cs).map fun r => (c :: r.1, r.2) := by
  rw [quoted?]
  · exact hquote
  · exact fun _ _ h _ => hslash h

theorem quoted?_escapeQuoted (cs rest : List Char) :
    quoted? (Text.escapeQuoted cs ++ '"' :: rest) = some (Text.escapeQuoted cs, rest) := by
  fun_induction Text.escapeQuoted cs with
  | case1 => rfl
  | case2 cs ih => simp [quoted?, ih]
  | case3 cs ih => simp [quoted?, ih]
  | case4 cs ih => simp [quoted?, ih]
  | case5 c cs hquote hslash _ ih =>
    rw [List.cons_append, quoted?_cons hquote hslash, ih]
    rfl

theorem isItem_quote (s : String) : IsItem (Text.quote s) := by
  unfold Text.quote
  constructor
  · rw [String.toList_ofList]
    intro he
    cases he
  · intro rest hrest
    rw [String.toList_ofList, List.append_assoc, List.cons_append]
    simp [token?, quoted?_escapeQuoted]

/-! ### Terms -/

/-- a term ends here -/
def EndsTerm : List Token → Prop
  | [] => True
  | .closing :: _ => True
  | .item _ :: _ => True
  | _ => False

theorem endsTerm_closing (ts : List Token) : EndsTerm (.closing :: ts) := trivial

theorem endsTerm_item (x : String) (ts : List Token) : EndsTerm (.item x :: ts) := trivial

/-- the tokens are read as a term that a negation can take -/
def ReadsPrimary (ts : List Token) (r : Reading) : Prop :=
  ∀ outer before negated rest, EndsTerm rest →
    readTerm outer before negated (ts ++ rest) = readRest outer (before r) rest

/-- the tokens are read as terms joined by the connective, the first one and the others -/
def ReadsRun (k : Connective) (ts : List Token) (r : Reading) (rs : List Reading) : Prop :=
  ∀ outer before rest, EndsTerm rest →
    readTerm outer before false (ts ++ rest) =
      readRest outer (rs.foldl (.join k) (before r)) rest

theorem ReadsPrimary.run {ts : List Token} {r : Reading} (h : ReadsPrimary ts r)
    (k : Connective) : ReadsRun k ts r [] :=
  fun outer before rest hrest => h outer before false rest hrest

theorem readsPrimary_item (x : String) : ReadsPrimary [.item x] (.atom x) := by
  intro outer before negated rest hrest
  rcases rest with _ | ⟨_ | _ | _ | _ | _ | _, rest⟩
  · rw [List.append_nil, readTerm]
    all_goals simp
  · rw [List.singleton_append, readTerm]
    all_goals simp
  · cases hrest
  · cases hrest
  · cases hrest
  · cases hrest
  · rw [List.singleton_append, readTerm]
    all_goals simp

theorem readsPrimary_contains (x y : String) :
    ReadsPrimary [.item "contains", .opening, .item x, .comma, .item y, .closing]
      (.atom ("contains(" ++ x ++ ", " ++ y ++ ")")) := by
  intro outer before negated rest _
  simp [readTerm]

theorem readsRun_comparison (k : Connective) (x op y : String) :
    ReadsRun k [.item x, .comparison op, .item y] (.atom (x ++ " " ++ op ++ " " ++ y)) [] := by
  intro outer before rest _
  simp [readTerm]

theorem ReadsPrimary.not {ts : List Token} {r : Reading} (h : ReadsPrimary ts r) :
    ReadsPrimary (.bang :: ts) (.not r) := by
  intro outer before negated rest hrest
  rw [List.cons_append, readTerm, h _ _ _ _ hrest]

theorem ReadsRun.paren {k : Connective} {ts : List Token} {r : Reading} {rs : List Reading}
    (h : ReadsRun k ts r rs) :
    ReadsPrimary (.opening :: ts ++ [.closing]) (rs.foldl (.join k) r) := by
  intro outer before negated rest _
  rw [List.cons_append, List.cons_append, readTerm, List.append_assoc, List.singleton_append,
    h _ _ _ (endsTerm_closing rest), readRest]
  rfl

/-- the word of the connective -/
def Connective.word : Connective → String
  | and => "AND"
  | or => "OR"

/-- what stands between the terms that the connective joins -/
def Connective.separator : Connective → String
  | and => " AND "
  | or => " OR "

theorem ReadsRun.append {k : Connective} {ts ts' : List Token} {r r' : Reading}
    {rs rs' : List Reading} (h : ReadsRun k ts r rs) (h' : ReadsRun k ts' r' rs') :
    ReadsRun k (ts ++ .item k.word :: ts') r (rs ++ r' :: rs') := by
  intro outer before rest hrest
  have hk : connective? k.word = some k := by
    cases k <;> rfl
  rw [List.append_assoc, List.cons_append, h _ _ _ (endsTerm_item _ _), readRest, hk]
  simp only
  rw [h' _ _ _ hrest, List.foldl_append, List.foldl_cons]

/-! ### Texts -/

/-- the text is read as a term that a negation can take -/
structure PrimaryText (s : String) (r : Reading) : Prop where
  head : s.toList.head? ≠ some '='
  tokens : ∃ ts, Spells s ts ∧ ReadsPrimary ts r

/-- the text is read as terms joined by the connective, the first one and the others -/
def RunText (k : Connective) (s : String) (r : Reading) (rs : List Reading) : Prop :=
  ∃ ts, Spells s ts ∧ ReadsRun k ts r rs

theorem PrimaryText.run {s : String} {r : Reading} (h : PrimaryText s r) (k : Connective) :
    RunText k s r [] := by
  obtain ⟨-, ts, hs, hr⟩ := h
  exact ⟨ts, hs, hr.run k⟩

theorem IsItem.primaryText {s : String} (h : IsItem s) : PrimaryText s (.atom s) :=
  ⟨h.head, _, h.spells, readsPrimary_item s⟩

theorem isItem_contains : IsItem "contains" :=
  isItem_of_isWord (show isWord "contains".toList = true by decide)

theorem spells_contains {x y : String} (hx : IsItem x) (hy : IsItem y) :
    Spells ("contains(" ++ x ++ ", " ++ y ++ ")")
      [.item "contains", .opening, .item x, .comma, .item y, .closing] := by
  intro rest hrest
  have hs : ("contains(" ++ x ++ ", " ++ y ++ ")").toList ++ rest =
      "contains".toList ++ '(' :: (x.toList ++ ',' :: ' ' :: (y.toList ++ ')' :: rest)) := by
    simp
  rw [hs, tokenize_of_token? (isItem_contains.token _ (atBoundary_opening _)),
    tokenize_of_token? rfl, tokenize_of_token? (hx.token _ (atBoundary_comma _)),
    tokenize_of_token? rfl, tokenize_space, tokenize_of_token? (hy.token _ (atBoundary_closing _)),
    tokenize_of_token? rfl]
  simp [Option.map_map, Function.comp_def]

theorem primaryText_contains {x y : String} (hx : IsItem x) (hy : IsItem y) :
    PrimaryText ("contains(" ++ x ++ ", " ++ y ++ ")")
      (.atom ("contains(" ++ x ++ ", " ++ y ++ ")")) := by
  refine ⟨?_, _, spells_contains hx hy, readsPrimary_contains x y⟩
  simp

/-- the signs of comparisons -/
def symbols : List String := ["=", "!=", "<", "<=", ">", ">="]

theorem token?_symbol {op : String} (h : op ∈ symbols) {rest : List Char}
    (hrest : rest.head? ≠ some '=') : token? (op.toList ++ rest) = some (.comparison op, rest) := by
  simp only [symbols, List.mem_cons, List.not_mem_nil, or_false] at h
  cases rest with
  | nil => rcases h with rfl | rfl | rfl | rfl | rfl | rfl <;> rfl
  | cons c rest =>
    have hc : c ≠ '=' := fun he => hrest (congrArg some he)
    rcases h with rfl | rfl | rfl | rfl | rfl | rfl <;> simp [token?, hc]

theorem spells_symbol {op : String} (h : op ∈ symbols) : Spells op [.comparison op] := by
  intro rest hrest
  rw [tokenize_of_token? (token?_symbol h hrest.head_ne)]
  rfl

theorem runText_comparison {x op y : String} (k : Connective) (hx : IsItem x) (hop : op ∈ symbols)
    (hy : IsItem y) :
    RunText k (x ++ " " ++ op ++ " " ++ y) (.atom (x ++ " " ++ op ++ " " ++ y)) [] :=
  ⟨_, (hx.spells.append_space (spells_symbol hop)).append_space hy.spells,
    readsRun_comparison k x op y⟩

theorem PrimaryText.not {s : String} {r : Reading} (h : PrimaryText s r) :
    PrimaryText ("!" ++ s) (.not r) := by
  obtain ⟨hs, ts, hts, hr⟩ := h
  exact ⟨by simp, _, hts.bang hs, hr.not⟩

theorem RunText.paren {k : Connective} {s : String} {r : Reading} {rs : List Reading}
    (h : RunText k s r rs) : PrimaryText ("(" ++ s ++ ")") (rs.foldl (.join k) r) := by
  obtain ⟨ts, hts, hr⟩ := h
  exact ⟨by simp, _, hts.paren, hr.paren⟩

theorem RunText.append {k : Connective} {s s' : String} {r r' : Reading} {rs rs' : List Reading}
    (h : RunText k s r rs) (h' : RunText k s' r' rs') :
    RunText k (s ++ k.separator ++ s') r (rs ++ r' :: rs') := by
  obtain ⟨ts, hts, hr⟩ := h
  obtain ⟨ts', hts', hr'⟩ := h'
  have hword : IsItem k.word := by
    cases k with
    | and => exact isItem_of_isWord (show isWord "AND".toList = true by decide)
    | or => exact isItem_of_isWord (show isWord "OR".toList = true by decide)
  refine ⟨_, ?_, hr.append hr'⟩
  have hseparator : s ++ k.separator ++ s' = s ++ " " ++ k.word ++ " " ++ s' := by
    cases k <;> simp [Connective.separator, Connective.word, String.append_assoc]
  have hspells := (hts.append_space hword.spells).append_space hts'
  rwa [List.append_assoc, List.singleton_append, ← hseparator] at hspells

/-- **Reading.**  A text of joined terms is read as a whole. -/
theorem RunText.read {k : Connective} {s : String} {r : Reading} {rs : List Reading}
    (h : RunText k s r rs) : Where.read s = some (rs.foldl (.join k) r) := by
  obtain ⟨ts, hts, hr⟩ := h
  have htokens : tokenize s.toList = some ts := by
    have := hts [] atBoundary_nil
    rw [List.append_nil, tokenize] at this
    simpa using this
  have hread := hr [] id [] trivial
  rw [List.append_nil, readRest] at hread
  unfold Where.read
  rw [htokens]
  exact hread

end PageQuery.Where
