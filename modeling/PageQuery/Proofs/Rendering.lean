import PageQuery.Query.Condition
import PageQuery.Proofs.Shape
import PageQuery.Proofs.Spelling

/-!
# Rendered conditions are read back

The text of a condition is read as the condition is meant (`Condition.holds`), whatever groups it
has: `Readable.exists_runText` for a condition as one of several terms that are joined.  Readable are
the conditions whose groups are not empty and whose fields have paths; nothing else can be spoilt.
-/

namespace PageQuery

open Where

/-! ### Numbers -/

theorem isDigits_iff {cs : List Char} :
    isDigits cs = true ↔ cs ≠ [] ∧ ∀ c ∈ cs, c.isDigit = true := by
  simp [isDigits]

theorem point_not_mem_of_isDigits {cs : List Char} (h : isDigits cs = true) : '.' ∉ cs := by
  intro hp
  exact absurd ((isDigits_iff.1 h).2 _ hp) (by decide)

theorem isNumeral_of_isDigits {cs : List Char} (h : isDigits cs = true) : isNumeral cs = true := by
  unfold isNumeral
  rw [List.splitOn_eq_singleton (point_not_mem_of_isDigits h)]
  exact Bool.or_eq_true_iff.2 (Or.inr h)

theorem isNumeral_of_fraction {whole fraction : List Char} (hw : isDigits whole = true)
    (hf : isDigits fraction = true) : isNumeral (whole ++ '.' :: fraction) = true := by
  unfold isNumeral
  rw [List.splitOn_append_cons_self_of_not_mem (point_not_mem_of_isDigits hw),
    List.splitOn_eq_singleton (point_not_mem_of_isDigits hf)]
  exact Bool.or_eq_true_iff.2 (Or.inr (Bool.and_eq_true_iff.2 ⟨hw, hf⟩))

/-- digits with an optional fraction -/
def IsDecimal (cs : List Char) : Prop :=
  isDigits cs = true ∨
    ∃ whole fraction, isDigits whole = true ∧ isDigits fraction = true ∧ cs = whole ++ '.' :: fraction

theorem IsDecimal.isNumeral {cs : List Char} (h : IsDecimal cs) : isNumeral cs = true := by
  rcases h with h | ⟨whole, fraction, hw, hf, rfl⟩
  · exact isNumeral_of_isDigits h
  · exact isNumeral_of_fraction hw hf

namespace Number

theorem isDigits_digitChars (n : Nat) : isDigits (digitChars n) = true :=
  isDigits_iff.2 ⟨Nat.toDigits_ne_nil, fun _ hc =>
    Nat.isDigit_of_mem_toDigits (by decide) (by decide) hc⟩

theorem isDigit_of_mem_zeros {n : Nat} : ∀ c ∈ zeros n, c.isDigit = true := by
  intro c hc
  rw [List.eq_of_mem_replicate hc]
  decide

theorem isDecimal_positional {digits : List Char} (h : isDigits digits = true) (point : Int) :
    IsDecimal (positional digits point) := by
  obtain ⟨hne, hdigit⟩ := isDigits_iff.1 h
  have hlen : 0 < digits.length := List.length_pos_iff.2 hne
  unfold positional
  split
  · refine Or.inl (isDigits_iff.2 ⟨by simp [hne], ?_⟩)
    intro c hc
    exact (List.mem_append.1 hc).elim (hdigit c) (isDigit_of_mem_zeros c)
  · split
    · refine Or.inr ⟨_, _, isDigits_iff.2 ⟨?_, ?_⟩, isDigits_iff.2 ⟨?_, ?_⟩, rfl⟩
      · rw [← List.length_pos_iff, List.length_take]
        omega
      · exact fun c hc => hdigit c (List.mem_of_mem_take hc)
      · rw [← List.length_pos_iff, List.length_drop]
        omega
      · exact fun c hc => hdigit c (List.mem_of_mem_drop hc)
    · have hzero : isDigits ['0'] = true := by
        decide
      refine Or.inr ⟨['0'], _, hzero, isDigits_iff.2 ⟨?_, ?_⟩, rfl⟩
      · simp [hne]
      · intro c hc
        exact (List.mem_append.1 hc).elim (isDigit_of_mem_zeros c) (hdigit c)

theorem isItem_signed {cs : List Char} (h : isNumeral cs = true) (negative : Bool) :
    IsItem (signed negative cs) := by
  cases negative with
  | false => exact isItem_of_isWord (isWord_of_isNumeral h)
  | true => exact isItem_negative h

/-- a double is finite, infinite or none of a number -/
theorem finite_or_infinite_or_nan (x : Binary64) :
    x.isFinite = true ∨ x.isInfinite = true ∨ x.isNaN = true := by
  simp only [Binary64.isFinite, Binary64.isInfinite, Binary64.isNaN, decide_eq_true_eq, beq_iff_eq]
  omega

theorem isFinite_eq_false_of_isInfinite {x : Binary64} (h : x.isInfinite = true) :
    x.isFinite = false := by
  simp only [Binary64.isInfinite, Binary64.isFinite, beq_iff_eq, decide_eq_false_iff_not] at *
  omega

theorem isFinite_eq_false_of_isNaN {x : Binary64} (h : x.isNaN = true) : x.isFinite = false := by
  simp only [Binary64.isNaN, Binary64.isFinite, decide_eq_true_eq, decide_eq_false_iff_not] at *
  omega

theorem queryText_of_isNaN {x : Binary64} (h : x.isNaN = true) : queryText x = "NaN" := by
  have hfinite := isFinite_eq_false_of_isNaN h
  simp [queryText, scriptText, h, hfinite]

theorem queryText_of_isInfinite {x : Binary64} (h : x.isInfinite = true) :
    queryText x = signed x.negative "Infinity".toList := by
  have hfinite := isFinite_eq_false_of_isInfinite h
  have hnan : x.isNaN = false := by simp [Binary64.isNaN, eq_of_beq h]
  simp [queryText, scriptText, h, hfinite, hnan]

theorem queryText_of_isZero {x : Binary64} (h : x.isZero = true) : queryText x = "0" := by
  have hrank : x.rank = 0 := eq_of_beq h
  have hinf : x.isInfinite = false := by
    rw [Binary64.isInfinite, hrank]
    decide
  have hnan : x.isNaN = false := by simp [Binary64.isNaN, hrank]
  simp [queryText, scriptText, h, hinf, hnan]

theorem queryText_of_isFinite {x : Binary64} (h : x.isFinite = true) (hzero : x.isZero = false) :
    queryText x = signed x.negative (positional (shortestDigits .upper x.rank).1
      (shortestDigits .upper x.rank).2) := by
  simp [queryText, h, hzero]

theorem isDecimal_queryText {x : Binary64} (h : x.isFinite = true) :
    ∃ cs, IsDecimal cs ∧ queryText x = signed (x.negative && !x.isZero) cs := by
  cases hzero : x.isZero with
  | true =>
    rw [queryText_of_isZero hzero, Bool.not_true, Bool.and_false]
    exact ⟨['0'], Or.inl (by decide), rfl⟩
  | false =>
    rw [queryText_of_isFinite h hzero, Bool.not_false, Bool.and_true]
    exact ⟨_, isDecimal_positional (isDigits_digitChars _) _, rfl⟩

/-- the text of a number is an operand, also where it is none of a number -/
theorem isItem_queryText (x : Binary64) : IsItem (queryText x) := by
  rcases finite_or_infinite_or_nan x with hx | hx | hx
  · obtain ⟨cs, hcs, htext⟩ := isDecimal_queryText hx
    rw [htext]
    exact isItem_signed hcs.isNumeral _
  · rw [queryText_of_isInfinite hx]
    exact isItem_signed (by decide) x.negative
  · rw [queryText_of_isNaN hx]
    exact isItem_of_isWord (show isWord "NaN".toList = true by decide)

end Number

/-! ### Operands -/

/-- the path of a field has names, and each of them is one of a word -/
def Operand.Readable : Operand → Prop
  | .field path => path ≠ [] ∧ ∀ n ∈ path, Script.Expr.IsPathName n
  | .literal _ => True

theorem isWord_path {path : List String} (hne : path ≠ [])
    (hnames : ∀ n ∈ path, Script.Expr.IsPathName n) :
    isWord (String.intercalate "." path).toList = true := by
  rw [String.toList_intercalate]
  refine isWord_iff.2 ⟨path.map String.toList, by simpa using hne, ?_, rfl⟩
  intro n hn
  obtain ⟨name, hname, rfl⟩ := List.mem_map.1 hn
  obtain ⟨hempty, hchars⟩ := hnames name hname
  refine ⟨by simpa using hempty, fun c hc => ?_⟩
  simpa [isNameChar] using hchars c hc

theorem Operand.Readable.isItem {o : Operand} (h : o.Readable) : IsItem o.render := by
  cases o with
  | field path =>
    have hitem := isItem_of_isWord (isWord_path h.1 h.2)
    rwa [String.ofList_toList] at hitem
  | literal l =>
    cases l with
    | text s => exact isItem_quote s
    | number x => exact Number.isItem_queryText x
    | bool b =>
      cases b with
      | false => exact isItem_of_isWord (show isWord "false".toList = true by decide)
      | true => exact isItem_of_isWord (show isWord "true".toList = true by decide)
    | null => exact isItem_of_isWord (show isWord "null".toList = true by decide)

/-! ### What conditions mean -/

namespace Condition

mutual
/-- the truth of a condition by the truth of its atoms, which go by their texts -/
def holds (v : String → Bool) : Condition → Bool
  | all terms => holdsAll v terms
  | any terms => holdsAny v terms
  | not inner => !holds v inner
  | compare l op r => v (compare l op r).render
  | contains h n => v (contains h n).render
  | truthy o => v (truthy o).render
/-- every one of the conditions is true -/
def holdsAll (v : String → Bool) : List Condition → Bool
  | [] => true
  | c :: cs => holds v c && holdsAll v cs
/-- some of the conditions is true -/
def holdsAny (v : String → Bool) : List Condition → Bool
  | [] => false
  | c :: cs => holds v c || holdsAny v cs
end

/-- no group is empty and every field has a path -/
inductive Readable : Condition → Prop
  | all {terms : List Condition} :
    terms ≠ [] → (∀ c ∈ terms, Readable c) → Readable (.all terms)
  | any {terms : List Condition} :
    terms ≠ [] → (∀ c ∈ terms, Readable c) → Readable (.any terms)
  | not {inner : Condition} : Readable inner → Readable (.not inner)
  | compare {l r : Operand} {op : Comparison} :
    l.Readable → r.Readable → Readable (.compare l op r)
  | contains {h n : Operand} : h.Readable → n.Readable → Readable (.contains h n)
  | truthy {o : Operand} : o.Readable → Readable (.truthy o)

/-- the condition is a group of the other connective, so it stands in parentheses among terms that
the connective joins -/
def isSplitBy (c : Condition) : Connective → Bool
  | .and => c.isAny
  | .or => c.isAll

/-- the text of the condition as one of the terms that the connective joins -/
def termText (k : Connective) (c : Condition) : String := parens (c.isSplitBy k) c.render

/-- what the conditions mean if the connective joins them -/
def joined (k : Connective) (v : String → Bool) (cs : List Condition) : Bool :=
  match k with
  | .and => holdsAll v cs
  | .or => holdsAny v cs

theorem renderAll_eq_map (cs : List Condition) : renderAll cs = cs.map (termText .and) := by
  induction cs with
  | nil => rfl
  | cons c cs ih => rw [renderAll, ih]; rfl

theorem renderAny_eq_map (cs : List Condition) : renderAny cs = cs.map (termText .or) := by
  induction cs with
  | nil => rfl
  | cons c cs ih => rw [renderAny, ih]; rfl

theorem joined_cons (k : Connective) (v : String → Bool) (c : Condition) (cs : List Condition) :
    joined k v (c :: cs) = k.apply (c.holds v) (joined k v cs) := by
  cases k <;> rfl

theorem joined_singleton (k : Connective) (v : String → Bool) (c : Condition) :
    joined k v [c] = c.holds v := by
  cases k with
  | and => exact Bool.and_true _
  | or => exact Bool.or_false _

end Condition

/-! ### What is read -/

namespace Where

/-- the text is read as terms that the connective joins, and together they mean this -/
def IsReadAs (k : Connective) (text : String) (meaning : (String → Bool) → Bool) : Prop :=
  ∃ r rs, RunText k text r rs ∧ ∀ v, (rs.foldl (.join k) r).eval v = meaning v

theorem Connective.apply_assoc (k : Connective) (a b c : Bool) :
    k.apply (k.apply a b) c = k.apply a (k.apply b c) := by
  cases k with
  | and => exact Bool.and_assoc a b c
  | or => exact Bool.or_assoc a b c

/-- terms that follow others group to the left, which means the same -/
theorem eval_foldl_join (k : Connective) (v : String → Bool) (x y : Reading) (rs : List Reading) :
    (rs.foldl (Reading.join k) (.join k x y)).eval v =
      k.apply (x.eval v) ((rs.foldl (Reading.join k) y).eval v) := by
  induction rs generalizing x y with
  | nil => rfl
  | cons z rs ih =>
    rw [List.foldl_cons, List.foldl_cons, ih, ih, ← Connective.apply_assoc]
    rfl

theorem PrimaryText.isReadAs {s : String} {r : Reading} {m : (String → Bool) → Bool}
    (h : PrimaryText s r) (hm : ∀ v, r.eval v = m v) (k : Connective) : IsReadAs k s m :=
  ⟨r, [], h.run k, hm⟩

theorem IsReadAs.paren {k : Connective} {s : String} {m : (String → Bool) → Bool}
    (h : IsReadAs k s m) : ∃ r, PrimaryText ("(" ++ s ++ ")") r ∧ ∀ v, r.eval v = m v := by
  obtain ⟨r, rs, ht, hm⟩ := h
  exact ⟨_, ht.paren, hm⟩

theorem IsReadAs.inParens {k : Connective} {s : String} {m : (String → Bool) → Bool}
    (h : IsReadAs k s m) (k' : Connective) : IsReadAs k' ("(" ++ s ++ ")") m := by
  obtain ⟨r, hp, hm⟩ := h.paren
  exact hp.isReadAs hm k'

theorem IsReadAs.append {k : Connective} {s s' : String} {m m' : (String → Bool) → Bool}
    (h : IsReadAs k s m) (h' : IsReadAs k s' m') :
    IsReadAs k (s ++ k.separator ++ s') fun v => k.apply (m v) (m' v) := by
  obtain ⟨r, rs, ht, hm⟩ := h
  obtain ⟨r', rs', ht', hm'⟩ := h'
  refine ⟨r, _, ht.append ht', fun v => ?_⟩
  rw [List.foldl_append, List.foldl_cons, eval_foldl_join, hm, hm']

theorem IsReadAs.read {k : Connective} {s : String} {m : (String → Bool) → Bool}
    (h : IsReadAs k s m) : ∃ r, Where.read s = some r ∧ ∀ v, r.eval v = m v := by
  obtain ⟨r, rs, ht, hm⟩ := h
  exact ⟨_, ht.read, hm⟩

end Where

namespace Condition

theorem isReadAs_join {k : Connective} {cs : List Condition} (hne : cs ≠ [])
    (h : ∀ c ∈ cs, IsReadAs k (termText k c) fun v => c.holds v) :
    IsReadAs k (String.intercalate k.separator (cs.map (termText k))) fun v => joined k v cs := by
  induction cs with
  | nil => exact absurd rfl hne
  | cons c cs ih =>
    have hc := h c List.mem_cons_self
    by_cases hnil : cs = []
    · subst hnil
      simp only [List.map_cons, List.map_nil, String.intercalate_singleton, joined_singleton]
      exact hc
    · have hcs := ih hnil fun d hd => h d (List.mem_cons_of_mem _ hd)
      rw [List.map_cons, String.intercalate_cons_of_ne_nil (by simpa using hnil)]
      simp only [joined_cons]
      exact hc.append hcs

/-- the condition in parentheses -/
theorem exists_primaryText_paren {c : Condition}
    (h : ∀ k, IsReadAs k (termText k c) fun v => c.holds v) :
    ∃ r, PrimaryText ("(" ++ c.render ++ ")") r ∧ ∀ v, r.eval v = c.holds v := by
  -- no condition is a group of both connectives
  cases c with
  | any terms => exact (h .or).paren
  | _ => exact (h .and).paren

theorem termText_of_not_group {c : Condition} (hall : c.isAll = false) (hany : c.isAny = false)
    (k : Connective) : termText k c = c.render := by
  cases k with
  | and => simp [termText, isSplitBy, hany, parens]
  | or => simp [termText, isSplitBy, hall, parens]

theorem Readable.primaryText_of_isAtomic {c : Condition} (h : c.Readable)
    (hc : c.isAtomic = true) :
    PrimaryText c.render (.atom c.render) ∧ ∀ v, c.holds v = v c.render := by
  cases h with
  | contains hh hn => exact ⟨primaryText_contains hh.isItem hn.isItem, fun _ => rfl⟩
  | truthy ho => exact ⟨ho.isItem.primaryText, fun _ => rfl⟩
  | all _ _ => cases hc
  | any _ _ => cases hc
  | not _ => cases hc
  | compare _ _ => cases hc

/-- the condition behind a negation -/
theorem Readable.exists_primaryText_not {c : Condition} (hc : c.Readable)
    (h : ∀ k, IsReadAs k (termText k c) fun v => c.holds v) :
    ∃ r, PrimaryText (Condition.not c).render r ∧ ∀ v, r.eval v = (Condition.not c).holds v := by
  unfold render
  cases ha : c.isAtomic with
  | true =>
    obtain ⟨hp, hv⟩ := hc.primaryText_of_isAtomic ha
    refine ⟨_, hp.not, fun v => ?_⟩
    show (!v c.render) = !c.holds v
    rw [hv]
  | false =>
    obtain ⟨r, hp, hv⟩ := exists_primaryText_paren h
    refine ⟨_, hp.not, fun v => ?_⟩
    show (!r.eval v) = !c.holds v
    rw [hv]

theorem symbol_mem_symbols (op : Comparison) : op.symbol ∈ symbols := by
  cases op <;> decide

/-- **Reading conditions back.**  The text of a readable condition, as one of several terms that are
joined, is read as the condition is meant. -/
theorem Readable.isReadAs {c : Condition} (h : c.Readable) (k : Connective) :
    IsReadAs k (termText k c) fun v => c.holds v := by
  induction h generalizing k with
  | @all terms hne _ ih =>
    have hrun : IsReadAs .and (Condition.all terms).render
        fun v => (Condition.all terms).holds v := by
      rw [render, renderAll_eq_map]
      exact isReadAs_join hne fun c hc => ih c hc .and
    cases k with
    | and => exact hrun
    | or => exact hrun.inParens .or
  | @any terms hne _ ih =>
    have hrun : IsReadAs .or (Condition.any terms).render
        fun v => (Condition.any terms).holds v := by
      rw [render, renderAny_eq_map]
      exact isReadAs_join hne fun c hc => ih c hc .or
    cases k with
    | and => exact hrun.inParens .and
    | or => exact hrun
  | not hc ih =>
    obtain ⟨r, hp, hv⟩ := hc.exists_primaryText_not ih
    rw [termText_of_not_group rfl rfl]
    exact hp.isReadAs hv k
  | compare hl hr =>
    rw [termText_of_not_group rfl rfl]
    exact ⟨_, [], runText_comparison k hl.isItem (symbol_mem_symbols _) hr.isItem, fun _ => rfl⟩
  | contains hh hn =>
    rw [termText_of_not_group rfl rfl]
    exact (primaryText_contains hh.isItem hn.isItem).isReadAs (fun _ => rfl) k
  | truthy ho =>
    rw [termText_of_not_group rfl rfl]
    exact ho.isItem.primaryText.isReadAs (fun _ => rfl) k

end Condition

end PageQuery
