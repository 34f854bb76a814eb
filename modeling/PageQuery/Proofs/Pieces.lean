import PageQuery.Query.Clauses
import PageQuery.Proofs.Terms

/-!
# Rows of clauses

The text of a query is a row of pieces, each a word that a clause or one of its conditions begins with
and what stands behind that word.  A piece delimits itself, so two rows with the same tokens are the
same: `eq_of_allTokens_eq`.  If one of them begins in the middle of a piece of the other, each word
behind the beginning of a piece is the beginning of one in the other row, up to a single sort key:
`shifted_of_eq`.
-/

namespace PageQuery

open Where

/-- a clause, or one of the conditions of a query: the word it begins with and its other tokens -/
structure Piece where
  head : String
  body : List Token

namespace Piece

def tokens (p : Piece) : List Token := .item p.head :: p.body

def allTokens (ps : List Piece) : List Token := ps.flatMap tokens

def keyTokens (k : SortKey) : List Token := [.item k.field, .item k.direction.render]

def sortTokens (ks : List SortKey) : List Token := [.comma].intercalate (ks.map keyTokens)

/-- the digits of a number as a word -/
def digitWord (n : Nat) : String := String.ofList (Number.digitChars n)

/-- the pieces that the text of a query has -/
inductive Valid : Piece → Prop
  | flatten (field : String) : Valid ⟨"FLATTEN", [.item field]⟩
  | requirement {head : String} {ts : List Token} :
    head = "WHERE" ∨ head = "AND" → IsTerm ts → Valid ⟨head, ts⟩
  | sort {ks : List SortKey} : ks ≠ [] → Valid ⟨"SORT", sortTokens ks⟩
  | limit (n : Nat) : Valid ⟨"LIMIT", [.item (digitWord n)]⟩

/-! ### Pieces delimit themselves -/

/-- what is left behind sort keys -/
def afterSort : List Token → List Token
  | .item _ :: .item _ :: .comma :: ts => afterSort ts
  | .item _ :: .item _ :: ts => ts
  | ts => ts

/-- what is left of the tokens behind the first word of a piece -/
def afterBody (head : String) (ts : List Token) : List Token :=
  if head = "SORT" then afterSort ts else afterTerm 0 true ts

theorem sortTokens_cons_of_ne_nil (k : SortKey) {ks : List SortKey} (h : ks ≠ []) :
    sortTokens (k :: ks) = keyTokens k ++ .comma :: sortTokens ks := by
  rw [sortTokens, List.map_cons, List.intercalate_cons_of_ne_nil (by simpa using h),
    List.append_assoc]
  rfl

theorem sortTokens_cons (k : SortKey) (ks : List SortKey) :
    sortTokens (k :: ks) = keyTokens k ++ if ks = [] then [] else .comma :: sortTokens ks := by
  by_cases hnil : ks = []
  · rw [if_pos hnil, hnil]
    rfl
  · rw [if_neg hnil, sortTokens_cons_of_ne_nil k hnil]

theorem afterSort_sortTokens {ks : List SortKey} (hne : ks ≠ []) {rest : List Token}
    (hrest : StartsWord rest) : afterSort (sortTokens ks ++ rest) = rest := by
  induction ks with
  | nil => exact absurd rfl hne
  | cons k ks ih =>
    by_cases hnil : ks = []
    · subst hnil
      rcases rest with _ | ⟨_ | _ | _ | _ | _ | _, rest⟩ <;> first | rfl | cases hrest
    · rw [sortTokens_cons_of_ne_nil k hnil, List.append_assoc, List.cons_append]
      exact ih hnil

theorem Valid.isTerm {p : Piece} (h : p.Valid) (hs : p.head ≠ "SORT") : IsTerm p.body := by
  cases h with
  | flatten field => exact .item field
  | requirement _ h => exact h
  | sort _ => exact absurd rfl hs
  | limit n => exact .item _

theorem Valid.exists_keys {p : Piece} (h : p.Valid) (hs : p.head = "SORT") :
    ∃ ks, ks ≠ [] ∧ p.body = sortTokens ks := by
  cases h with
  | sort hne => exact ⟨_, hne, rfl⟩
  | requirement hh _ => rcases hh with rfl | rfl <;> simp at hs
  | _ => simp at hs

theorem Valid.afterBody {p : Piece} (h : p.Valid) {rest : List Token} (hrest : StartsWord rest) :
    afterBody p.head (p.body ++ rest) = rest := by
  unfold Piece.afterBody
  split
  · rename_i hs
    obtain ⟨ks, hne, hbody⟩ := h.exists_keys hs
    rw [hbody, afterSort_sortTokens hne hrest]
  · rename_i hs
    rw [(h.isTerm hs).afterTerm, afterTerm_of_startsWord hrest]

theorem startsWord_allTokens (ps : List Piece) : StartsWord (allTokens ps) := by
  cases ps with
  | nil => trivial
  | cons p ps => trivial

theorem allTokens_cons (p : Piece) (ps : List Piece) :
    allTokens (p :: ps) = .item p.head :: (p.body ++ allTokens ps) := rfl

theorem allTokens_append (ps qs : List Piece) :
    allTokens (ps ++ qs) = allTokens ps ++ allTokens qs := List.flatMap_append

/-- **Rows of pieces** with the same tokens are the same. -/
theorem eq_of_allTokens_eq {ps qs : List Piece} (hps : ∀ p ∈ ps, p.Valid) (hqs : ∀ q ∈ qs, q.Valid)
    (h : allTokens ps = allTokens qs) : ps = qs := by
  induction ps generalizing qs with
  | nil =>
    cases qs with
    | nil => rfl
    | cons q qs => cases h
  | cons p ps ih =>
    cases qs with
    | nil => cases h
    | cons q qs =>
      replace ⟨hp, hps⟩ := List.forall_mem_cons.1 hps
      replace ⟨hq, hqs⟩ := List.forall_mem_cons.1 hqs
      rw [allTokens_cons, allTokens_cons, List.cons.injEq, Token.item.injEq] at h
      obtain ⟨hhead, htokens⟩ := h
      have hrest : allTokens ps = allTokens qs := by
        rw [← hp.afterBody (startsWord_allTokens ps), htokens, hhead,
          hq.afterBody (startsWord_allTokens qs)]
      have hbody : p.body = q.body := List.append_cancel_right (hrest ▸ htokens)
      obtain ⟨head, body⟩ := p
      obtain ⟨head', body'⟩ := q
      rw [ih hps hqs hrest]
      cases hhead
      cases hbody
      rfl

/-! ### Rows that begin in the middle of a piece -/

/-- the words that pieces of one more word can begin with -/
def plainHeads : List String := ["FLATTEN", "WHERE", "AND"]

def heads : List String := ["FLATTEN", "WHERE", "AND", "SORT", "LIMIT"]

theorem Valid.head_mem {p : Piece} (h : p.Valid) : p.head ∈ heads := by
  cases h with
  | flatten field => simp [heads]
  | requirement hh _ => rcases hh with rfl | rfl <;> simp [heads]
  | sort _ => simp [heads]
  | limit n => simp [heads]

theorem isDigits_digitWord (n : Nat) : isDigits (digitWord n).toList = true := by
  rw [digitWord, String.toList_ofList]
  exact Number.isDigits_digitChars n

theorem digitWord_not_mem_heads (n : Nat) : digitWord n ∉ heads := by
  intro h
  have hdigits := isDigits_digitWord n
  simp only [heads, List.mem_cons, List.not_mem_nil, or_false] at h
  rcases h with h | h | h | h | h <;> rw [h] at hdigits <;> revert hdigits <;> decide

theorem direction_not_mem_heads (d : Direction) : d.render ∉ heads := by
  cases d <;> decide

theorem direction_ne_digitWord (d : Direction) (n : Nat) : d.render ≠ digitWord n := by
  intro h
  have hdigits := isDigits_digitWord n
  rw [← h] at hdigits
  revert hdigits
  cases d <;> decide

/-- The first row begins behind the first word of the piece, and the second row is what follows the
piece: what stands behind the first word of each piece is the first word of the next piece of the other
row, up to a sort key, behind which both rows are the same. -/
inductive Shifted : Piece → List Piece → List Piece → Prop
  | sort {field : String} (direction : Direction) (rest : List Piece) : field ∈ plainHeads →
    Shifted ⟨"SORT", [.item field, .item direction.render]⟩
      (⟨field, [.item direction.render]⟩ :: rest) rest
  | plain {head next : String} {body : List Token} {ps qs : List Piece} : head ∈ plainHeads →
    Shifted ⟨next, body⟩ qs ps → Shifted ⟨head, [.item next]⟩ (⟨next, body⟩ :: ps) qs

theorem Valid.mem_plainHeads {p : Piece} (h : p.Valid) (hs : p.head ≠ "SORT") :
    p.head ∈ plainHeads ∨ ∃ n, p.body = [.item (digitWord n)] := by
  cases h with
  | flatten field => exact Or.inl (by simp [plainHeads])
  | requirement hh _ => exact Or.inl (by rcases hh with rfl | rfl <;> simp [plainHeads])
  | sort _ => exact absurd rfl hs
  | limit n => exact Or.inr ⟨n, rfl⟩

theorem exists_sortTokens_cons (k : SortKey) (ks : List SortKey) :
    ∃ more, sortTokens (k :: ks) = .item k.field :: .item k.direction.render :: more ∧
      (more = [] ∨ ∃ ts, more = .comma :: ts) := by
  by_cases hnil : ks = []
  · exact ⟨[], by rw [hnil]; rfl, Or.inl rfl⟩
  · exact ⟨_, sortTokens_cons_of_ne_nil k hnil, Or.inr ⟨_, rfl⟩⟩

theorem Valid.startsOperand {p : Piece} (h : p.Valid) (rest : List Token) :
    StartsOperand (p.body ++ rest) := by
  by_cases hs : p.head = "SORT"
  · obtain ⟨ks, hne, hkeys⟩ := h.exists_keys hs
    obtain ⟨k, ks, rfl⟩ := List.exists_cons_of_ne_nil hne
    obtain ⟨more, hmore, -⟩ := exists_sortTokens_cons k ks
    rw [hkeys, hmore]
    trivial
  · exact (h.isTerm hs).startsOperand rest

/-- a piece other than a sort, in the middle of which a row begins -/
theorem Valid.next_of_eq {q : Piece} (hq : q.Valid) (hs : q.head ≠ "SORT") {ps qs : List Piece}
    (hps : ∀ p ∈ ps, p.Valid) (h : allTokens ps = q.body ++ allTokens qs) :
    ∃ p rest, ps = p :: rest ∧ q.body = [.item p.head] ∧ q.head ∈ plainHeads ∧
      allTokens qs = p.body ++ allTokens rest := by
  have hterm := hq.isTerm hs
  obtain ⟨t, ts, hbody⟩ := List.exists_cons_of_ne_nil hterm.ne_nil
  rw [hbody] at h hterm
  cases ps with
  | nil => cases h
  | cons p rest =>
    have hp := hps p List.mem_cons_self
    obtain ⟨rfl, htokens⟩ : .item p.head = t ∧ p.body ++ allTokens rest = ts ++ allTokens qs :=
      List.cons.inj h
    have hcontains : p.head ≠ "contains" := fun hhead =>
      absurd (hhead ▸ hp.head_mem) (by decide)
    rcases hterm.of_item hcontains with rfl | ⟨op, y, rfl⟩
    · refine ⟨p, rest, rfl, hbody, (hq.mem_plainHeads hs).resolve_right ?_, htokens.symm⟩
      rintro ⟨n, hn⟩
      have hword : p.head = digitWord n := by simpa [hbody] using hn
      exact digitWord_not_mem_heads n (hword ▸ hp.head_mem)
    · have hstart := hp.startsOperand (allTokens rest)
      rw [htokens] at hstart
      exact hstart.elim

/-- A direction is no word that a piece begins with, so no second sort begins at the key of a sort. -/
theorem Valid.head_ne_sort {p : Piece} (hp : p.Valid) {direction : Direction} {more ts : List Token}
    {qs : List Piece} (hqs : ∀ q ∈ qs, q.Valid) (hmore : more = [] ∨ ∃ us, more = .comma :: us)
    (h : p.body ++ ts = .item direction.render :: (more ++ allTokens qs)) : p.head ≠ "SORT" := by
  intro hs
  obtain ⟨ks, hne, hkeys⟩ := hp.exists_keys hs
  obtain ⟨k, ks, rfl⟩ := List.exists_cons_of_ne_nil hne
  obtain ⟨more', hsort, -⟩ := exists_sortTokens_cons k ks
  rw [hkeys, hsort] at h
  have hrest : .item k.direction.render :: (more' ++ ts) = more ++ allTokens qs :=
    (List.cons.inj h).2
  rcases hmore with rfl | ⟨us, rfl⟩
  · cases qs with
    | nil => cases hrest
    | cons q qs =>
      have hhead : k.direction.render = q.head := Token.item.inj (List.cons.inj hrest).1
      exact direction_not_mem_heads _ (hhead ▸ (hqs q List.mem_cons_self).head_mem)
  · cases hrest

/-- a sort in the middle of which a row begins -/
theorem Valid.next_of_eq_sort {q : Piece} (hq : q.Valid) (hs : q.head = "SORT") {ps qs : List Piece}
    (hps : ∀ p ∈ ps, p.Valid) (hqs : ∀ q ∈ qs, q.Valid) (h : allTokens ps = q.body ++ allTokens qs) :
    ∃ field direction, field ∈ plainHeads ∧
      q.body = [.item field, .item (Direction.render direction)] ∧
      ps = ⟨field, [.item direction.render]⟩ :: qs := by
  obtain ⟨ks, hne, hkeys⟩ := hq.exists_keys hs
  obtain ⟨⟨field, direction⟩, ks, rfl⟩ := List.exists_cons_of_ne_nil hne
  obtain ⟨more, hsort, hmore⟩ := exists_sortTokens_cons ⟨field, direction⟩ ks
  rw [hkeys, hsort] at h
  cases ps with
  | nil => cases h
  | cons p rest =>
    replace ⟨hp, hps⟩ := List.forall_mem_cons.1 hps
    obtain ⟨hhead, htokens⟩ : Token.item p.head = .item field ∧
        p.body ++ allTokens rest = .item direction.render :: (more ++ allTokens qs) :=
      List.cons.inj h
    have hnosort := hp.head_ne_sort hqs hmore htokens
    have hterm := hp.isTerm hnosort
    obtain ⟨t, ts, hbody⟩ := List.exists_cons_of_ne_nil hterm.ne_nil
    rw [hbody] at htokens hterm
    obtain ⟨rfl, hrest⟩ : t = .item direction.render ∧
        ts ++ allTokens rest = more ++ allTokens qs := List.cons.inj htokens
    have hstart := startsWord_allTokens rest
    have hstart' := startsWord_allTokens qs
    have hcontains : direction.render ≠ "contains" := by cases direction <;> decide
    rcases hterm.of_item hcontains with rfl | ⟨op, y, rfl⟩
    · rw [List.nil_append] at hrest
      rcases hmore with rfl | ⟨us, rfl⟩
      · obtain rfl := eq_of_allTokens_eq hps hqs hrest
        obtain ⟨head, body⟩ := p
        obtain rfl : head = field := Token.item.inj hhead
        obtain rfl : body = [.item direction.render] := hbody
        refine ⟨head, direction, (hp.mem_plainHeads hnosort).resolve_right ?_, hkeys.trans hsort,
          rfl⟩
        rintro ⟨n, hn⟩
        exact direction_ne_digitWord direction n (by simpa using hn)
      · rw [hrest] at hstart
        exact hstart.elim
    · rcases hmore with rfl | ⟨us, rfl⟩
      · rw [List.nil_append] at hrest
        rw [← hrest] at hstart'
        exact hstart'.elim
      · cases hrest

theorem shifted_of_eq {q : Piece} {ps qs : List Piece} (hq : q.Valid) (hps : ∀ p ∈ ps, p.Valid)
    (hqs : ∀ q ∈ qs, q.Valid) (h : allTokens ps = q.body ++ allTokens qs) : Shifted q ps qs := by
  by_cases hs : q.head = "SORT"
  · obtain ⟨field, direction, hfield, hbody, rfl⟩ := hq.next_of_eq_sort hs hps hqs h
    obtain ⟨head, body⟩ := q
    cases hs
    cases hbody
    exact .sort direction qs hfield
  · obtain ⟨p, rest, rfl, hbody, hhead, hrest⟩ := hq.next_of_eq hs hps h
    replace ⟨hp, hps⟩ := List.forall_mem_cons.1 hps
    obtain ⟨head, body⟩ := q
    cases hbody
    exact .plain hhead (shifted_of_eq hp hqs hps hrest)
termination_by ps.length + qs.length

/-! ### Rows of single words -/

/-- a piece of two words -/
def ofWords (w : String × String) : Piece := ⟨w.1, [.item w.2]⟩

/-- a sort by one key -/
def ofKey (k : SortKey) : Piece := ⟨"SORT", sortTokens [k]⟩

/-- Two rows of pieces of two words, one of them followed by a sort by one key, and a first word: the
second row begins with that word, and with it the first row has the same words.  In the first case the
second row has the sort, in the second case the first one. -/
inductive Overlaps (first : String) (xs ys : List (String × String)) :
    Option SortKey → Option SortKey → Prop
  | later {k : SortKey} : first :: xs.map (·.2) = ys.map (·.1) ++ ["SORT", k.direction.render] →
    xs.map (·.1) = ys.map (·.2) ++ [k.field] → Overlaps first xs ys none (some k)
  | earlier {k : SortKey} : first :: (xs.map (·.2) ++ [k.field]) = ys.map (·.1) →
    xs.map (·.1) ++ ["SORT", k.direction.render] = ys.map (·.2) → Overlaps first xs ys (some k) none

theorem Overlaps.next {first head : String} {xs ys : List (String × String)}
    {k k' : Option SortKey} (h : Overlaps first xs ys k k') :
    Overlaps head ys ((head, first) :: xs) k' k := by
  cases h with
  | later hbodies hheads => exact .earlier (by simp [hheads]) (by simp [hbodies])
  | earlier hheads hbodies => exact .later (by simp [hbodies]) (by simp [← hheads])

/-- the words of pieces of two words -/
def words (xs : List (String × String)) : List String := xs.flatMap fun w => [w.1, w.2]

def sortWords (k : SortKey) : List String := ["SORT", k.field, k.direction.render]

theorem Overlaps.words_eq {first : String} {xs ys : List (String × String)} {k k' : Option SortKey}
    (h : Overlaps first xs ys k k') :
    first :: (words xs ++ k.toList.flatMap sortWords) = words ys ++ k'.toList.flatMap sortWords := by
  cases ys with
  | nil =>
    cases h with
    | @later k hbodies hheads =>
      obtain ⟨x, rfl, hx⟩ := List.map_eq_singleton_iff.1 hheads
      simp [words, sortWords, hx] at hbodies ⊢
      exact hbodies
    | earlier hheads _ => cases hheads
  | cons y ys =>
    -- the rows change places behind each word
    obtain ⟨rfl, hnext⟩ : first = y.1 ∧ Overlaps y.2 ys xs k' k := by
      cases h with
      | later hbodies hheads =>
        obtain ⟨hfirst, hbodies⟩ := List.cons.inj hbodies
        exact ⟨hfirst, .earlier hheads.symm hbodies.symm⟩
      | earlier hheads hbodies =>
        obtain ⟨hfirst, hheads⟩ := List.cons.inj hheads
        exact ⟨hfirst, .later hbodies.symm hheads.symm⟩
    rw [← hnext.words_eq]
    rfl
termination_by xs.length + ys.length

/-- rows that are shifted have the words of pieces of two words, up to what follows the sort -/
theorem Shifted.exists_overlaps {q : Piece} {ps qs : List Piece} (h : Shifted q ps qs) :
    ∃ xs ys k k' rest, Overlaps q.head xs ys k k' ∧
      (∀ w ∈ xs, w.1 ∈ plainHeads) ∧ (∀ w ∈ ys, w.1 ∈ plainHeads) ∧
      ps = xs.map ofWords ++ k.toList.map ofKey ++ rest ∧
      q :: qs = ys.map ofWords ++ k'.toList.map ofKey ++ rest := by
  induction h with
  | @sort field direction rest hfield =>
    exact ⟨[(field, direction.render)], [], none, some ⟨field, direction⟩, rest,
      .later rfl rfl, by simpa using hfield, by simp, rfl, rfl⟩
  | @plain head next body ps qs hhead _ ih =>
    obtain ⟨xs, ys, k, k', rest, hoverlaps, hxs, hys, hqs, hps⟩ := ih
    exact ⟨ys, (head, next) :: xs, k', k, rest, hoverlaps.next, hys,
      List.forall_mem_cons.2 ⟨hhead, hxs⟩, hps, by rw [hqs]; rfl⟩

end Piece

end PageQuery
