import Mathlib.Data.Finset.Card
import Mathlib.Data.Finset.Range
import PageQuery.Proofs.Bounds

/-!
# The depth of a row of tokens

What the check on nesting counts, said without the check:

* `Opens`, `Closes` and `Deepens`: the tokens that open and close a bracket, and the others that count;
* `Balanced ts`: the brackets of `ts` come in pairs, of whatever kinds;
* `Paired ts i j`: the brackets at `i` and `j` close each other, for what stands between is balanced;
* `openDepth ts`: behind the last closing bracket without a partner, how many brackets are still open
  and how many deepening tokens stand in no pair.

`depth_eq_openDepth`: the depth that is kept token by token is this number.  `checkNesting_exact`: so
the check accepts what keeps both bounds, and otherwise names the first token that does not.
-/

namespace PageQuery.Script

/-! ### Tokens that count -/

namespace Token

/-- The token opens a bracket, or a substitution in a template. -/
inductive Opens : Token → Prop
  | leftParen : Opens leftParen
  | leftBracket : Opens leftBracket
  | leftBrace : Opens leftBrace
  | substitution : Opens substitution

/-- The token closes a bracket. -/
inductive Closes : Token → Prop
  | rightParen : Closes rightParen
  | rightBracket : Closes rightBracket
  | rightBrace : Closes rightBrace

/-- The token counts without being a bracket: an operator that can stand in front of its operand, a
power, an arrow, a question mark, an assignment or a keyword. -/
inductive Deepens : Token → Prop
  | bang : Deepens bang
  | tilde : Deepens tilde
  | increment : Deepens increment
  | decrement : Deepens decrement
  | plus : Deepens (binary .plus)
  | minus : Deepens (binary .minus)
  | power : Deepens (binary .power)
  | arrow : Deepens arrow
  | question : Deepens question
  | assign (plain : Bool) : Deepens (assign plain)
  | keyword {w : String} : w ∈ keywords → Deepens (word w)

variable {t : Token}

@[simp] theorem isOpening_iff : t.isOpening = true ↔ t.Opens := by
  refine ⟨fun h => ?_, fun h => by cases h <;> rfl⟩
  cases t <;> first | constructor | cases h

@[simp] theorem isClosing_iff : t.isClosing = true ↔ t.Closes := by
  refine ⟨fun h => ?_, fun h => by cases h <;> rfl⟩
  cases t <;> first | constructor | cases h

@[simp] theorem isDeepening_iff : t.isDeepening = true ↔ t.Deepens := by
  constructor
  · intro h
    cases t with
    | word w => exact .keyword (List.contains_iff_mem.1 h)
    | binary op => cases op <;> first | constructor | cases h
    | _ => first | constructor | cases h
  · intro h
    cases h with
    | keyword hw => exact List.contains_iff_mem.2 hw
    | _ => rfl

instance : DecidablePred Opens := fun _ => decidable_of_iff _ isOpening_iff

instance : DecidablePred Closes := fun _ => decidable_of_iff _ isClosing_iff

instance : DecidablePred Deepens := fun _ => decidable_of_iff _ isDeepening_iff

theorem Opens.not_closes (h : t.Opens) : ¬ t.Closes := by
  cases h <;> exact nofun

theorem Opens.not_deepens (h : t.Opens) : ¬ t.Deepens := by
  cases h <;> exact nofun

theorem Closes.not_deepens (h : t.Closes) : ¬ t.Deepens := by
  cases h <;> exact nofun

/-- the token is a bracket -/
def IsBracket (t : Token) : Prop := t.Opens ∨ t.Closes

end Token

/-! ### Pairs of brackets -/

/-- The brackets come in pairs, an opening one of any kind with a closing one of any kind. -/
inductive Balanced : List Token → Prop
  | nil : Balanced []
  | plain {t : Token} : ¬ t.Opens → ¬ t.Closes → Balanced [t]
  | group {o c : Token} {ts : List Token} :
    o.Opens → c.Closes → Balanced ts → Balanced (o :: ts ++ [c])
  | append {ts us : List Token} : Balanced ts → Balanced us → Balanced (ts ++ us)

/-- a token of the kind stands at `k` -/
def StandsAt (kind : Token → Prop) (ts : List Token) (k : Nat) : Prop :=
  ∃ t, ts[k]? = some t ∧ kind t

/-- The brackets at `i` and `j` close each other. -/
structure Paired (ts : List Token) (i j : Nat) : Prop where
  before : i < j
  opening : StandsAt Token.Opens ts i
  closing : StandsAt Token.Closes ts j
  between : Balanced ((ts.take j).drop (i + 1))

/-- a closing bracket without a partner stands at `j` -/
def Unmatched (ts : List Token) (j : Nat) : Prop :=
  StandsAt Token.Closes ts j ∧ ∀ i, ¬ Paired ts i j

/-- every closing bracket without a partner stands before `k` -/
def Counts (ts : List Token) (k : Nat) : Prop := ∀ j, Unmatched ts j → j < k

/-- at `k` stands an opening bracket that counts and has not been closed -/
structure StillOpen (ts : List Token) (k : Nat) : Prop where
  counts : Counts ts k
  opening : StandsAt Token.Opens ts k
  unclosed : ∀ j, ¬ Paired ts k j

/-- at `k` stands a deepening token that counts and is inside no pair of brackets -/
structure Loose (ts : List Token) (k : Nat) : Prop where
  counts : Counts ts k
  deepening : StandsAt Token.Deepens ts k
  outside : ∀ i j, Paired ts i j → ¬ (i < k ∧ k < j)

open Classical in
/-- how many places of a row have a property -/
noncomputable def places (ts : List Token) (P : Nat → Prop) : Nat :=
  ((Finset.range ts.length).filter P).card

/-- **The open nesting**: the brackets still open and the deepening tokens in no pair. -/
noncomputable def openDepth (ts : List Token) : Nat :=
  places ts (StillOpen ts) + places ts (Loose ts)

/-! ### Tokens at places -/

section Places

variable {kind : Token → Prop} {ts us : List Token} {k : Nat}

theorem StandsAt.lt (h : StandsAt kind ts k) : k < ts.length := by
  obtain ⟨t, ht, -⟩ := h
  exact (List.getElem?_eq_some_iff.1 ht).1

theorem standsAt_append (hk : k < ts.length) : StandsAt kind (ts ++ us) k ↔ StandsAt kind ts k := by
  simp only [StandsAt, List.getElem?_append_left hk]

theorem standsAt_behind : StandsAt kind (ts ++ us) (ts.length + k) ↔ StandsAt kind us k := by
  simp only [StandsAt, List.getElem?_append_right (Nat.le_add_right _ _), Nat.add_sub_cancel_left]

theorem standsAt_length (t : Token) : StandsAt kind (ts ++ [t]) ts.length ↔ kind t := by
  simp [StandsAt]

theorem standsAt_singleton {t : Token} : StandsAt kind [t] k ↔ k = 0 ∧ kind t := by
  cases k <;> simp [StandsAt]

/-- a token is of one kind only -/
theorem StandsAt.ne {kind' : Token → Prop} {l : Nat} (h : StandsAt kind ts k)
    (h' : StandsAt kind' ts l) (hkinds : ∀ t, kind t → ¬ kind' t) : k ≠ l := by
  rintro rfl
  obtain ⟨t, ht, hkind⟩ := h
  obtain ⟨t', ht', hkind'⟩ := h'
  rw [ht] at ht'
  cases ht'
  exact hkinds t hkind hkind'

theorem StandsAt.isBracket_of_opens (h : StandsAt Token.Opens ts k) :
    StandsAt Token.IsBracket ts k := by
  obtain ⟨t, ht, hkind⟩ := h
  exact ⟨t, ht, .inl hkind⟩

theorem StandsAt.isBracket_of_closes (h : StandsAt Token.Closes ts k) :
    StandsAt Token.IsBracket ts k := by
  obtain ⟨t, ht, hkind⟩ := h
  exact ⟨t, ht, .inr hkind⟩

end Places

/-! ### Runs over paired brackets -/

section Runs

variable {t o c : Token} {b : List Token}

theorem step_of_opens (h : o.Opens) (n : Nesting) :
    n.step o = ⟨n.depth + 1, n.depth :: n.opened⟩ := by
  simp [Nesting.step, h]

theorem step_of_closes (h : c.Closes) {n : Nesting} {d : Nat} {ds : List Nat}
    (hn : n.opened = d :: ds) : n.step c = ⟨d, ds⟩ := by
  have ho : ¬ c.Opens := fun ho => ho.not_closes h
  simp [Nesting.step, h, ho, hn]

theorem step_of_unmatched (h : c.Closes) {n : Nesting} (hn : n.opened = []) :
    n.step c = ⟨0, []⟩ := by
  have ho : ¬ c.Opens := fun ho => ho.not_closes h
  simp [Nesting.step, h, ho, hn]

/-- a token that is no closing bracket adds one or nothing to the depth -/
theorem depth_step (h : ¬ t.Closes) (n : Nesting) :
    (n.step t).depth = n.depth + ((if t.Opens then 1 else 0) + if t.Deepens then 1 else 0) := by
  by_cases ho : t.Opens
  · simp [Nesting.step, ho, ho.not_deepens]
  · by_cases hd : t.Deepens <;> simp [Nesting.step, ho, h, hd]

theorem opened_step_of_plain (ho : ¬ t.Opens) (hc : ¬ t.Closes) (n : Nesting) :
    (n.step t).opened = n.opened := by
  by_cases hd : t.Deepens <;> simp [Nesting.step, ho, hc, hd]

theorem foldl_enclosed (ho : o.Opens) (hc : c.Closes)
    (hb : ∀ n, (b.foldl Nesting.step n).opened = n.opened) (n : Nesting) :
    (o :: b ++ [c]).foldl Nesting.step n = n := by
  have hopened : ((o :: b).foldl Nesting.step n).opened = n.depth :: n.opened := by
    rw [List.foldl_cons, hb, step_of_opens ho]
  rw [List.foldl_append, List.foldl_cons, List.foldl_nil, step_of_closes hc hopened]

/-- paired brackets leave the brackets that were open before as they were -/
theorem Balanced.opened_foldl (h : Balanced b) (n : Nesting) :
    (b.foldl Nesting.step n).opened = n.opened := by
  induction h generalizing n with
  | nil => rfl
  | plain ho hc => exact opened_step_of_plain ho hc n
  | group ho hc _ ih => rw [foldl_enclosed ho hc ih]
  | append _ _ ihts ihus => rw [List.foldl_append, ihus, ihts]

/-- **Groups.**  A bracket, whatever paired brackets it holds, and a closing bracket change nothing. -/
theorem foldl_group (ho : o.Opens) (hc : c.Closes) (hb : Balanced b)
    (n : Nesting) : (o :: b ++ [c]).foldl Nesting.step n = n :=
  foldl_enclosed ho hc hb.opened_foldl n

/-- paired brackets never close what was open before -/
theorem Balanced.length_opened_le (h : Balanced b) {pre : List Token} (hpre : pre <+: b)
    (n : Nesting) : n.opened.length ≤ (pre.foldl Nesting.step n).opened.length := by
  induction h generalizing pre n with
  | nil =>
    rw [List.prefix_nil.1 hpre]
    exact Nat.le_refl _
  | @plain t ho hc =>
    rcases List.prefix_cons_iff.1 hpre with rfl | ⟨pre, rfl, hnil⟩
    · exact Nat.le_refl _
    · rw [List.prefix_nil.1 hnil, List.foldl_cons, List.foldl_nil, opened_step_of_plain ho hc]
  | @group o c ts ho hc hts ih =>
    rcases List.prefix_concat_iff.1 hpre with rfl | hpre
    · rw [foldl_group ho hc hts]
    · rcases List.prefix_cons_iff.1 hpre with rfl | ⟨pre, rfl, hin⟩
      · exact Nat.le_refl _
      · have hle := ih hin (n.step o)
        rw [step_of_opens ho, List.length_cons] at hle
        rw [List.foldl_cons, step_of_opens ho]
        omega
  | @append ts us hts _ ihts ihus =>
    rcases List.prefix_or_prefix_of_prefix hpre (List.prefix_append ts us) with hpre | ⟨pre, rfl⟩
    · exact ihts hpre n
    · have hle := ihus ((List.prefix_append_right_inj ts).1 hpre) (ts.foldl Nesting.step n)
      rwa [hts.opened_foldl, ← List.foldl_append] at hle

/-- what stands in front of a group cannot close a bracket of the group -/
theorem not_balanced_of_prefix (ho : o.Opens) (hb : Balanced b) {front pre : List Token}
    (hpre : pre <+: b) : ¬ Balanced (front ++ o :: pre) := by
  intro h
  have hfront := h.length_opened_le (List.prefix_append front _) {}
  have hin := hb.length_opened_le hpre ((front.foldl Nesting.step {}).step o)
  have hall := congrArg List.length (h.opened_foldl {})
  rw [List.foldl_append, List.foldl_cons] at hall
  rw [step_of_opens ho] at hin hall
  rw [List.length_cons] at hin
  omega

end Runs

/-! ### Pairs in a longer row -/

section Longer

variable {ts us b : List Token} {i j k : Nat}

theorem paired_append (hj : j < ts.length) : Paired (ts ++ us) i j ↔ Paired ts i j := by
  have htake : (ts ++ us).take j = ts.take j := List.take_append_of_le_length (Nat.le_of_lt hj)
  constructor
  · rintro ⟨hlt, ho, hc, hb⟩
    exact ⟨hlt, (standsAt_append (hlt.trans hj)).1 ho, (standsAt_append hj).1 hc, htake ▸ hb⟩
  · rintro ⟨hlt, ho, hc, hb⟩
    exact ⟨hlt, (standsAt_append (hlt.trans hj)).2 ho, (standsAt_append hj).2 hc, htake.symm ▸ hb⟩

theorem Paired.behind (h : Paired us i j) (ts : List Token) :
    Paired (ts ++ us) (ts.length + i) (ts.length + j) where
  before := Nat.add_lt_add_left h.before _
  opening := standsAt_behind.2 h.opening
  closing := standsAt_behind.2 h.closing
  between := by
    rw [List.take_length_add_append, Nat.add_assoc, List.drop_length_add_append]
    exact h.between

theorem Paired.append (h : Paired ts i j) (us : List Token) : Paired (ts ++ us) i j :=
  (paired_append h.closing.lt).2 h

theorem paired_group {o c : Token} (ho : o.Opens) (hc : c.Closes)
    (hb : Balanced b) : Paired (o :: b ++ [c]) 0 (b.length + 1) where
  before := Nat.succ_pos _
  opening := ⟨o, rfl, ho⟩
  closing := ⟨c, List.getElem?_concat_length, hc⟩
  between := by
    have htake : (o :: b ++ [c]).take (b.length + 1) = o :: b := List.take_left' rfl
    rw [htake]
    exact hb

/-- every bracket among paired ones belongs to a pair of them -/
theorem Balanced.exists_paired (h : Balanced b) (hk : StandsAt Token.IsBracket b k) :
    ∃ i j, Paired b i j ∧ (k = i ∨ k = j) := by
  induction h generalizing k with
  | nil => exact absurd hk.lt (Nat.not_lt_zero k)
  | plain ho hc =>
    obtain hopens | hcloses := (standsAt_singleton.1 hk).2
    · exact absurd hopens ho
    · exact absurd hcloses hc
  | @group o c ts ho hc hts ih =>
    have hpair := paired_group ho hc hts
    have hlt := hk.lt
    rw [List.length_append, List.length_cons, List.length_singleton] at hlt
    rcases Nat.eq_zero_or_pos k with rfl | hpos
    · exact ⟨_, _, hpair, Or.inl rfl⟩
    · by_cases hlast : k = ts.length + 1
      · exact ⟨_, _, hpair, Or.inr hlast⟩
      · -- the bracket is one of those that the group holds
        obtain ⟨k, rfl⟩ := Nat.exists_eq_add_of_le hpos
        have hin : StandsAt Token.IsBracket ([o] ++ ts) ([o].length + k) :=
          (standsAt_append (by rw [List.length_append, List.length_singleton]; omega)).1 hk
        obtain ⟨i, j, hp, hij⟩ := ih (standsAt_behind.1 hin)
        exact ⟨_, _, (hp.behind [o]).append [c],
          hij.imp (congrArg ([o].length + ·)) (congrArg ([o].length + ·))⟩
  | @append ts us _ _ ihts ihus =>
    by_cases hlt : k < ts.length
    · obtain ⟨i, j, hp, hij⟩ := ihts ((standsAt_append hlt).1 hk)
      exact ⟨i, j, hp.append us, hij⟩
    · obtain ⟨k, rfl⟩ := Nat.exists_eq_add_of_le (Nat.le_of_not_lt hlt)
      obtain ⟨i, j, hp, hij⟩ := ihus (standsAt_behind.1 hk)
      exact ⟨_, _, hp.behind ts, hij.imp (congrArg (ts.length + ·)) (congrArg (ts.length + ·))⟩

/-- `us` closes no bracket of `ts`, and every closing bracket in it has a partner. -/
structure Detached (ts us : List Token) : Prop where
  within : ∀ {i j}, Paired (ts ++ us) i j → i < ts.length → j < ts.length
  matched : ∀ {j}, ts.length ≤ j → ¬ Unmatched (ts ++ us) j

namespace Detached

theorem counts (h : Detached ts us) : Counts (ts ++ us) k ↔ Counts ts k := by
  refine forall_congr' fun j => ?_
  by_cases hj : j < ts.length
  · have hunmatched : Unmatched (ts ++ us) j ↔ Unmatched ts j :=
      and_congr (standsAt_append hj) (forall_congr' fun i => not_congr (paired_append hj))
    rw [hunmatched]
  · have hin : ¬ Unmatched ts j := fun hu => hj hu.1.lt
    simp only [h.matched (Nat.le_of_not_lt hj), hin]

theorem stillOpen (h : Detached ts us) (hk : k < ts.length) :
    StillOpen (ts ++ us) k ↔ StillOpen ts k := by
  constructor
  · rintro ⟨hc, ho, hu⟩
    exact ⟨h.counts.1 hc, (standsAt_append hk).1 ho, fun j hp => hu j (hp.append us)⟩
  · rintro ⟨hc, ho, hu⟩
    refine ⟨h.counts.2 hc, (standsAt_append hk).2 ho, fun j hp => ?_⟩
    exact hu j ((paired_append (h.within hp hk)).1 hp)

theorem loose (h : Detached ts us) (hk : k < ts.length) : Loose (ts ++ us) k ↔ Loose ts k := by
  constructor
  · rintro ⟨hc, hd, hout⟩
    exact ⟨h.counts.1 hc, (standsAt_append hk).1 hd, fun i j hp => hout i j (hp.append us)⟩
  · rintro ⟨hc, hd, hout⟩
    refine ⟨h.counts.2 hc, (standsAt_append hk).2 hd, fun i j hp hij => ?_⟩
    have hj := h.within hp (hij.1.trans hk)
    exact hout i j ((paired_append hj).1 hp) hij

end Detached

theorem detached_of_plain {t : Token} (ht : ¬ t.Closes) (ts : List Token) :
    Detached ts [t] := by
  have hclosing : ∀ {j}, StandsAt Token.Closes (ts ++ [t]) j → j < ts.length := by
    intro j hj
    have hlt := hj.lt
    rw [List.length_append, List.length_singleton] at hlt
    by_contra hge
    obtain rfl : j = ts.length := by omega
    exact ht ((standsAt_length t).1 hj)
  exact ⟨fun hp _ => hclosing hp.closing, fun hj hu => absurd (hclosing hu.1) (Nat.not_lt.2 hj)⟩

theorem detached_of_group {o c : Token} (ho : o.Opens) (hc : c.Closes)
    (hb : Balanced b) (ts : List Token) : Detached ts (o :: b ++ [c]) where
  within := by
    intro i j hp hi
    by_contra hj
    obtain ⟨m, rfl⟩ := Nat.exists_eq_add_of_le (Nat.le_of_not_lt hj)
    have hclosing := standsAt_behind.1 hp.closing
    have hlt := hclosing.lt
    rw [List.length_append, List.length_cons, List.length_singleton] at hlt
    cases m with
    | zero =>
      have hopening := (paired_group ho hc hb).opening
      exact absurd rfl (hopening.ne hclosing fun _ => Token.Opens.not_closes)
    | succ m =>
      -- what stands between would close a bracket of the group
      have hbetween := hp.between
      have htake : (o :: b ++ [c]).take (m + 1) = o :: b.take m := by
        rw [List.cons_append, List.take_succ_cons, List.take_append_of_le_length (by omega)]
      rw [List.take_length_add_append, htake, List.drop_append_of_le_length hi] at hbetween
      exact not_balanced_of_prefix ho hb (List.take_prefix m b) hbetween
  matched := by
    intro j hj hu
    obtain ⟨m, rfl⟩ := Nat.exists_eq_add_of_le hj
    have hclosing := standsAt_behind.1 hu.1
    obtain ⟨i, j, hp, rfl | rfl⟩ :=
      (Balanced.group ho hc hb).exists_paired hclosing.isBracket_of_closes
    · exact absurd rfl (hp.opening.ne hclosing fun _ => Token.Opens.not_closes)
    · exact hu.2 _ (hp.behind ts)

end Longer

/-! ### The open nesting token by token -/

section OpenDepth

variable {ts : List Token} {P Q : Nat → Prop}

theorem places_eq_zero (h : ∀ k, k < ts.length → ¬ P k) : places ts P = 0 := by
  classical
  rw [places, Finset.card_eq_zero, Finset.filter_eq_empty_iff]
  exact fun k hk => h k (Finset.mem_range.1 hk)

theorem places_append {us : List Token} (h : ∀ k, k < ts.length → (P k ↔ Q k))
    (hbehind : ∀ k, ts.length ≤ k → ¬ P k) : places (ts ++ us) P = places ts Q := by
  classical
  unfold places
  refine congrArg Finset.card (Finset.ext fun k => ?_)
  simp only [Finset.mem_filter, Finset.mem_range, List.length_append]
  constructor
  · rintro ⟨-, hP⟩
    have hk : k < ts.length := by
      by_contra hk
      exact hbehind k (Nat.le_of_not_lt hk) hP
    exact ⟨hk, (h k hk).1 hP⟩
  · rintro ⟨hk, hQ⟩
    exact ⟨by omega, (h k hk).2 hQ⟩

theorem places_concat {t : Token} {kind : Token → Prop} [DecidablePred kind]
    (h : ∀ k, k < ts.length → (P k ↔ Q k)) (hlast : P ts.length ↔ kind t) :
    places (ts ++ [t]) P = places ts Q + if kind t then 1 else 0 := by
  classical
  have hbelow : (Finset.range ts.length).filter P = (Finset.range ts.length).filter Q :=
    Finset.filter_congr fun k hk => h k (Finset.mem_range.1 hk)
  unfold places
  rw [List.length_append, List.length_singleton, Finset.range_add_one, Finset.filter_insert]
  by_cases hkind : kind t
  · have hnew : ts.length ∉ (Finset.range ts.length).filter P := by simp
    rw [if_pos (hlast.2 hkind), Finset.card_insert_of_notMem hnew, hbelow, if_pos hkind]
  · rw [if_neg (mt hlast.1 hkind), hbelow, if_neg hkind, Nat.add_zero]

theorem counts_length_of_plain {t : Token} (ht : ¬ t.Closes) (ts : List Token) :
    Counts (ts ++ [t]) ts.length :=
  (detached_of_plain ht ts).counts.2 fun _ hu => hu.1.lt

/-- a token that is no closing bracket counts one or nothing -/
theorem openDepth_concat {t : Token} (ht : ¬ t.Closes) (ts : List Token) :
    openDepth (ts ++ [t]) =
      openDepth ts + ((if t.Opens then 1 else 0) + if t.Deepens then 1 else 0) := by
  have hdetached := detached_of_plain ht ts
  have hwithin : ∀ {i j}, Paired (ts ++ [t]) i j → j < ts.length := by
    intro i j hp
    have hlt := hp.closing.lt
    have hne : ts.length ≠ j := by
      rintro rfl
      exact ht ((standsAt_length t).1 hp.closing)
    rw [List.length_append, List.length_singleton] at hlt
    omega
  have hopen : StillOpen (ts ++ [t]) ts.length ↔ t.Opens := by
    refine ⟨fun h => (standsAt_length t).1 h.opening, fun h => ?_⟩
    refine ⟨counts_length_of_plain ht ts, (standsAt_length t).2 h, fun j hp => ?_⟩
    exact Nat.lt_asymm hp.before (hwithin hp)
  have hloose : Loose (ts ++ [t]) ts.length ↔ t.Deepens := by
    refine ⟨fun h => (standsAt_length t).1 h.deepening, fun h => ?_⟩
    refine ⟨counts_length_of_plain ht ts, (standsAt_length t).2 h, fun i j hp hij => ?_⟩
    exact Nat.lt_asymm hij.2 (hwithin hp)
  unfold openDepth
  rw [places_concat (Q := StillOpen ts) (fun k hk => hdetached.stillOpen hk) hopen,
    places_concat (Q := Loose ts) (fun k hk => hdetached.loose hk) hloose]
  omega

/-- a group counts nothing -/
theorem openDepth_group {o c : Token} {b : List Token} (ho : o.Opens)
    (hc : c.Closes) (hb : Balanced b) (ts : List Token) :
    openDepth (ts ++ (o :: b ++ [c])) = openDepth ts := by
  have hdetached := detached_of_group ho hc hb ts
  have hgroup := Balanced.group ho hc hb
  have hpair := (paired_group ho hc hb).behind ts
  have hstill : ∀ k, ts.length ≤ k → ¬ StillOpen (ts ++ (o :: b ++ [c])) k := by
    intro k hk h
    obtain ⟨k, rfl⟩ := Nat.exists_eq_add_of_le hk
    have hopening := standsAt_behind.1 h.opening
    obtain ⟨i, j, hp, rfl | rfl⟩ := hgroup.exists_paired hopening.isBracket_of_opens
    · exact h.unclosed _ (hp.behind ts)
    · exact absurd rfl (hopening.ne hp.closing fun _ => Token.Opens.not_closes)
  have hloose : ∀ k, ts.length ≤ k → ¬ Loose (ts ++ (o :: b ++ [c])) k := by
    intro k hk h
    -- a deepening token of the group stands between its ends
    have hlt := h.deepening.lt
    have hfirst := hpair.opening.ne h.deepening fun _ => Token.Opens.not_deepens
    have hlast := hpair.closing.ne h.deepening fun _ => Token.Closes.not_deepens
    simp only [List.length_append, List.length_cons, List.length_nil] at hlt
    exact h.outside _ _ hpair (by omega)
  unfold openDepth
  rw [places_append (fun k hk => hdetached.stillOpen hk) hstill,
    places_append (fun k hk => hdetached.loose hk) hloose]

/-- behind a closing bracket without a partner nothing counts yet -/
theorem openDepth_unmatched {c : Token} (h : Unmatched (ts ++ [c]) ts.length) :
    openDepth (ts ++ [c]) = 0 := by
  have hnone : ∀ k, k < (ts ++ [c]).length → ¬ Counts (ts ++ [c]) k := by
    intro k hk hcounts
    have hlt := hcounts _ h
    rw [List.length_append, List.length_singleton] at hk
    omega
  unfold openDepth
  rw [places_eq_zero fun k hk ho => hnone k hk ho.counts,
    places_eq_zero fun k hk hl => hnone k hk hl.counts]

end OpenDepth

/-! ### The depth that is kept -/

section Kept

variable {ts : List Token}

/-- the tokens end in an open bracket with paired ones behind it -/
def EndsOpen (ts : List Token) : Prop :=
  ∃ pre o b, ts = pre ++ o :: b ∧ o.Opens ∧ Balanced b

theorem opened_of_split {o : Token} {b : List Token} (ho : o.Opens) (hb : Balanced b)
    (pre : List Token) (n : Nesting) : ((pre ++ o :: b).foldl Nesting.step n).opened =
      (pre.foldl Nesting.step n).depth :: (pre.foldl Nesting.step n).opened := by
  rw [List.foldl_append, List.foldl_cons, hb.opened_foldl, step_of_opens ho]

/-- a bracket on the stack is one of the tokens, with paired brackets behind it -/
theorem endsOpen_of_opened (h : (ts.foldl Nesting.step {}).opened ≠ []) : EndsOpen ts := by
  induction hn : ts.length using Nat.strong_induction_on generalizing ts with
  | _ n ih =>
    subst hn
    rcases List.eq_nil_or_concat' ts with rfl | ⟨ts, t, rfl⟩
    · exact absurd rfl h
    · rw [List.foldl_append, List.foldl_cons, List.foldl_nil] at h
      have hshorter : ts.length < (ts ++ [t]).length := by
        rw [List.length_append, List.length_singleton]
        exact Nat.lt_succ_self _
      by_cases ho : t.Opens
      · exact ⟨ts, t, [], rfl, ho, .nil⟩
      · by_cases hc : t.Closes
        · -- the bracket that `t` closes has another open one in front of it
          have hts : (ts.foldl Nesting.step {}).opened ≠ [] := by
            intro hnil
            rw [step_of_unmatched hc hnil] at h
            exact h rfl
          obtain ⟨pre, o, b, rfl, hopen, hb⟩ := ih _ hshorter hts rfl
          rw [step_of_closes hc (opened_of_split hopen hb pre {})] at h
          have hpre : pre.length < (pre ++ o :: b ++ [t]).length := by
            simp only [List.length_append, List.length_cons]
            omega
          obtain ⟨pre, o', b', rfl, hopen', hb'⟩ := ih _ hpre h rfl
          exact ⟨pre, o', b' ++ (o :: b ++ [t]), by simp, hopen', hb'.append (.group hopen hc hb)⟩
        · rw [opened_step_of_plain ho hc] at h
          obtain ⟨pre, o, b, rfl, hopen, hb⟩ := ih _ hshorter h rfl
          exact ⟨pre, o, b ++ [t], by simp, hopen, hb.append (.plain ho hc)⟩

theorem endsOpen_of_paired {c : Token} {i : Nat} (h : Paired (ts ++ [c]) i ts.length) :
    EndsOpen ts := by
  obtain ⟨o, ho, hopening⟩ := (standsAt_append h.before).1 h.opening
  have hb := h.between
  rw [List.take_left' rfl] at hb
  refine ⟨ts.take i, o, ts.drop (i + 1), ?_, hopening, hb⟩
  obtain ⟨hi, rfl⟩ := List.getElem?_eq_some_iff.1 ho
  rw [← List.drop_eq_getElem_cons hi, List.take_append_drop]

/-- **The depth kept token by token is the open nesting.** -/
theorem depth_eq_openDepth (ts : List Token) :
    (ts.foldl Nesting.step {}).depth = openDepth ts := by
  induction hn : ts.length using Nat.strong_induction_on generalizing ts with
  | _ n ih =>
    subst hn
    rcases List.eq_nil_or_concat' ts with rfl | ⟨ts, t, rfl⟩
    · exact (Nat.add_zero _).symm
    · have hshorter : ts.length < (ts ++ [t]).length := by
        rw [List.length_append, List.length_singleton]
        exact Nat.lt_succ_self _
      by_cases hc : t.Closes
      · by_cases hopen : EndsOpen ts
        · -- the token ends a group
          obtain ⟨pre, o, b, rfl, ho, hb⟩ := hopen
          have hpre : pre.length < (pre ++ o :: b ++ [t]).length := by
            simp only [List.length_append, List.length_cons]
            omega
          rw [List.append_assoc, List.foldl_append, foldl_group ho hc hb, ih _ hpre pre rfl,
            openDepth_group ho hc hb]
        · have hempty : (ts.foldl Nesting.step {}).opened = [] := by
            by_contra h
            exact hopen (endsOpen_of_opened h)
          have hunmatched : Unmatched (ts ++ [t]) ts.length :=
            ⟨(standsAt_length t).2 hc, fun i hp => hopen (endsOpen_of_paired hp)⟩
          rw [List.foldl_append, List.foldl_cons, List.foldl_nil, openDepth_unmatched hunmatched,
            step_of_unmatched hc hempty]
      · rw [List.foldl_append, List.foldl_cons, List.foldl_nil, depth_step hc,
          ih _ hshorter ts rfl, openDepth_concat hc]

end Kept

/-! ### The check -/

/-- A complete group: an opening bracket, paired brackets and a closing bracket. -/
def IsGroup (g : List Token) : Prop :=
  ∃ o b c, g = o :: b ++ [c] ∧ o.Opens ∧ c.Closes ∧ Balanced b

/-- The tokens are within both bounds, the depth at every one of them. -/
structure IsBounded (ts : List Token) : Prop where
  few : ts.length ≤ 2048
  flat : ∀ pre, pre <+: ts → openDepth pre ≤ 64

/-- the last one of the tokens exceeds a bound, and it is the number of tokens if it exceeds both -/
inductive Exceeds (ts : List Token) : Excess → Prop
  | tooLong : 2048 < ts.length → Exceeds ts .tooLong
  | tooDeep : ts.length ≤ 2048 → 64 < openDepth ts → Exceeds ts .tooDeep

theorem keepsBounds_iff {ts : List Token} : KeepsBounds ts ↔ IsBounded ts := by
  constructor
  · rintro ⟨hfew, hflat⟩
    exact ⟨hfew, fun pre hpre => depth_eq_openDepth pre ▸ hflat pre hpre⟩
  · rintro ⟨hfew, hflat⟩
    exact ⟨hfew, fun pre hpre => (depth_eq_openDepth pre).symm ▸ hflat pre hpre⟩

theorem foldl_groups {gs : List (List Token)} (h : ∀ g ∈ gs, IsGroup g) (n : Nesting) :
    gs.flatten.foldl Nesting.step n = n := by
  induction gs with
  | nil => rfl
  | cons g gs ih =>
    obtain ⟨⟨o, b, c, rfl, ho, hc, hb⟩, hgs⟩ := List.forall_mem_cons.1 h
    rw [List.flatten_cons, List.foldl_append, foldl_group ho hc hb, ih hgs]

/-- One more token exceeds a bound, or a later one does. -/
theorem checkNestingFrom_cons_eq_error {l : Lexeme} {ls : List Lexeme} {index : Nat} {n : Nesting}
    {start : Nat} {e : Excess} :
    checkNestingFrom index n (l :: ls) = .error (start, e) ↔
      start = l.start ∧ (e = .tooLong ∧ maxTokens ≤ index ∨
        e = .tooDeep ∧ index < maxTokens ∧ maxDepth < (n.step l.token).depth) ∨
      (index < maxTokens ∧ (n.step l.token).depth ≤ maxDepth) ∧
        checkNestingFrom (index + 1) (n.step l.token) ls = .error (start, e) := by
  rw [checkNestingFrom]
  by_cases hfull : maxTokens ≤ index
  · simp [hfull, Nat.not_lt.2 hfull, eq_comm]
  · have hfew := Nat.lt_of_not_le hfull
    by_cases hdeep : maxDepth < (n.step l.token).depth
    · simp [hfull, hfew, hdeep, Nat.not_le.2 hdeep, eq_comm]
    · simp [hfull, hfew, hdeep, Nat.le_of_not_lt hdeep]

/-- the check ends with an error at the first token that exceeds a bound -/
theorem checkNestingFrom_eq_error {ls : List Lexeme} {index : Nat} {n : Nesting} {start : Nat}
    {e : Excess} :
    checkNestingFrom index n ls = .error (start, e) ↔
      ∃ before l after, ls = before ++ l :: after ∧ start = l.start ∧
        checkNestingFrom index n before = .ok () ∧
        (e = .tooLong ∧ maxTokens ≤ index + before.length ∨
          e = .tooDeep ∧ index + before.length < maxTokens ∧
            maxDepth < (((before ++ [l]).map (·.token)).foldl Nesting.step n).depth) := by
  induction ls generalizing index n with
  | nil => simp [checkNestingFrom]
  | cons l ls ih =>
    have hlength : ∀ before : List Lexeme,
        index + 1 + before.length = index + (l :: before).length := by
      intro before
      rw [List.length_cons]
      omega
    rw [checkNestingFrom_cons_eq_error, ih]
    constructor
    · rintro (⟨hstart, hexcess⟩ | ⟨hkeeps, before, m, after, rfl, hstart, hok, hexcess⟩)
      · exact ⟨[], l, ls, rfl, hstart, rfl, hexcess⟩
      · rw [hlength] at hexcess
        exact ⟨l :: before, m, after, rfl, hstart, checkNestingFrom_cons_eq_ok.2 ⟨hkeeps, hok⟩,
          hexcess⟩
    · rintro ⟨before, m, after, hls, hstart, hok, hexcess⟩
      cases before with
      | nil =>
        cases hls
        exact .inl ⟨hstart, hexcess⟩
      | cons k before =>
        cases hls
        obtain ⟨hkeeps, hok⟩ := checkNestingFrom_cons_eq_ok.1 hok
        rw [← hlength] at hexcess
        exact .inr ⟨hkeeps, before, m, after, rfl, hstart, hok, hexcess⟩

/-- **The check on nesting.**  The depth kept token by token is the open nesting, and groups, one
after the other and whatever they hold, leave it and the stack as they were.  The check accepts what
is within both bounds at every token; otherwise it reports where the first token stands that is
not, and which bound that token exceeds. -/
theorem checkNesting_exact :
    (∀ ts : List Token, (ts.foldl Nesting.step {}).depth = openDepth ts) ∧
    (∀ gs : List (List Token), (∀ g ∈ gs, IsGroup g) → ∀ n, gs.flatten.foldl Nesting.step n = n) ∧
    ∀ ls : List Lexeme,
      (checkNesting ls = .ok () ↔ IsBounded (ls.map (·.token))) ∧
      ∀ start e, checkNesting ls = .error (start, e) ↔
        ∃ before l after, ls = before ++ l :: after ∧ start = l.start ∧
          IsBounded (before.map (·.token)) ∧ Exceeds ((before ++ [l]).map (·.token)) e := by
  refine ⟨depth_eq_openDepth, fun gs h n => foldl_groups h n, fun ls => ⟨?_, fun start e => ?_⟩⟩
  · rw [checkNesting_eq_ok, keepsBounds_iff]
  · unfold checkNesting
    rw [checkNestingFrom_eq_error]
    refine exists_congr fun before => exists_congr fun l => exists_congr fun after =>
      and_congr_right fun _ => and_congr_right fun _ => ?_
    rw [← keepsBounds_iff, ← checkNesting_eq_ok]
    refine and_congr_right fun _ => ?_
    have htokens : maxTokens = 2048 := rfl
    have hdepth : maxDepth = 64 := rfl
    rw [depth_eq_openDepth, htokens, hdepth]
    have hlength : ((before ++ [l]).map (·.token)).length = before.length + 1 := by simp
    constructor
    · rintro (⟨rfl, hfull⟩ | ⟨rfl, hfew, hdeep⟩)
      · exact .tooLong (by omega)
      · exact .tooDeep (by omega) hdeep
    · rintro (hfull | ⟨hfew, hdeep⟩)
      · exact Or.inl ⟨rfl, by omega⟩
      · exact Or.inr ⟨rfl, by omega, hdeep⟩

end PageQuery.Script
