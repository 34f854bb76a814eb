import Mathlib.Data.List.Nodup
import PageQuery.Field.ValuesList
import PageQuery.Proofs.NumberTexts
import PageQuery.Proofs.StableSort

/-!
# The order of listed values

`IsIndex key n`: the key is the decimal text of `n`, and `n` is an array index.

`InScriptOrder members indexed named`: the members in the order of a script, those with an index by
ascending index and then the others as they stand.  Members with different keys have such an order
and only one (`exists_inScriptOrder`, `InScriptOrder.candidates_eq`), and their values are listed in
it: `candidates_order`.
-/

namespace PageQuery

/-! ### Texts of whole numbers -/

namespace Number

theorem digitChar_of_isDigit {c : Char} (h : c.isDigit = true) :
    Nat.digitChar (c.toNat - '0'.toNat) = c ∧ c.toNat - '0'.toNat < 10 :=
  @forall_ascii (fun c => c.isDigit = true →
    Nat.digitChar (c.toNat - '0'.toNat) = c ∧ c.toNat - '0'.toNat < 10) (by decide) c
    (lt_128_of_isDigit h) h

/-- further digits behind those of a number above zero -/
theorem digitChars_ofDigitChars {n : Nat} (hn : 0 < n) {cs : List Char}
    (h : ∀ c ∈ cs, c.isDigit = true) : digitChars (Nat.ofDigitChars 10 cs n) = digitChars n ++ cs := by
  induction cs generalizing n with
  | nil => simp
  | cons c cs ih =>
    obtain ⟨hc, hcs⟩ := List.forall_mem_cons.1 h
    obtain ⟨hchar, hlt⟩ := digitChar_of_isDigit hc
    have happend : digitChars n ++ [c] = digitChars (10 * n + (c.toNat - '0'.toNat)) := by
      unfold digitChars
      rw [← Nat.toDigits_append_toDigits (by decide) hn hlt, Nat.toDigits_of_lt_base hlt, hchar]
    rw [Nat.ofDigitChars_cons, ih (by omega) hcs, ← happend, List.append_assoc]
    rfl

/-- The digits of a whole number are those of its value. -/
theorem IsWhole.eq_digitChars {cs : List Char} (h : IsWhole cs) :
    digitChars (Nat.ofDigitChars 10 cs 0) = cs := by
  obtain ⟨hdigits, hzero⟩ := h
  obtain ⟨hne, hall⟩ := isDigits_iff.1 hdigits
  obtain ⟨c, cs, rfl⟩ := List.exists_cons_of_ne_nil hne
  obtain ⟨hc, hcs⟩ := List.forall_mem_cons.1 hall
  obtain ⟨hchar, hlt⟩ := digitChar_of_isDigit hc
  by_cases hc0 : c = '0'
  · subst hc0
    obtain ⟨-, rfl⟩ := List.cons.inj (hzero rfl)
    rfl
  · have hpos : 0 < c.toNat - '0'.toNat := by
      refine Nat.pos_of_ne_zero fun h0 => hc0 ?_
      rw [← hchar, h0]
      rfl
    have hfirst : digitChars (c.toNat - '0'.toNat) = [c] := by
      unfold digitChars
      rw [Nat.toDigits_of_lt_base hlt, hchar]
    rw [Nat.ofDigitChars_cons, Nat.mul_zero, Nat.zero_add, digitChars_ofDigitChars hpos hcs, hfirst]
    rfl

end Number

namespace ValuesList

open Number

/-! ### Array indices -/

/-- the key is an array index: the decimal text of a number below the greatest one of 32 bits -/
def IsIndex (key : String) (n : Nat) : Prop := key = toString n ∧ n < 2 ^ 32 - 1

/-- no zero in front of other digits, as it is checked -/
theorem isWhole_iff {cs : List Char} :
    IsWhole cs ↔ ¬ (cs.isEmpty || !cs.all Char.isDigit) = true ∧
      ¬ (decide (1 < cs.length) && cs.head? == some '0') = true := by
  have hdigits : cs ≠ [] ∧ (∀ c ∈ cs, c.isDigit = true) ↔
      ¬ (cs.isEmpty || !cs.all Char.isDigit) = true := by
    simp
  rw [IsWhole, isDigits_iff, hdigits]
  refine and_congr_right fun hne => ?_
  cases cs with
  | nil => simp at hne
  | cons c cs => cases cs <;> simp

theorem arrayIndex?_eq_some_iff_isWhole {key : String} {n : Nat} :
    arrayIndex? key = some n ↔
      IsWhole key.toList ∧ Nat.ofDigitChars 10 key.toList 0 = n ∧ n < 2 ^ 32 - 1 := by
  have hvalue : key.toList.foldl (fun n c => n * 10 + (c.toNat - '0'.toNat)) 0 =
      Nat.ofDigitChars 10 key.toList 0 := by
    rw [Nat.ofDigitChars_eq_foldl]
    simp only [Nat.mul_comm 10]
  unfold arrayIndex?
  dsimp only
  rw [hvalue, isWhole_iff]
  generalize Nat.ofDigitChars 10 key.toList 0 = v
  split
  · rename_i hdigits
    simp [hdigits]
  · rename_i hdigits
    split
    · rename_i hzero
      simp [hzero]
    · rename_i hzero
      rw [and_iff_right (And.intro hdigits hzero), Nat.pow_eq]
      split
      · rename_i hlt
        simp only [Option.some.injEq, iff_self_and]
        rintro rfl
        exact hlt
      · rename_i hge
        simp only [reduceCtorEq, false_iff]
        rintro ⟨rfl, hlt⟩
        exact hge hlt

/-- The key of an index is its decimal text. -/
theorem arrayIndex?_eq_some {key : String} {n : Nat} : arrayIndex? key = some n ↔ IsIndex key n := by
  rw [arrayIndex?_eq_some_iff_isWhole]
  constructor
  · rintro ⟨hwhole, rfl, hlt⟩
    refine ⟨?_, hlt⟩
    rw [Nat.toString_eq_ofList_toDigits]
    exact String.ofList_toList.symm.trans (congrArg String.ofList hwhole.eq_digitChars.symm)
  · rintro ⟨rfl, hlt⟩
    rw [Nat.toString_eq_ofList_toDigits, String.toList_ofList]
    exact ⟨isWhole_digitChars n, Nat.ofDigitChars_ten_toDigits, hlt⟩

theorem arrayIndex?_eq_none {key : String} : arrayIndex? key = none ↔ ∀ n, ¬ IsIndex key n := by
  simp only [Option.eq_none_iff_forall_ne_some, ne_eq, arrayIndex?_eq_some]

/-! ### The order -/

theorem pairwise_le_mergeSort {α : Type} (f : α → Nat) (l : List α) :
    (l.mergeSort fun a b => f a ≤ f b).Pairwise fun a b => f a ≤ f b := by
  have hpre : Sorting.IsPreorder fun a b : α => decide (f a ≤ f b) := by
    constructor
    · intro a b c hab hbc
      exact decide_eq_true ((of_decide_eq_true hab).trans (of_decide_eq_true hbc))
    · intro a b
      simpa using Nat.le_total (f a) (f b)
  exact (hpre.sorted l).imp fun hab => of_decide_eq_true hab

/-- the members of an object in the order of a script: first those whose key is an array index, by
ascending index, and then the others in the order they stand in -/
structure InScriptOrder (members indexed named : List (String × Json)) : Prop where
  perm : (indexed ++ named).Perm members
  indices : ∀ m ∈ indexed, ∃ n, IsIndex m.1 n
  ascending : indexed.Pairwise fun a b => ∀ i j, IsIndex a.1 i → IsIndex b.1 j → i < j
  names : ∀ m ∈ named, ∀ n, ¬ IsIndex m.1 n
  standing : named.Sublist members

/-- a member's index with its value -/
def indexedValue? (m : String × Json) : Option (Nat × Json) := (arrayIndex? m.1).map fun i => (i, m.2)

theorem indexedValue?_eq_some {m : String × Json} {e : Nat × Json} :
    indexedValue? m = some e ↔ IsIndex m.1 e.1 ∧ m.2 = e.2 := by
  unfold indexedValue?
  simp only [Option.map_eq_some_iff, arrayIndex?_eq_some, Prod.ext_iff]
  grind

theorem named_eq_filter (members : List (String × Json)) :
    ValuesList.named members =
      (members.filter fun m => (arrayIndex? m.1).isNone).map (·.2) := by
  unfold ValuesList.named
  induction members with
  | nil => rfl
  | cons m ms ih =>
    rw [List.filterMap_cons, List.filter_cons, ih]
    cases arrayIndex? m.1 <;> rfl

namespace InScriptOrder

variable {members indexed named : List (String × Json)}

theorem filterMap_named (h : InScriptOrder members indexed named) :
    named.filterMap indexedValue? = [] := by
  rw [List.filterMap_eq_nil_iff]
  intro m hm
  rw [indexedValue?, arrayIndex?_eq_none.2 (h.names m hm)]
  rfl

theorem pairwise_entries (h : InScriptOrder members indexed named) :
    (indexed.filterMap indexedValue?).Pairwise fun a b => a.1 < b.1 := by
  refine h.ascending.filterMap _ fun a b hab e he e' he' => ?_
  exact hab _ _ (indexedValue?_eq_some.1 he).1 (indexedValue?_eq_some.1 he').1

/-- sorting the entries gives the indexed members -/
theorem indexed_eq (h : InScriptOrder members indexed named) :
    ValuesList.indexed members = indexed.filterMap indexedValue? := by
  have hperm : (ValuesList.indexed members).Perm (indexed.filterMap indexedValue?) := by
    refine (List.mergeSort_perm _ _).trans ?_
    have hall := (h.perm.filterMap indexedValue?).symm
    rwa [List.filterMap_append, h.filterMap_named, List.append_nil] at hall
  have hsorted : (ValuesList.indexed members).Pairwise fun a b => a.1 ≤ b.1 :=
    pairwise_le_mergeSort (fun e : Nat × Json => e.1) _
  have hnodup : ((indexed.filterMap indexedValue?).map (·.1)).Nodup :=
    List.pairwise_map.2 (h.pairwise_entries.imp Nat.ne_of_lt)
  refine hperm.eq_of_pairwise (fun a b ha hb hab hba => ?_) hsorted
    (h.pairwise_entries.imp Nat.le_of_lt)
  exact List.inj_on_of_nodup_map hnodup (hperm.mem_iff.1 ha) hb (Nat.le_antisymm hab hba)

theorem named_eq (h : InScriptOrder members indexed named) :
    ValuesList.named members = named.map (·.2) := by
  have hkeep : members.filter (fun m => (arrayIndex? m.1).isNone) = named := by
    have hnamed : named.filter (fun m => (arrayIndex? m.1).isNone) = named := by
      rw [List.filter_eq_self]
      intro m hm
      rw [arrayIndex?_eq_none.2 (h.names m hm)]
      rfl
    have hindexed : indexed.filter (fun m => (arrayIndex? m.1).isNone) = [] := by
      rw [List.filter_eq_nil_iff]
      intro m hm
      obtain ⟨n, hn⟩ := h.indices m hm
      simp [arrayIndex?_eq_some.2 hn]
    have hlength := (h.perm.filter fun m => (arrayIndex? m.1).isNone).length_eq
    rw [List.filter_append, hindexed, hnamed, List.nil_append] at hlength
    have hsub := h.standing.filter fun m => (arrayIndex? m.1).isNone
    rw [hnamed] at hsub
    exact (hsub.eq_of_length hlength).symm
  rw [named_eq_filter, hkeep]

/-- the values are listed in the order of a script -/
theorem candidates_eq (h : InScriptOrder members indexed named) :
    candidates members = (indexed ++ named).map fun m => candidate m.2 := by
  have hvalues : (indexed.filterMap indexedValue?).map (·.2) = indexed.map (·.2) := by
    rw [List.map_filterMap, ← List.filterMap_eq_map]
    refine List.filterMap_congr fun m hm => ?_
    obtain ⟨n, hn⟩ := h.indices m hm
    have hentry : indexedValue? m = some (n, m.2) := indexedValue?_eq_some.2 ⟨hn, rfl⟩
    rw [hentry]
    rfl
  rw [candidates, h.indexed_eq, h.named_eq, hvalues, ← List.map_append, List.map_map]
  rfl

end InScriptOrder

/-- Members with different keys have an order. -/
theorem exists_inScriptOrder {members : List (String × Json)}
    (hkeys : (members.map (·.1)).Nodup) :
    ∃ indexed named, InScriptOrder members indexed named := by
  let index := fun m : String × Json => (arrayIndex? m.1).getD 0
  let kept := members.filter fun m => (arrayIndex? m.1).isSome
  let sorted := kept.mergeSort fun a b => index a ≤ index b
  have hindex : ∀ {m : String × Json} {n}, IsIndex m.1 n → index m = n := by
    intro m n hn
    show (arrayIndex? m.1).getD 0 = n
    rw [arrayIndex?_eq_some.2 hn]
    rfl
  have hmem : ∀ m ∈ sorted, ∃ n, IsIndex m.1 n := by
    intro m hm
    have hm := (List.mem_filter.1 (List.mem_mergeSort.1 hm)).2
    obtain ⟨n, hn⟩ := Option.isSome_iff_exists.1 hm
    exact ⟨n, arrayIndex?_eq_some.1 hn⟩
  refine ⟨sorted, members.filter fun m => !(arrayIndex? m.1).isSome, ?_⟩
  constructor
  case perm =>
    exact ((List.mergeSort_perm _ _).append_right _).trans (List.filter_append_perm _ members)
  case indices => exact hmem
  case ascending =>
    have hdistinct : (sorted.map (·.1)).Nodup := by
      rw [((List.mergeSort_perm kept _).map (·.1)).nodup_iff]
      exact hkeys.sublist (List.filter_sublist.map _)
    refine ((pairwise_le_mergeSort index kept).and (List.pairwise_map.1 hdistinct)).imp
      fun {a b} hab i j hi hj => ?_
    rw [hindex hi, hindex hj] at hab
    refine Nat.lt_of_le_of_ne hab.1 ?_
    rintro rfl
    exact hab.2 (hi.1.trans hj.1.symm)
  case names =>
    intro m hm n hn
    have hm := (List.mem_filter.1 hm).2
    rw [arrayIndex?_eq_some.2 hn] at hm
    cases hm
  case standing => exact List.filter_sublist

/-! ### Texts of values -/

/-- the text by which a value is listed: a string's own, and the JSON text of anything else -/
inductive IsListedAs : Json → String → Prop
  | string (s : String) : IsListedAs (.string s) s
  | other {v : Json} : (∀ s, v ≠ .string s) → IsListedAs v v.compact

theorem isListedAs_candidate (v : Json) : IsListedAs v (candidate v) := by
  cases v with
  | string s => exact .string s
  | _ => exact .other nofun

/-- **The order of listed values.**  The members of an object have an order in a script, and the values
are listed in it, one text for each member.  A key is an array index exactly if it is the decimal
text of one. -/
theorem candidates_order {members : List (String × Json)} (hkeys : (members.map (·.1)).Nodup) :
    (∃ indexed named, InScriptOrder members indexed named) ∧
    (∀ indexed named, InScriptOrder members indexed named →
      List.Forall₂ (fun m text => IsListedAs m.2 text) (indexed ++ named) (candidates members)) ∧
    ∀ key n, arrayIndex? key = some n ↔ IsIndex key n := by
  refine ⟨exists_inScriptOrder hkeys, fun indexed named horder => ?_,
    fun key n => arrayIndex?_eq_some⟩
  rw [horder.candidates_eq, List.forall₂_map_right_iff, List.forall₂_same]
  exact fun m _ => isListedAs_candidate m.2

/-- members with keys at the bounds of what is an index, and keys that look like one -/
def mixedMembers : List (String × Json) :=
  [("b", .string "x"), ("10", .number (.integer 5)), ("4294967294", .string "last"),
    ("4294967295", .bool true), ("01", .null), ("2", .string "two"), ("", .string "e"),
    ("٣", .array [.string "q", .null])]

theorem candidates_of_mixedMembers :
    (mixedMembers.map (·.1)).Nodup ∧
    candidates mixedMembers = ["two", "5", "last", "x", "true", "null", "e", "[\"q\",null]"] ∧
    ∃ indexed named, InScriptOrder mixedMembers indexed named ∧
      List.Forall₂ (fun m text => IsListedAs m.2 text) (indexed ++ named)
        (candidates mixedMembers) := by
  have hkeys : (mixedMembers.map (·.1)).Nodup := by decide
  have hentries : mixedMembers.filterMap indexedValue? =
      [(10, .number (.integer 5)), (4294967294, .string "last"), (2, .string "two")] := rfl
  have hindexed : ValuesList.indexed mixedMembers =
      [(2, .string "two"), (10, .number (.integer 5)), (4294967294, .string "last")] := by
    show (mixedMembers.filterMap indexedValue?).mergeSort _ = _
    rw [hentries]
    simp [List.mergeSort, List.MergeSort.Internal.splitInTwo]
  have htexts : candidates mixedMembers =
      ["two", "5", "last", "x", "true", "null", "e", "[\"q\",null]"] := by
    rw [candidates, hindexed]
    decide +kernel
  obtain ⟨⟨indexed, named, horder⟩, hlisted, -⟩ := candidates_order hkeys
  exact ⟨hkeys, htexts, indexed, named, horder, hlisted _ _ horder⟩

end ValuesList

end PageQuery
