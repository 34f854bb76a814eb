import Mathlib.Logic.Function.Basic
import PageQuery.Query.Clauses
import PageQuery.Proofs.StableSort

/-!
# Sorting by the keys of a query

Pages compare by the keys of a list one after the other, the first one most significant.  Only the
`leading` keys matter, the first one of each field (`byKeys_leading`), and all of them do: lists
with different leading keys sort some pages differently (`exists_told_apart`).
-/

namespace PageQuery

open Sorting

/-- how pages compare by their fields -/
structure FieldOrders (Page : Type) where
  le : String → Page → Page → Bool
  preorder : ∀ field, IsPreorder (le field)

namespace FieldOrders

variable {Page : Type}

/-- how pages compare by a key -/
def byKey (o : FieldOrders Page) (k : SortKey) (x y : Page) : Bool :=
  match k.direction with
  | .ascending => o.le k.field x y
  | .descending => o.le k.field y x

/-- how pages compare by keys, the first one most significant -/
def byKeys (o : FieldOrders Page) : List SortKey → Page → Page → Bool
  | [] => fun _ _ => true
  | k :: ks => thenBy (o.byKey k) (o.byKeys ks)

@[simp] theorem byKey_ascending (o : FieldOrders Page) (f : String) :
    o.byKey ⟨f, .ascending⟩ = o.le f := rfl

@[simp] theorem byKey_descending (o : FieldOrders Page) (f : String) :
    o.byKey ⟨f, .descending⟩ = fun x y => o.le f y x := rfl

theorem byKey_preorder (o : FieldOrders Page) (k : SortKey) : IsPreorder (o.byKey k) := by
  obtain ⟨f, _ | _⟩ := k
  · exact o.preorder f
  · exact (o.preorder f).flip

theorem byKeys_preorder (o : FieldOrders Page) (ks : List SortKey) : IsPreorder (o.byKeys ks) := by
  induction ks with
  | nil => exact .trivial
  | cons k ks ih => exact (o.byKey_preorder k).thenBy ih

theorem byKeys_cons_of_tied {o : FieldOrders Page} {k : SortKey} {x y : Page}
    (hxy : o.byKey k x y = true) (hyx : o.byKey k y x = true) (ks : List SortKey) :
    o.byKeys (k :: ks) x y = o.byKeys ks x y := by
  simp [byKeys, thenBy, hxy, hyx]

theorem byKeys_cons_of_not_tied {o : FieldOrders Page} {k : SortKey} {x y : Page}
    (h : o.byKey k y x = false) (ks : List SortKey) :
    o.byKeys (k :: ks) x y = o.byKey k x y := by
  simp [byKeys, thenBy, h]

end FieldOrders

/-! ### Leading keys -/

/-- the first key of each field -/
def leading : List SortKey → List SortKey
  | [] => []
  | k :: ks => k :: (leading ks).filter (·.field ≠ k.field)

theorem leading_nodup (ks : List SortKey) : ((leading ks).map (·.field)).Nodup := by
  induction ks with
  | nil => exact List.nodup_nil
  | cons k ks ih =>
    refine List.nodup_cons.2 ⟨?_, ih.sublist (List.filter_sublist.map _)⟩
    intro hk
    obtain ⟨j, hj, hjk⟩ := List.mem_map.1 hk
    have hne := (List.mem_filter.1 hj).2
    simp [hjk] at hne

namespace FieldOrders

variable {Page : Type}

/-- keys of a field that ties can be left out -/
theorem byKeys_filter {o : FieldOrders Page} {field : String} {x y : Page}
    (hxy : o.le field x y = true) (hyx : o.le field y x = true) (ks : List SortKey) :
    o.byKeys (ks.filter (·.field ≠ field)) x y = o.byKeys ks x y := by
  induction ks with
  | nil => rfl
  | cons k ks ih =>
    by_cases hk : k.field = field
    · have htied : o.byKey k x y = true ∧ o.byKey k y x = true := by
        unfold byKey
        cases k.direction with
        | ascending => exact hk ▸ ⟨hxy, hyx⟩
        | descending => exact hk ▸ ⟨hyx, hxy⟩
      rw [List.filter_cons_of_neg (by simpa using hk), ih, byKeys_cons_of_tied htied.1 htied.2]
    · rw [List.filter_cons_of_pos (by simpa using hk)]
      simp only [byKeys, thenBy]
      rw [ih]

theorem byKeys_leading (o : FieldOrders Page) (ks : List SortKey) :
    o.byKeys (leading ks) = o.byKeys ks := by
  induction ks with
  | nil => rfl
  | cons k ks ih =>
    funext x y
    unfold leading
    cases hyx : o.byKey k y x with
    | false => rw [byKeys_cons_of_not_tied hyx, byKeys_cons_of_not_tied hyx]
    | true =>
      cases hxy : o.byKey k x y with
      | false => simp [byKeys, thenBy, hxy]
      | true =>
        rw [byKeys_cons_of_tied hxy hyx, byKeys_cons_of_tied hxy hyx, ← ih]
        unfold byKey at hxy hyx
        cases hd : k.direction <;> simp only [hd] at hxy hyx
        · exact byKeys_filter hxy hyx _
        · exact byKeys_filter hyx hxy _

theorem byKeys_eq_of_leading {ks ks' : List SortKey} (h : leading ks = leading ks')
    (o : FieldOrders Page) : o.byKeys ks = o.byKeys ks' := by
  rw [← byKeys_leading, h, byKeys_leading]

/-! ### One marked page -/

/-- the marked page is `true`: its fields have these values, and those of all other pages are 0 -/
def ofMark (value : String → Int) : FieldOrders Bool where
  le f x y := decide ((if x then value f else 0) ≤ (if y then value f else 0))
  preorder f := by
    constructor
    · intro a b c hab hbc
      simp only [decide_eq_true_eq] at hab hbc ⊢
      omega
    · intro a b
      simp only [Bool.or_eq_true, decide_eq_true_eq]
      omega

/-- a value that puts the marked page first -/
def frontValue (k : SortKey) : Int :=
  match k.direction with
  | .ascending => -1
  | .descending => 1

theorem byKeys_cons_of_value_eq_zero {value : String → Int} {k : SortKey}
    (h : value k.field = 0) (ks : List SortKey) :
    (ofMark value).byKeys (k :: ks) = (ofMark value).byKeys ks := by
  funext x y
  refine byKeys_cons_of_tied ?_ ?_ ks
  · unfold byKey
    cases k.direction <;> simp [ofMark, h]
  · unfold byKey
    cases k.direction <;> simp [ofMark, h]

theorem byKeys_cons_of_front {value : String → Int} {k : SortKey}
    (h : value k.field = frontValue k) (ks : List SortKey) :
    (ofMark value).byKeys (k :: ks) true false = true ∧
      (ofMark value).byKeys (k :: ks) false true = false := by
  unfold frontValue at h
  unfold byKeys thenBy byKey
  cases hd : k.direction <;> simp [ofMark, h, hd]

theorem byKeys_cons_of_back {value : String → Int} {k : SortKey}
    (h : value k.field = -frontValue k) (ks : List SortKey) :
    (ofMark value).byKeys (k :: ks) false true = true ∧
      (ofMark value).byKeys (k :: ks) true false = false := by
  unfold frontValue at h
  unfold byKeys thenBy byKey
  cases hd : k.direction <;> simp [ofMark, h, hd]

/-- the marked page can stand first by the keys `g` and last by the keys `h`, and is not tied by
both of them -/
def Divides (value : String → Int) (g h : List SortKey) : Prop :=
  (ofMark value).byKeys g true false = true ∧ (ofMark value).byKeys h false true = true ∧
    ((ofMark value).byKeys g false true = false ∨ (ofMark value).byKeys h true false = false)

/-- no field but those of the keys has a value -/
def IsValued (value : String → Int) (ks : List SortKey) : Prop :=
  ∀ f, value f ≠ 0 → f ∈ ks.map (·.field)

theorem isValued_zero (ks : List SortKey) : IsValued (fun _ => 0) ks :=
  fun _ h => absurd rfl h

theorem IsValued.mono {value : String → Int} {ks ks' : List SortKey} (h : IsValued value ks)
    (hs : ks ⊆ ks') : IsValued value ks' :=
  fun f hf => List.map_subset _ hs (h f hf)

theorem IsValued.update {value : String → Int} {ks : List SortKey} (h : IsValued value ks)
    {k : SortKey} (hk : k ∈ ks) (n : Int) : IsValued (Function.update value k.field n) ks := by
  intro f hf
  by_cases hfk : f = k.field
  · rw [hfk]
    exact List.mem_map_of_mem hk
  · rw [Function.update_of_ne hfk] at hf
    exact h f hf

/-- the marked page comes first by the key -/
def setFront (k : SortKey) (value : String → Int) : String → Int :=
  Function.update value k.field (frontValue k)

/-- the marked page comes last by the key -/
def setBack (k : SortKey) (value : String → Int) : String → Int :=
  Function.update value k.field (-frontValue k)

theorem setFront_self (k : SortKey) (value : String → Int) :
    setFront k value k.field = frontValue k :=
  Function.update_self ..

theorem setBack_self (k : SortKey) (value : String → Int) :
    setBack k value k.field = -frontValue k :=
  Function.update_self ..

theorem divides_of_field_ne {a b : SortKey} (hab : a.field ≠ b.field) (g h : List SortKey) :
    Divides (setFront a (setBack b fun _ => 0)) (a :: g) (b :: h) := by
  have ha := byKeys_cons_of_front (setFront_self a (setBack b fun _ => 0)) g
  have hb : setFront a (setBack b fun _ => 0) b.field = -frontValue b := by
    unfold setFront
    rw [Function.update_of_ne (Ne.symm hab), setBack_self]
  exact ⟨ha.1, (byKeys_cons_of_back hb h).1, Or.inl ha.2⟩

theorem divides_of_direction_ne {a b : SortKey} (hab : a.field = b.field) (hne : a ≠ b)
    (g h : List SortKey) : Divides (setFront a fun _ => 0) (a :: g) (b :: h) := by
  have ha := byKeys_cons_of_front (setFront_self a fun _ => 0) g
  have hb : setFront a (fun _ => 0) b.field = -frontValue b := by
    rw [← hab, setFront_self]
    obtain ⟨f, d⟩ := a
    obtain ⟨f', d'⟩ := b
    cases d <;> cases d' <;> simp_all [frontValue]
  exact ⟨ha.1, (byKeys_cons_of_back hb h).1, Or.inl ha.2⟩

theorem exists_divides_of_nodup {g h : List SortKey} (hg : (g.map (·.field)).Nodup)
    (hh : (h.map (·.field)).Nodup) (hne : g ≠ h) :
    ∃ value, IsValued value (g ++ h) ∧ Divides value g h := by
  induction g generalizing h with
  | nil =>
    cases h with
    | nil => exact absurd rfl hne
    | cons b h =>
      have hb := byKeys_cons_of_back (setBack_self b fun _ => 0) h
      exact ⟨_, (isValued_zero _).update (by simp) _, rfl, hb.1, Or.inr hb.2⟩
  | cons a g ih =>
    cases h with
    | nil =>
      have ha := byKeys_cons_of_front (setFront_self a fun _ => 0) g
      exact ⟨_, (isValued_zero _).update (by simp) _, ha.1, rfl, Or.inl ha.2⟩
    | cons b h =>
      by_cases hfield : a.field = b.field
      · by_cases hab : a = b
        · subst hab
          obtain ⟨hag, hg⟩ := List.nodup_cons.1 hg
          obtain ⟨hah, hh⟩ := List.nodup_cons.1 hh
          obtain ⟨value, hvalued, hdivides⟩ := ih hg hh fun h => hne (h ▸ rfl)
          have ha : value a.field = 0 := by
            by_contra hn
            have hmem := hvalued _ hn
            rw [List.map_append, List.mem_append] at hmem
            exact hmem.elim hag hah
          refine ⟨value, hvalued.mono (List.append_subset.2 ⟨?_, ?_⟩), ?_⟩
          · exact fun k hk => List.mem_append_left _ (List.mem_cons_of_mem a hk)
          · exact fun k hk => List.mem_append_right _ (List.mem_cons_of_mem a hk)
          · unfold Divides
            rw [byKeys_cons_of_value_eq_zero ha, byKeys_cons_of_value_eq_zero ha]
            exact hdivides
        · exact ⟨_, (isValued_zero _).update (by simp) _, divides_of_direction_ne hfield hab g h⟩
      · exact ⟨_, ((isValued_zero _).update (by simp) _).update (by simp) _,
          divides_of_field_ne hfield g h⟩

theorem exists_divides {g h : List SortKey} (hne : leading g ≠ leading h) :
    ∃ value, Divides value g h := by
  obtain ⟨value, -, hd⟩ := exists_divides_of_nodup (leading_nodup g) (leading_nodup h) hne
  unfold Divides at hd
  rw [byKeys_leading, byKeys_leading] at hd
  exact ⟨value, hd⟩

/-! ### Lists with one marked page -/

/-- nothing else is left to a sorting that does not tie the marked page with the others -/
theorem mergeSort_eq_of_strict {le : Bool → Bool → Bool} (h : IsPreorder le) {l m : List Bool}
    (hm : m.Pairwise (le · ·)) (hp : l.Perm m)
    (hs : le true false = false ∨ le false true = false) : l.mergeSort le = m := by
  refine List.Perm.eq_of_pairwise ?_ (h.sorted l) hm ((List.mergeSort_perm l le).trans hp)
  intro a b _ _ hab hba
  cases a <;> cases b <;> simp_all

theorem pairwise_marked_first {le : Bool → Bool → Bool} (h : IsPreorder le)
    (hle : le true false = true) (n : Nat) :
    (true :: List.replicate n false).Pairwise (le · ·) := by
  refine List.pairwise_cons.2 ⟨?_, List.pairwise_replicate.2 (Or.inr (h.refl false))⟩
  intro b hb
  rw [List.eq_of_mem_replicate hb]
  exact hle

theorem pairwise_marked_last {le : Bool → Bool → Bool} (h : IsPreorder le)
    (hle : le false true = true) (n : Nat) :
    (List.replicate n false ++ [true]).Pairwise (le · ·) := by
  refine List.pairwise_append.2
    ⟨List.pairwise_replicate.2 (Or.inr (h.refl false)), List.pairwise_singleton _ _, ?_⟩
  intro a ha b hb
  rw [List.eq_of_mem_replicate ha, List.mem_singleton.1 hb]
  exact hle

/-- **Keys told apart.**  If their leading keys differ, some pages are sorted in a way that one of
them comes first by the keys `g` and last by the keys `h`. -/
theorem exists_told_apart {g h : List SortKey} (hne : leading g ≠ leading h) (n : Nat) :
    ∃ (o : FieldOrders Bool) (pages : List Bool),
      pages.mergeSort (o.byKeys g) = true :: List.replicate n false ∧
      pages.mergeSort (o.byKeys h) = List.replicate n false ++ [true] := by
  obtain ⟨value, hg, hh, hs⟩ := exists_divides hne
  have hgo := (ofMark value).byKeys_preorder g
  have hho := (ofMark value).byKeys_preorder h
  have hfirst := pairwise_marked_first hgo hg n
  have hlast := pairwise_marked_last hho hh n
  have hperm : (List.replicate n false ++ [true]).Perm (true :: List.replicate n false) :=
    List.perm_append_singleton _ _
  -- the list stands in the order of the keys that tie the marked page
  rcases hs with hs | hs
  · exact ⟨_, _, mergeSort_eq_of_strict hgo hfirst hperm (Or.inr hs),
      List.mergeSort_of_pairwise hlast⟩
  · exact ⟨_, _, List.mergeSort_of_pairwise hfirst,
      mergeSort_eq_of_strict hho hlast hperm.symm (Or.inl hs)⟩

end FieldOrders

end PageQuery
