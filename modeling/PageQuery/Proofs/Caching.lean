import PageQuery.Field.QueryCache
import Mathlib.Data.Finset.Card
import Mathlib.Data.List.Induction

/-!
# What a cache answers

`use` is one use of a cache and `run` a run of them.  Two things hold of every cache that a run
leaves, and `Sound` puts them together: no field has two entries, and an entry holds the query that
its text is lowered to in its dialect.

`run_transparent`: a new cache answers every request as if it had to lower the text now, and it has
entries for the fields that were asked for and not dropped since.
-/

namespace PageQuery.QueryCache

/-! ### Uses -/

/-- what can be done with a cache -/
inductive Use where
  /-- asks for the query of a field -/
  | query (field text : String) (d : Dialect)
  | invalidate (field : String)
  | clear
deriving DecidableEq

/-- what a use gives back -/
inductive Answer where
  | query (query : Option String)
  /-- whether there was an entry -/
  | dropped (was : Bool)
  | cleared
deriving DecidableEq

/-- one use of a cache -/
def use (c : QueryCache) : Use → Answer × QueryCache
  | .query field text d =>
    let r := c.getOrTranslate field text d
    (.query r.1, r.2)
  | .invalidate field =>
    let r := c.invalidate field
    (.dropped r.1, r.2)
  | .clear => (.cleared, c.clear)

/-- uses one after the other -/
def run (c : QueryCache) : List Use → List Answer × QueryCache
  | [] => ([], c)
  | u :: us =>
    let r := c.use u
    let rest := run r.2 us
    (r.1 :: rest.1, rest.2)

/-- the last thing that was done with the field is that its query was asked for: since then it was
not dropped, neither alone nor with all others -/
def Remembered (uses : List Use) (field : String) : Prop :=
  ∃ before text d after, uses = before ++ .query field text d :: after ∧
    .invalidate field ∉ after ∧ .clear ∉ after

/-- the answer of a use after others as it would be without a cache -/
inductive Answers (before : List Use) : Use → Answer → Prop
  | query (field text : String) (d : Dialect) :
    Answers before (.query field text d) (.query (Translation.query? text d))
  | invalidate {field : String} {was : Bool} : (was = true ↔ Remembered before field) →
    Answers before (.invalidate field) (.dropped was)
  | clear : Answers before .clear .cleared

/-- the fields that have an entry -/
def fields (c : QueryCache) : List String := c.entries.map (·.1)

/-! ### Entries -/

theorem get?_eq_some_mem {c : QueryCache} {field : String} {q : CachedQuery}
    (h : c.get? field = some q) : (field, q) ∈ c.entries := by
  obtain ⟨before, after, he, -⟩ := List.lookup_eq_some_iff.1 h
  rw [he]
  simp

theorem isSome_get?_iff {c : QueryCache} {field : String} :
    (c.get? field).isSome = true ↔ field ∈ c.fields := by
  constructor
  · intro h
    obtain ⟨q, hq⟩ := Option.isSome_iff_exists.1 h
    exact List.mem_map_of_mem (get?_eq_some_mem hq)
  · intro h
    obtain ⟨e, he, rfl⟩ := List.mem_map.1 h
    by_contra hno
    have hnone : c.entries.lookup e.1 = none := Option.not_isSome_iff_eq_none.1 hno
    have hne : (e.1 != e.1) = true := List.lookup_eq_none_iff.1 hnone e he
    exact absurd hne (by simp)

theorem fields_erase (c : QueryCache) (field : String) :
    (c.erase field).fields = c.fields.filter (· != field) := by
  rw [fields, fields, List.filter_map]
  rfl

theorem fields_insert (c : QueryCache) (field : String) (q : CachedQuery) :
    (c.insert field q).fields = field :: (c.erase field).fields := rfl

theorem mem_fields_erase {c : QueryCache} {field g : String} :
    g ∈ (c.erase field).fields ↔ g ≠ field ∧ g ∈ c.fields := by
  rw [fields_erase, List.mem_filter, and_comm, bne_iff_ne]

theorem mem_fields_insert {c : QueryCache} {field g : String} {q : CachedQuery} :
    g ∈ (c.insert field q).fields ↔ g = field ∨ g ∈ c.fields := by
  rw [fields_insert, List.mem_cons, mem_fields_erase]
  by_cases hg : g = field
  · simp [hg]
  · simp [hg]

/-! ### One use -/

/-- what holds of the caches that a run leaves -/
structure Sound (c : QueryCache) : Prop where
  /-- no field has two entries -/
  nodup : c.fields.Nodup
  /-- an entry holds what its text is lowered to -/
  query : ∀ e ∈ c.entries, e.2.query = Translation.query? e.2.text e.2.dialect

theorem sound_empty : Sound {} where
  nodup := List.nodup_nil
  query := nofun

theorem Sound.erase {c : QueryCache} (h : c.Sound) (field : String) : (c.erase field).Sound where
  nodup := by
    rw [fields_erase]
    exact h.nodup.filter _
  query := fun e he => h.query e (List.mem_of_mem_filter he)

theorem Sound.insert {c : QueryCache} (h : c.Sound) (field text : String) (d : Dialect) :
    (c.insert field ⟨text, d, Translation.query? text d⟩).Sound where
  nodup := by
    rw [fields_insert, List.nodup_cons, mem_fields_erase]
    exact ⟨fun hf => hf.1 rfl, (h.erase field).nodup⟩
  query := by
    intro e he
    rcases List.mem_cons.1 he with rfl | he
    · rfl
    · exact (h.erase field).query e he

/-- A request is answered from the entry of the field, which then is for the same text and dialect,
or the text is lowered and replaces the entry. -/
theorem getOrTranslate_cases (c : QueryCache) (field text : String) (d : Dialect) :
    (∃ q, c.get? field = some q ∧ q.text = text ∧ q.dialect = d ∧
      c.getOrTranslate field text d = (q.query, c)) ∨
    c.getOrTranslate field text d =
      (Translation.query? text d, c.insert field ⟨text, d, Translation.query? text d⟩) := by
  unfold getOrTranslate
  dsimp only
  split
  · rename_i q hq
    split
    · rename_i hsame
      obtain ⟨htext, hd⟩ := Bool.and_eq_true_iff.1 hsame
      exact Or.inl ⟨q, hq, eq_of_beq htext, eq_of_beq hd, rfl⟩
    · exact Or.inr rfl
  · exact Or.inr rfl

theorem Sound.getOrTranslate_eq {c : QueryCache} (h : c.Sound) (field text : String) (d : Dialect) :
    (c.getOrTranslate field text d).1 = Translation.query? text d := by
  rcases c.getOrTranslate_cases field text d with ⟨q, hq, htext, hd, hc⟩ | hc
  · have hquery := h.query _ (get?_eq_some_mem hq)
    rw [hc, ← htext, ← hd]
    exact hquery
  · rw [hc]

theorem Sound.use {c : QueryCache} (h : c.Sound) (u : Use) : (c.use u).2.Sound := by
  cases u with
  | query field text d =>
    show (c.getOrTranslate field text d).2.Sound
    rcases c.getOrTranslate_cases field text d with ⟨q, -, -, -, hc⟩ | hc
    · rw [hc]
      exact h
    · rw [hc]
      exact h.insert field text d
  | invalidate field => exact h.erase field
  | clear => exact sound_empty

theorem mem_fields_use {c : QueryCache} {u : Use} {g : String} :
    g ∈ (c.use u).2.fields ↔
      match u with
      | .query field _ _ => g = field ∨ g ∈ c.fields
      | .invalidate field => g ≠ field ∧ g ∈ c.fields
      | .clear => False := by
  cases u with
  | query field text d =>
    show g ∈ (c.getOrTranslate field text d).2.fields ↔ g = field ∨ g ∈ c.fields
    rcases c.getOrTranslate_cases field text d with ⟨q, hq, -, -, hc⟩ | hc
    · have hfield : field ∈ c.fields := List.mem_map_of_mem (get?_eq_some_mem hq)
      rw [hc]
      constructor
      · exact Or.inr
      · rintro (rfl | hg)
        · exact hfield
        · exact hg
    · rw [hc]
      exact mem_fields_insert
  | invalidate field => exact mem_fields_erase
  | clear => exact iff_of_false List.not_mem_nil id

/-- what one more use does to the fields that are remembered -/
theorem remembered_concat {us : List Use} {u : Use} {g : String} :
    Remembered (us ++ [u]) g ↔
      match u with
      | .query field _ _ => g = field ∨ Remembered us g
      | .invalidate field => g ≠ field ∧ Remembered us g
      | .clear => False := by
  -- either the request is the use itself, or it is further back and the use does not drop it
  have hsplit : Remembered (us ++ [u]) g ↔
      (∃ text d, u = .query g text d) ∨ (u ≠ .invalidate g ∧ u ≠ .clear ∧ Remembered us g) := by
    constructor
    · rintro ⟨before, text, d, after, he, hdropped, hcleared⟩
      rcases List.eq_nil_or_concat' after with rfl | ⟨after, v, rfl⟩
      · obtain ⟨-, rfl⟩ := List.append_singleton_inj.1 he
        exact Or.inl ⟨text, d, rfl⟩
      · rw [← List.cons_append, ← List.append_assoc] at he
        obtain ⟨rfl, rfl⟩ := List.append_singleton_inj.1 he
        simp only [List.mem_append, List.mem_singleton, not_or] at hdropped hcleared
        exact Or.inr ⟨Ne.symm hdropped.2, Ne.symm hcleared.2,
          before, text, d, after, rfl, hdropped.1, hcleared.1⟩
    · rintro (⟨text, d, rfl⟩ | ⟨hdropped, hcleared, before, text, d, after, rfl, ha⟩)
      · exact ⟨us, text, d, [], rfl, List.not_mem_nil, List.not_mem_nil⟩
      · refine ⟨before, text, d, after ++ [u], by simp, ?_, ?_⟩
        · simpa [ha.1] using Ne.symm hdropped
        · simpa [ha.2] using Ne.symm hcleared
  rw [hsplit]
  cases u with
  | query field text d => simp [eq_comm]
  | invalidate field => simp [eq_comm]
  | clear => simp

/-! ### Runs -/

theorem run_append (c : QueryCache) (us vs : List Use) :
    c.run (us ++ vs) = ((c.run us).1 ++ ((c.run us).2.run vs).1, ((c.run us).2.run vs).2) := by
  induction us generalizing c with
  | nil => rfl
  | cons u us ih => simp [run, ih]

theorem length_run (c : QueryCache) (us : List Use) : (c.run us).1.length = us.length := by
  induction us generalizing c with
  | nil => rfl
  | cons u us ih => simp [run, ih]

theorem Sound.run {c : QueryCache} (h : c.Sound) (us : List Use) : (c.run us).2.Sound := by
  induction us generalizing c with
  | nil => exact h
  | cons u us ih => exact ih (h.use u)

/-- the fields with an entry after a run of a new cache -/
theorem mem_fields_run {us : List Use} {g : String} :
    g ∈ (run {} us).2.fields ↔ Remembered us g := by
  induction us using List.reverseRecOn with
  | nil =>
    refine iff_of_false List.not_mem_nil ?_
    rintro ⟨before, text, d, after, he, -⟩
    simp at he
  | append_singleton us u ih =>
    have hrun : (run {} (us ++ [u])).2 = ((run {} us).2.use u).2 := by
      rw [run_append]
      rfl
    rw [hrun, mem_fields_use, remembered_concat]
    cases u with
    | query field text d => exact or_congr_right ih
    | invalidate field => exact and_congr_right fun _ => ih
    | clear => rfl

theorem answers_use {before : List Use} (u : Use) :
    Answers before u ((run {} before).2.use u).1 := by
  have hsound : (run {} before).2.Sound := sound_empty.run before
  cases u with
  | query field text d =>
    have hquery := hsound.getOrTranslate_eq field text d
    show Answers before _ (.query ((run {} before).2.getOrTranslate field text d).1)
    rw [hquery]
    exact .query field text d
  | invalidate field => exact .invalidate (isSome_get?_iff.trans mem_fields_run)
  | clear => exact .clear

/-- **A cache is transparent.**  In every run of a new cache each use is answered as if there were no
cache: a request by what its text is lowered to now, whatever came before.  After the run the fields
with an entry are those that were asked for and not dropped since; their number is the size of the
cache, which is empty if there are none, and a field has an entry to drop if it is one of them. -/
theorem run_transparent (uses : List Use) :
    (∀ before u after, uses = before ++ u :: after →
      ∃ a, (run {} uses).1[before.length]? = some a ∧ Answers before u a) ∧
    (run {} uses).1.length = uses.length ∧
    (∀ field, ((run {} uses).2.get? field).isSome = true ↔ Remembered uses field) ∧
    (∃ fields : Finset String, (∀ field, field ∈ fields ↔ Remembered uses field) ∧
      (run {} uses).2.size = fields.card) ∧
    ((run {} uses).2.isEmpty = true ↔ ∀ field, ¬ Remembered uses field) ∧
    ∀ field, ((run {} uses).2.invalidate field).1 = true ↔ Remembered uses field := by
  have hget : ∀ field, ((run {} uses).2.get? field).isSome = true ↔ Remembered uses field :=
    fun field => isSome_get?_iff.trans mem_fields_run
  refine ⟨?_, length_run {} uses, hget, ?_, ?_, hget⟩
  · rintro before u after rfl
    have hbefore : (run {} before).1.length = before.length := length_run {} before
    refine ⟨((run {} before).2.use u).1, ?_, answers_use u⟩
    rw [run_append, List.getElem?_append_right (Nat.le_of_eq hbefore), hbefore, Nat.sub_self]
    rfl
  · refine ⟨(run {} uses).2.fields.toFinset, fun field => ?_, ?_⟩
    · rw [List.mem_toFinset]
      exact mem_fields_run
    · rw [List.toFinset_card_of_nodup (sound_empty.run uses).nodup, fields, List.length_map]
      rfl
  · have hnil : (run {} uses).2.isEmpty = true ↔ (run {} uses).2.fields = [] := by
      rw [isEmpty, List.isEmpty_iff, fields, List.map_eq_nil_iff]
    rw [hnil, List.eq_nil_iff_forall_not_mem]
    exact forall_congr' fun field => not_congr mem_fields_run

end PageQuery.QueryCache
