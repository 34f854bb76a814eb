import PageQuery.Field.OptionSource
import PageQuery.Proofs.Lowering

/-!
# Where candidates come from

The check whether a field is supported reads the source type off the options whatever they are, and
the resolution asks first whether they are an object; only an object has texts, so the two agree
(`object?_of_text?`).  A supported field has its candidates in its own options or in a note, in every
dialect alike; and where the candidates come from a query, it is the one that the text among the
options is lowered to.  All of this is `optionSource_agrees`.
-/

namespace PageQuery.Field

variable {f : Field} {key : String} {d : Dialect}

/-! ### Options -/

/-- only an object has options -/
theorem object?_of_text? {text : String} (h : f.text? key = some text) :
    ∃ members, f.options.object? = some members := by
  obtain ⟨v, hv, -⟩ := Option.bind_eq_some_iff.1 h
  cases ho : f.options with
  | object members => exact ⟨members, rfl⟩
  | _ =>
    rw [ho] at hv
    cases hv

theorem requiredText_eq_ok {text : String} :
    f.requiredText key = .ok text ↔ f.text? key = some text ∧ text ≠ "" := by
  unfold requiredText
  cases f.text? key with
  | none => simp
  | some s =>
    simp only [String.isEmpty_iff, Option.some.injEq]
    split
    · rename_i hs
      simp only [reduceCtorEq, false_iff]
      rintro ⟨rfl, hne⟩
      exact hne hs
    · rename_i hs
      simp only [Except.ok.injEq, iff_self_and]
      rintro rfl
      exact hs

theorem requiredText_eq_error {cause : FieldErrorCause} (h : f.requiredText key = .error cause) :
    cause = .missingOption key := by
  unfold requiredText at h
  split at h
  · split at h
    · cases h
      rfl
    · cases h
  · cases h
    rfl

theorem optionQuery_eq_ok {projection : Projection} {s : OptionSource} :
    f.optionQuery key d projection = .ok s ↔ ∃ text t, f.text? key = some text ∧ text ≠ "" ∧
      Translation.ofText text d = .ok t ∧ s = .query t.query projection := by
  unfold optionQuery
  rw [bind_eq_ok]
  simp only [requiredText_eq_ok]
  constructor
  · rintro ⟨text, ⟨htext, hne⟩, h⟩
    split at h
    · rename_i t ht
      cases h
      exact ⟨text, t, htext, hne, ht, rfl⟩
    · cases h
  · rintro ⟨text, t, htext, hne, ht, rfl⟩
    exact ⟨text, ⟨htext, hne⟩, by rw [ht]⟩

/-! ### Source types -/

/-- the candidates of the field depend on a source type among its options -/
def HasSourceType (f : Field) : Prop := f.type = .select ∨ f.type = .cycle ∨ f.type = .multi

theorem sourceCause_of_hasSourceType (h : f.HasSourceType) :
    f.sourceCause d = f.selectSource d := by
  unfold sourceCause
  rcases h with h | h | h <;> rw [h]

theorem selectSource_of_valuesList (h : f.text? "sourceType" = some "ValuesList") :
    f.selectSource d = .ok (.values f.listedValues) := by
  obtain ⟨members, hm⟩ := object?_of_text? h
  simp only [selectSource, hm, h]

theorem selectSource_of_query (h : f.text? "sourceType" = some "ValuesFromDVQuery") :
    f.selectSource d = f.optionQuery "valuesFromDVQuery" d .values := by
  obtain ⟨members, hm⟩ := object?_of_text? h
  simp only [selectSource, hm, h]

theorem selectSource_of_notePath (h : f.text? "sourceType" = some "ValuesListNotePath") :
    f.selectSource d = (f.requiredText "valuesListNotePath").map .notePath := by
  obtain ⟨members, hm⟩ := object?_of_text? h
  simp only [selectSource, hm, h]

/-- the source types that lead anywhere -/
theorem sourceType_of_selectSource {s : OptionSource} (h : f.selectSource d = .ok s) :
    f.text? "sourceType" = some "ValuesList" ∨ f.text? "sourceType" = some "ValuesFromDVQuery" ∨
      f.text? "sourceType" = some "ValuesListNotePath" := by
  unfold selectSource at h
  split at h
  · cases h
  · split at h
    · cases h
    · exact Or.inl ‹_›
    · exact Or.inr (Or.inl ‹_›)
    · exact Or.inr (Or.inr ‹_›)
    · cases h

theorem selectSource_eq_query {q : String} {p : Projection} :
    f.selectSource d = .ok (.query q p) ↔ f.text? "sourceType" = some "ValuesFromDVQuery" ∧
      f.optionQuery "valuesFromDVQuery" d .values = .ok (.query q p) := by
  constructor
  · intro h
    rcases sourceType_of_selectSource h with ht | ht | ht
    · rw [selectSource_of_valuesList ht] at h
      cases h
    · exact ⟨ht, selectSource_of_query ht ▸ h⟩
    · rw [selectSource_of_notePath ht] at h
      cases hr : f.requiredText "valuesListNotePath" <;> rw [hr] at h <;> cases h
  · rintro ⟨ht, h⟩
    rwa [selectSource_of_query ht]

/-! ### Supported fields -/

theorem isSupported_iff :
    f.isSupported = true ↔ (f.type = .select ∨ f.type = .multi) ∧
      (f.text? "sourceType" = some "ValuesList" ∨
        f.text? "sourceType" = some "ValuesListNotePath") := by
  unfold isSupported
  cases f.text? "sourceType" with
  | none => simp
  | some t => simp

/-- the candidates are in the options of the field or in a note -/
inductive IsStatic : OptionSource → Prop
  | values (vs : List String) : IsStatic (.values vs)
  | notePath (path : String) : IsStatic (.notePath path)

theorem optionSource_eq_ok {s : OptionSource} :
    f.optionSource d = .ok s ↔ f.sourceCause d = .ok s := by
  unfold optionSource
  cases f.sourceCause d <;> simp

theorem optionSource_of_isSupported (h : f.isSupported = true) :
    f.optionSource d = f.optionSource {} ∧
      ((∃ s, f.optionSource d = .ok s ∧ IsStatic s) ∨
        f.optionSource d = .error ⟨f.name, .missingOption "valuesListNotePath"⟩) := by
  obtain ⟨htype, ht⟩ := isSupported_iff.1 h
  have hselect : f.HasSourceType := htype.imp_right Or.inr
  unfold optionSource
  simp only [sourceCause_of_hasSourceType hselect]
  rcases ht with ht | ht
  · simp only [selectSource_of_valuesList ht, true_and]
    exact Or.inl ⟨_, rfl, .values _⟩
  · simp only [selectSource_of_notePath ht, true_and]
    cases hr : f.requiredText "valuesListNotePath" with
    | ok path => exact Or.inl ⟨_, rfl, .notePath path⟩
    | error cause =>
      rw [requiredText_eq_error hr]
      exact Or.inr rfl

theorem isSupported_of_isStatic (htype : f.type = .select ∨ f.type = .multi) {s : OptionSource}
    (h : f.optionSource d = .ok s) (hs : IsStatic s) : f.isSupported = true := by
  have hselect : f.HasSourceType := htype.imp_right Or.inr
  rw [optionSource_eq_ok, sourceCause_of_hasSourceType hselect] at h
  refine isSupported_iff.2 ⟨htype, ?_⟩
  rcases sourceType_of_selectSource h with ht | ht | ht
  · exact Or.inl ht
  · rw [selectSource_of_query ht] at h
    obtain ⟨text, t, -, -, -, rfl⟩ := optionQuery_eq_ok.1 h
    cases hs
  · exact Or.inr ht

/-! ### Queries -/

/-- the option that holds the query of the field, and what its rows are -/
inductive QueryOption (f : Field) : String → Projection → Prop
  | values : f.HasSourceType → f.text? "sourceType" = some "ValuesFromDVQuery" →
    QueryOption f "valuesFromDVQuery" .values
  | filePaths : f.type = .file ∨ f.type = .multiFile → QueryOption f "dvQueryString" .filePaths

theorem sourceCause_of_files (h : f.type = .file ∨ f.type = .multiFile) :
    f.sourceCause d = f.optionQuery "dvQueryString" d .filePaths := by
  unfold sourceCause
  rcases h with h | h <;> rw [h]

theorem rangeSource_ne_query {q : String} {p : Projection} :
    f.rangeSource ≠ .ok (.query q p) := by
  unfold rangeSource
  split <;> nofun

theorem sourceCause_eq_query {q : String} {p : Projection} :
    f.sourceCause d = .ok (.query q p) ↔
      ∃ key, f.QueryOption key p ∧ f.optionQuery key d p = .ok (.query q p) := by
  constructor
  · intro h
    by_cases hselect : f.HasSourceType
    · rw [sourceCause_of_hasSourceType hselect] at h
      obtain ⟨htype, hq⟩ := selectSource_eq_query.1 h
      obtain ⟨text, t, -, -, -, hs⟩ := optionQuery_eq_ok.1 hq
      cases hs
      exact ⟨_, .values hselect htype, hq⟩
    · by_cases hfile : f.type = .file ∨ f.type = .multiFile
      · rw [sourceCause_of_files hfile] at h
        obtain ⟨text, t, -, -, -, hs⟩ := optionQuery_eq_ok.1 h
        cases hs
        exact ⟨_, .filePaths hfile, h⟩
      · -- neither a number nor any other type has a query
        simp only [HasSourceType, not_or] at hselect hfile
        unfold sourceCause at h
        split at h <;> first
          | exact absurd h rangeSource_ne_query
          | cases h
          | simp_all
  · rintro ⟨key, ho, h⟩
    cases ho with
    | values hselect htype =>
      rw [sourceCause_of_hasSourceType hselect]
      exact selectSource_eq_query.2 ⟨htype, h⟩
    | filePaths hfile => rwa [sourceCause_of_files hfile]

theorem optionSource_eq_query {q : String} {p : Projection} :
    f.optionSource d = .ok (.query q p) ↔ ∃ key text t, f.QueryOption key p ∧
      f.text? key = some text ∧ text ≠ "" ∧ Translation.ofText text d = .ok t ∧ q = t.query := by
  rw [optionSource_eq_ok, sourceCause_eq_query]
  simp only [optionQuery_eq_ok, OptionSource.query.injEq, and_true]
  grind

/-- **Supported fields.**  A supported field has values or a note, or lacks the path of the note, in all
dialects alike; a field with a choice of values that has values or a note is supported.  A query comes
from the one option that the type of the field names, and is what its text is lowered to. -/
theorem optionSource_agrees (f : Field) :
    (f.isSupported = true → ∀ d, f.optionSource d = f.optionSource {} ∧
      ((∃ s, f.optionSource d = .ok s ∧ IsStatic s) ∨
        f.optionSource d = .error ⟨f.name, .missingOption "valuesListNotePath"⟩)) ∧
    (f.type = .select ∨ f.type = .multi → ∀ d s, f.optionSource d = .ok s → IsStatic s →
      f.isSupported = true) ∧
    ∀ d q p, f.optionSource d = .ok (.query q p) ↔ ∃ key text t, f.QueryOption key p ∧
      f.text? key = some text ∧ text ≠ "" ∧ Translation.ofText text d = .ok t ∧ q = t.query :=
  ⟨fun h _ => optionSource_of_isSupported h, fun htype _ _ h hs => isSupported_of_isStatic htype h hs,
    fun _ _ _ => optionSource_eq_query⟩

/-- a field whose candidates are in a note, without a path to it -/
def pathlessField : Field :=
  ⟨"status", .multi, .object [("valuesListNotePath", .string ""),
    ("sourceType", .string "ValuesListNotePath")]⟩

theorem optionSource_of_pathlessField :
    pathlessField.isSupported = true ∧ ∀ d, pathlessField.optionSource d =
      .error ⟨"status", .missingOption "valuesListNotePath"⟩ := by
  have hsupported : pathlessField.isSupported = true := by decide +kernel
  refine ⟨hsupported, fun d => ?_⟩
  rw [((optionSource_agrees pathlessField).1 hsupported d).1]
  decide +kernel

end PageQuery.Field
