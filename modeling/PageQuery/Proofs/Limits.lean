import PageQuery.Proofs.Numerals
import PageQuery.Proofs.Projection
import PageQuery.Proofs.Sums

/-!
# Limits

The limit that a number asks for is the number without its fraction, as far as 64 bits hold it
(`IsLimit`).  A number that is not below zero is one, whatever the limit is written as, and the last
such limit of a chain is the one of its query: `limit_of_number`.
-/

namespace PageQuery

/-! ### Numbers without their fraction -/

namespace Binary64

variable {x : Binary64}

theorem zero_le_iff (h : x.isFinite = true) : le .zero x = true ↔ 0 ≤ x.value := by
  rw [le_iff rfl (isNaN_of_isFinite h), value_zero]

/-- the whole part of a number that is not below zero -/
theorem wholePart_spec (h : 0 ≤ x.value) :
    (x.wholePart : ℚ) ≤ x.value ∧ x.value < x.wholePart + 1 := by
  have hvalue : x.value = x.units / unitsPerOne := by
    rw [← abs_of_nonneg h, value_eq, abs_signedValue _ (unitsOfRank_div_nonneg _)]
    rfl
  have hlt : (x.units : ℚ) < (unitsPerOne * (x.wholePart + 1) : ℕ) :=
    Nat.cast_lt.2 (Nat.lt_mul_div_succ x.units (Nat.cast_pos.1 unitsPerOne_pos))
  rw [hvalue, div_lt_iff₀' unitsPerOne_pos]
  refine ⟨Nat.cast_div_le, ?_⟩
  rwa [Nat.cast_mul, Nat.cast_succ] at hlt

end Binary64

namespace Number

/-- the limit that a number asks for: without the fraction, up to the greatest of 64 bits -/
structure IsLimit (v : ℚ) (n : Nat) : Prop where
  below : v < 2 ^ 64 → (n : ℚ) ≤ v ∧ v < n + 1
  beyond : 2 ^ 64 ≤ v → n = 2 ^ 64 - 1

theorem limitOfText?_of_neg {s : String} {x : Binary64} (h : ofText? s = some x)
    (hx : x.value < 0) : limitOfText? s = none := by
  have hle : Binary64.le .zero x ≠ true := fun hle =>
    not_lt.2 ((Binary64.zero_le_iff (isFinite_of_ofText? h)).1 hle) hx
  rw [limitOfText?, h, Option.bind_some, if_neg hle]

theorem exists_limitOfText? {s : String} {x : Binary64} (h : ofText? s = some x)
    (hx : 0 ≤ x.value) : ∃ n, limitOfText? s = some n ∧ IsLimit x.value n := by
  have hle := (Binary64.zero_le_iff (isFinite_of_ofText? h)).2 hx
  obtain ⟨hlow, hhigh⟩ := Binary64.wholePart_spec hx
  refine ⟨min x.wholePart maxLimit, by rw [limitOfText?, h, Option.bind_some, if_pos hle], ?_⟩
  have hmax : maxLimit = 2 ^ 64 - 1 := rfl
  constructor
  · intro hlt
    have hwhole : x.wholePart < 2 ^ 64 := by exact_mod_cast hlow.trans_lt hlt
    have hmin : min x.wholePart maxLimit = x.wholePart := by omega
    rw [hmin]
    exact ⟨hlow, hhigh⟩
  · intro hge
    have hwhole : 2 ^ 64 < x.wholePart + 1 := by exact_mod_cast hge.trans_lt hhigh
    omega

end Number

/-! ### Limits of chains -/

namespace Collects

variable {α β : Type} {R : α → β → Prop}

theorem eq_nil {as : List α} {bs : List β} (h : Collects R as bs) (hno : ∀ a ∈ as, ∀ b, ¬ R a b) :
    bs = [] := by
  induction h with
  | nil => rfl
  | result hb _ _ => exact absurd hb (hno _ (List.mem_cons_self ..) _)
  | skip _ _ ih => exact ih fun a ha => hno a (List.mem_cons_of_mem _ ha)

/-- the result of the last item that has one comes last -/
theorem getLast?_of_last (hR : ∀ a b b', R a b → R a b' → b = b') {before after : List α} {a : α}
    {b : β} {bs : List β} (h : Collects R (before ++ a :: after) bs) (hb : R a b)
    (hno : ∀ a ∈ after, ∀ b, ¬ R a b) : bs.getLast? = some b := by
  induction before generalizing bs with
  | nil =>
    cases h with
    | result hb' h =>
      rw [h.eq_nil hno, hR _ _ _ hb hb']
      rfl
    | skip hno' _ => exact absurd hb (hno' b)
  | cons a' before ih =>
    cases h with
    | result _ h => rw [List.getLast?_cons, ih h, Option.getD_some]
    | skip _ h => exact ih h

end Collects

/-- the text of a query ends in its limit -/
theorem Clauses.render_limit {c : Clauses} {n : Nat} (h : c.limit = some n) :
    c.render = { c with limit := none }.render ++
      (" LIMIT " ++ String.ofList (Number.digitChars n)) := by
  have hne : { c with limit := none }.renderEach ≠ [] := by simp [renderEach]
  have heach : c.renderEach =
      { c with limit := none }.renderEach ++ ["LIMIT " ++ String.ofList (Number.digitChars n)] := by
    simp [renderEach, h]
  have hword : " LIMIT " = " " ++ "LIMIT " := by decide
  rw [render, heach, String.intercalate_append_of_ne_nil hne (List.cons_ne_nil _ _),
    String.intercalate_singleton, render, hword, String.append_assoc, String.append_assoc]

namespace Translation

open Clause

/-- **Limits.**  No number below zero is a limit.  From every other one a limiting call has the limit
that the number asks for, whatever else is in the chain; the query of a chain has the limit of the
last such call, and its text ends in it. -/
theorem limit_of_number {s : String} {x : Binary64} (h : Number.ofText? s = some x) :
    (x.value < 0 → Number.limitOfText? s = none) ∧
    (0 ≤ x.value → ∃ n, Number.limitOfText? s = some n ∧ Number.IsLimit x.value n ∧
      ∀ (m : MethodCall) (a : Arg) (rest : List Arg),
        m.method = "limit" → m.args = a :: rest → a.text = s → Adds m (.limit n) ∧
          ∀ (d : Dialect) (source : String) (before after : List MethodCall),
            (∀ m' ∈ before ++ after, ∃ c, Adds m' c) →
            (∀ m' ∈ after, ∀ k, ¬ Adds m' (.limit k)) →
              ∃ t, ofChain ⟨source, before ++ m :: after⟩ d = .ok t ∧ t.clauses.limit = some n ∧
                t.query = { t.clauses with limit := none }.render ++
                  (" LIMIT " ++ String.ofList (Number.digitChars n))) := by
  refine ⟨Number.limitOfText?_of_neg h, fun hx => ?_⟩
  obtain ⟨n, hn, hlimit⟩ := Number.exists_limitOfText? h hx
  refine ⟨n, hn, hlimit, fun m a rest hm hargs htext => ?_⟩
  have hadds : Adds m (.limit n) := .limit hm hargs (htext ▸ hn)
  refine ⟨hadds, fun d source before after hcalls hafter => ?_⟩
  have hall : ∀ m' ∈ before ++ m :: after, ∃ c, Adds m' c := by
    intro m' hm'
    rw [List.mem_append, List.mem_cons] at hm'
    rcases hm' with hm' | rfl | hm'
    · exact hcalls m' (List.mem_append_left _ hm')
    · exact ⟨_, hadds⟩
    · exact hcalls m' (List.mem_append_right _ hm')
  obtain ⟨t, ht⟩ := (@exists_ofChain_iff ⟨source, before ++ m :: after⟩ d).2 hall
  have hprojects := projects_of_ofChain ht
  obtain ⟨counts, hcounts, hlast⟩ := hprojects.limit
  have hsome : t.clauses.limit = some n := by
    rw [hlast]
    exact hcounts.getLast?_of_last (fun _ _ _ hb hb' => limit.inj (hb.unique hb')) hadds hafter
  exact ⟨t, ht, hsome, hprojects.query.trans (Clauses.render_limit hsome)⟩

/-- a number with a fraction -/
theorem limit_of_two_point_nine :
    let x : Binary64 := .ofBits 0x4007333333333333
    let m : MethodCall := ⟨"limit", [⟨"2.9", none⟩]⟩
    Number.ofText? "2.9" = some x ∧ 0 ≤ x.value ∧ Adds m (.limit 2) ∧
      ∃ t, ofChain ⟨"#a", [m]⟩ {} = .ok t ∧ t.clauses.limit = some 2 ∧
        t.query = { t.clauses with limit := none }.render ++ " LIMIT 2" := by
  intro x m
  have hread : Number.ofText? "2.9" = some x := by decide +kernel
  have hx : 0 ≤ x.value := not_lt.1 fun h => Bool.noConfusion (Binary64.value_neg_iff.1 h).1
  obtain ⟨n, hn, -, hcalls⟩ := (limit_of_number hread).2 hx
  have htwo : Number.limitOfText? "2.9" = some 2 := by decide +kernel
  obtain rfl := Option.some.inj (hn.symm.trans htwo)
  obtain ⟨hadds, hchain⟩ := hcalls m ⟨"2.9", none⟩ [] rfl rfl rfl
  exact ⟨hread, hx, hadds, hchain {} "#a" [] [] (by simp) (by simp)⟩

end Translation

end PageQuery
