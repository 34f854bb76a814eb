import PageQuery.Proofs.Lowering
import PageQuery.Proofs.Meaning
import PageQuery.Proofs.Selector

/-!
# What each call adds to a query

`Clause.Adds m c`: the call `m` adds the clause `c`, one rule for each kind of call.
`Collects R ms xs`: the calls `ms` have the results `xs`, in their order, the calls without a result
left out.

`Translation.ofChain_projects`: a chain is lowered exactly if every call adds a clause, and each part
of the query then collects the clauses of its kind.  Otherwise the error is the one that the first
call without a clause has on its own.
-/

namespace PageQuery

open Script Script.Expr

/-! ### Results in the order of what they come from -/

/-- the results of those items that have one, in the order of the items -/
inductive Collects {α β : Type} (R : α → β → Prop) : List α → List β → Prop
  | nil : Collects R [] []
  | result {a : α} {b : β} {as : List α} {bs : List β} :
    R a b → Collects R as bs → Collects R (a :: as) (b :: bs)
  | skip {a : α} {as : List α} {bs : List β} :
    (∀ b, ¬ R a b) → Collects R as bs → Collects R (a :: as) bs

namespace Collects

variable {α β γ : Type} {R : α → β → Prop}

/-- items with at most one result each have only one list of results -/
theorem unique (hR : ∀ a b b', R a b → R a b' → b = b') {as : List α} {bs bs' : List β}
    (h : Collects R as bs) (h' : Collects R as bs') : bs = bs' := by
  induction h generalizing bs' with
  | nil =>
    cases h'
    rfl
  | result hb _ ih =>
    cases h' with
    | result hb' h' => rw [hR _ _ _ hb hb', ih h']
    | skip hno _ => exact absurd hb (hno _)
  | skip hno _ ih =>
    cases h' with
    | result hb' _ => exact absurd hb' (hno _)
    | skip _ h' => exact ih h'

/-- the results of items that correspond to one another -/
theorem congr {R' : γ → β → Prop} {as : List α} {cs : List γ} {bs : List β} (h : Collects R as bs)
    (hcs : List.Forall₂ (fun a c => ∀ b, R a b ↔ R' c b) as cs) : Collects R' cs bs := by
  induction h generalizing cs with
  | nil =>
    cases hcs
    exact .nil
  | result hb _ ih =>
    cases hcs with
    | cons hc hcs => exact .result ((hc _).1 hb) (ih hcs)
  | skip hno _ ih =>
    cases hcs with
    | cons hc hcs => exact .skip (fun b hb => hno b ((hc b).2 hb)) (ih hcs)

/-- the results of one kind among the results of all items -/
theorem of_forall₂ {S : α → γ → Prop} {kind : β → γ} {ofKind? : γ → Option β}
    (hS : ∀ a c c', S a c → S a c' → c = c') (hkind : ∀ c b, ofKind? c = some b ↔ c = kind b)
    {as : List α} {cs : List γ} (h : List.Forall₂ S as cs) :
    Collects (fun a b => S a (kind b)) as (cs.filterMap ofKind?) := by
  induction h with
  | nil => exact .nil
  | @cons a c as cs hc _ ih =>
    rw [List.filterMap_cons]
    cases hk : ofKind? c with
    | some b =>
      obtain rfl := (hkind c b).1 hk
      exact .result hc ih
    | none =>
      refine .skip (fun b hb => ?_) ih
      rw [(hkind c b).2 (hS _ _ _ hc hb)] at hk
      cases hk

end Collects

/-! ### One call -/

namespace Clause

/-- the argument is a callback that states the condition of this text -/
def StatesText (a : Arg) (text : String) : Prop :=
  ∃ e p body f, a.expr = .ok e ∧ e.IsLambda p body ∧ Condition.States p body f ∧
    text = f.condition.fragment

/-- the clause that a call adds -/
inductive Adds (m : MethodCall) : Clause → Prop
  | condition {a : Arg} {text : String} : m.method = "where" ∨ m.method = "filter" →
    m.args = [a] → StatesText a text → Adds m (.condition text)
  | listed {a : Arg} {path : List String} : m.method = "map" →
    m.args = [a] → Selector.Selects a path → Adds m (.listed (Selector.pathText path))
  | flatten {a : Arg} {field : String} : m.method = "flatMap" →
    m.args = [a] → Selector.Selects a [field] → Adds m (.flatten field)
  | sort {a : Arg} {path : List String} : m.method = "sort" →
    m.args = [a] → Selector.Selects a path →
      Adds m (.sort ⟨Selector.pathText path, .ascending⟩)
  | sortTowards {a d : Arg} {path : List String} {direction : Direction} : m.method = "sort" →
    m.args = [a, d] → Selector.Selects a path → d.text = direction.render →
      Adds m (.sort ⟨Selector.pathText path, direction⟩)
  | sortDesc {a : Arg} {path : List String} : m.method = "sortDesc" →
    m.args = [a] → Selector.Selects a path →
      Adds m (.sort ⟨Selector.pathText path, .descending⟩)
  | limit {a : Arg} {rest : List Arg} {n : Nat} : m.method = "limit" →
    m.args = a :: rest → Number.limitOfText? a.text = some n → Adds m (.limit n)
  | ignoredLimit {a : Arg} {rest : List Arg} : m.method = "limit" →
    m.args = a :: rest → Number.limitOfText? a.text = none → Adds m (.ignoredLimit a.text)
  | emptyLimit : m.method = "limit" → m.args = [] → Adds m (.ignoredLimit "")

theorem statesText_iff {a : Arg} {text : String} :
    StatesText a text ↔ ∃ d, Condition.ofArg a = .ok d ∧ text = d.fragment := by
  simp only [Condition.ofArg_eq_ok]
  constructor
  · rintro ⟨e, p, body, f, he, hl, hf, rfl⟩
    exact ⟨_, ⟨e, p, body, f, he, hl, hf, rfl⟩, rfl⟩
  · rintro ⟨_, ⟨e, p, body, f, he, hl, hf, rfl⟩, rfl⟩
    exact ⟨e, p, body, f, he, hl, hf, rfl⟩

/-- a clause made of the key that the only argument selects -/
theorem soleKey_eq_ok {m : MethodCall} {c : Clause} {ofKey : String → Clause} :
    (do pure (ofKey (← Selector.key (← soleArgument m)))) = Except.ok c ↔
      ∃ a path, m.args = [a] ∧ Selector.Selects a path ∧ c = ofKey (Selector.pathText path) := by
  simp only [bind_eq_ok, soleArgument_eq_ok, Selector.key_eq_ok]
  constructor
  · rintro ⟨a, ha, _, ⟨path, hp, rfl⟩, h⟩
    cases h
    exact ⟨a, path, ha, hp, rfl⟩
  · rintro ⟨a, path, ha, hp, rfl⟩
    exact ⟨a, ha, _, ⟨path, hp, rfl⟩, rfl⟩

theorem limitOf_adds {m : MethodCall} (hm : m.method = "limit") : Adds m (limitOf m.args) := by
  unfold limitOf
  cases ha : m.args with
  | nil => exact .emptyLimit hm ha
  | cons a rest =>
    cases hn : Number.limitOfText? a.text with
    | some n => simpa [hn] using Adds.limit hm ha hn
    | none => simpa [hn] using Adds.ignoredLimit hm ha hn

theorem sortKeyOf_adds {m : MethodCall} {k : SortKey} (hm : m.method = "sort")
    (h : sortKeyOf m.args = .ok k) : Adds m (.sort k) := by
  obtain ⟨field, direction⟩ := k
  obtain ⟨a, hf, hargs⟩ := sortKeyOf_eq_ok.1 h
  obtain ⟨path, hp, rfl⟩ := Selector.key_eq_ok.1 hf
  rcases hargs with ⟨ha, rfl⟩ | ⟨d, ha, hd⟩
  · exact .sort hm ha hp
  · exact .sortTowards hm ha hp hd

theorem adds_of_ofCall {m : MethodCall} {c : Clause} (h : ofCall m = .ok c) : Adds m c := by
  rcases ofCall_cases h with ⟨hm, h⟩ | ⟨hm, a, k, ha, hk, rfl⟩ | ⟨hm, a, f, ha, hf, rfl⟩ |
    ⟨hm, k, hk, rfl⟩ | ⟨hm, a, k, ha, hk, rfl⟩ | ⟨hm, rfl⟩
  · obtain ⟨a, d, ha, hd, rfl⟩ := conditionOf_eq_ok.1 h
    exact .condition hm ha (statesText_iff.2 ⟨d, hd, rfl⟩)
  · obtain ⟨path, hp, rfl⟩ := Selector.key_eq_ok.1 hk
    exact .listed hm ha hp
  · exact .flatten hm ha (Selector.singleField_eq_ok.1 hf)
  · exact sortKeyOf_adds hm hk
  · obtain ⟨path, hp, rfl⟩ := Selector.key_eq_ok.1 hk
    exact .sortDesc hm ha hp
  · exact limitOf_adds hm

theorem Adds.ofCall {m : MethodCall} {c : Clause} (h : Adds m c) : ofCall m = .ok c := by
  cases h with
  | condition hm ha ht =>
    obtain ⟨d, hd, rfl⟩ := statesText_iff.1 ht
    have hc : conditionOf m = .ok (.condition d.fragment) :=
      conditionOf_eq_ok.2 ⟨_, d, ha, hd, rfl⟩
    rcases hm with hm | hm
    · simpa only [Clause.ofCall, hm] using hc
    · simpa only [Clause.ofCall, hm] using hc
  | listed hm ha hp =>
    simp only [Clause.ofCall, hm]
    exact soleKey_eq_ok.2 ⟨_, _, ha, hp, rfl⟩
  | flatten hm ha hp =>
    simp only [Clause.ofCall, hm]
    exact bind_eq_ok.2 ⟨_, soleArgument_eq_ok.2 ha,
      bind_eq_ok.2 ⟨_, Selector.singleField_eq_ok.2 hp, rfl⟩⟩
  | @sort a path hm ha hp =>
    have hk : sortKeyOf m.args = .ok ⟨Selector.pathText path, .ascending⟩ :=
      sortKeyOf_eq_ok.2 ⟨a, Selector.key_eq_ok.2 ⟨path, hp, rfl⟩, Or.inl ⟨ha, rfl⟩⟩
    simp only [Clause.ofCall, hm]
    exact bind_eq_ok.2 ⟨_, hk, rfl⟩
  | @sortTowards a d path direction hm ha hp hd =>
    have hk : sortKeyOf m.args = .ok ⟨Selector.pathText path, direction⟩ :=
      sortKeyOf_eq_ok.2 ⟨a, Selector.key_eq_ok.2 ⟨path, hp, rfl⟩, Or.inr ⟨d, ha, hd⟩⟩
    simp only [Clause.ofCall, hm]
    exact bind_eq_ok.2 ⟨_, hk, rfl⟩
  | sortDesc hm ha hp =>
    simp only [Clause.ofCall, hm]
    exact (@soleKey_eq_ok m _ fun f => .sort ⟨f, .descending⟩).2 ⟨_, _, ha, hp, rfl⟩
  | limit hm ha hn => simp [Clause.ofCall, hm, limitOf, ha, hn]
  | ignoredLimit hm ha hn => simp [Clause.ofCall, hm, limitOf, ha, hn]
  | emptyLimit hm ha => simp [Clause.ofCall, hm, limitOf, ha]

theorem ofCall_eq_ok {m : MethodCall} {c : Clause} : ofCall m = .ok c ↔ Adds m c :=
  ⟨adds_of_ofCall, Adds.ofCall⟩

theorem Adds.unique {m : MethodCall} {c c' : Clause} (h : Adds m c) (h' : Adds m c') : c = c' :=
  Except.ok.inj (h.ofCall.symm.trans h'.ofCall)

/-- the clauses of one kind that calls add, in the order of the calls -/
abbrev CollectKind {β : Type} (kind : β → Clause) : List MethodCall → List β → Prop :=
  Collects fun m b => Adds m (kind b)

theorem CollectKind.unique {β : Type} {kind : β → Clause}
    (hkind : ∀ b b', kind b = kind b' → b = b') {ms : List MethodCall} {bs bs' : List β}
    (h : CollectKind kind ms bs) (h' : CollectKind kind ms bs') : bs = bs' :=
  Collects.unique (fun _ _ _ hb hb' => hkind _ _ (hb.unique hb')) h h'

end Clause

/-! ### Whole chains -/

namespace Translation

open Clause

/-- the query collects what the root and the calls of the chain add -/
structure Projects (d : Dialect) (chain : Chain) (t : Translation) : Prop where
  same : t.chain = chain
  query : t.query = t.clauses.render
  /-- a root that is no tag names the pages -/
  pages : t.clauses.pages =
    if (Text.trim chain.source).toList.head? = some d.sigil then "" else Text.trim chain.source
  /-- the condition of a root that is a tag comes first -/
  conditions : ∃ texts, CollectKind .condition chain.calls texts ∧ t.clauses.conditions =
    (if (Text.trim chain.source).toList.head? = some d.sigil then
      [Condition.tagText (Text.trim chain.source)] else []) ++ texts
  listed : ∃ paths, CollectKind .listed chain.calls paths ∧ t.clauses.listed = paths.getLast?
  flattens : CollectKind .flatten chain.calls t.clauses.flattens
  sorts : CollectKind .sort chain.calls t.clauses.sorts
  groups : t.clauses.groups = []
  /-- an ignored limit does not take back an earlier one -/
  limit : ∃ counts, CollectKind .limit chain.calls counts ∧ t.clauses.limit = counts.getLast?
  warnings : ∃ texts, CollectKind .ignoredLimit chain.calls texts ∧
    t.warnings = texts.map fun text =>
      s!"limit argument '{text}' is not a finite number; no LIMIT emitted"

/-- the clause is a limit that is no number, with this text -/
def ignoredLimit? : Clause → Option String
  | .ignoredLimit text => some text
  | _ => none

theorem warning?_eq_map (c : Clause) :
    c.warning? = (ignoredLimit? c).map fun text =>
      s!"limit argument '{text}' is not a finite number; no LIMIT emitted" := by
  cases c <;> rfl

theorem projects_of_ofChain {chain : Chain} {d : Dialect} {t : Translation}
    (h : ofChain chain d = .ok t) : Projects d chain t := by
  obtain ⟨cs, hcs, hchain, hclauses, hquery, hwarnings⟩ := ofChain_eq_ok.1 h
  simp only [ofCall_eq_ok] at hcs
  have hkind : ∀ {β : Type} (kind : β → Clause) (ofKind? : Clause → Option β),
      (∀ c b, ofKind? c = some b ↔ c = kind b) →
        CollectKind kind chain.calls (cs.filterMap ofKind?) := by
    intro β kind ofKind? hk
    exact Collects.of_forall₂ (S := Adds) (fun _ _ _ => Adds.unique) hk hcs
  constructor
  case same => exact hchain
  case query => exact hquery
  case pages => rw [hclauses, Clauses.collect, Clauses.ofRoot_pages]
  case conditions =>
    refine ⟨_, hkind .condition condition? ?_, ?_⟩
    · intro c b
      cases c <;> simp [condition?]
    · rw [hclauses, Clauses.collect, Clauses.ofRoot_conditions, ← Condition.hasTag_render]
      rfl
  case listed =>
    refine ⟨_, hkind .listed listed? ?_, by rw [hclauses, Clauses.collect]⟩
    intro c b
    cases c <;> simp [listed?]
  case flattens =>
    rw [hclauses, Clauses.collect]
    refine hkind .flatten flatten? ?_
    intro c b
    cases c <;> simp [flatten?]
  case sorts =>
    rw [hclauses, Clauses.collect]
    refine hkind .sort sort? ?_
    intro c b
    cases c <;> simp [sort?]
  case groups => rw [hclauses, Clauses.collect]
  case limit =>
    refine ⟨_, hkind .limit limit? ?_, by rw [hclauses, Clauses.collect]⟩
    intro c b
    cases c <;> simp [limit?]
  case warnings =>
    refine ⟨_, hkind .ignoredLimit ignoredLimit? ?_, ?_⟩
    · intro c b
      cases c <;> simp [ignoredLimit?]
    · rw [hwarnings, List.map_filterMap]
      exact congrArg (cs.filterMap ·) (funext warning?_eq_map)

/-- only one query collects what a chain adds -/
theorem Projects.unique {chain : Chain} {d : Dialect} {t t' : Translation}
    (h : Projects d chain t) (h' : Projects d chain t') : t = t' := by
  obtain ⟨texts, htexts, hconditions⟩ := h.conditions
  obtain ⟨texts', htexts', hconditions'⟩ := h'.conditions
  obtain ⟨paths, hpaths, hlisted⟩ := h.listed
  obtain ⟨paths', hpaths', hlisted'⟩ := h'.listed
  obtain ⟨counts, hcounts, hlimit⟩ := h.limit
  obtain ⟨counts', hcounts', hlimit'⟩ := h'.limit
  obtain ⟨ignored, hignored, hwarnings⟩ := h.warnings
  obtain ⟨ignored', hignored', hwarnings'⟩ := h'.warnings
  obtain rfl := htexts.unique (fun _ _ => condition.inj) htexts'
  obtain rfl := hpaths.unique (fun _ _ => listed.inj) hpaths'
  obtain rfl := hcounts.unique (fun _ _ => limit.inj) hcounts'
  obtain rfl := hignored.unique (fun _ _ => ignoredLimit.inj) hignored'
  have hclauses : t.clauses = t'.clauses := by
    rw [Clauses.mk.injEq]
    exact ⟨h.pages.trans h'.pages.symm, hlisted.trans hlisted'.symm,
      hconditions.trans hconditions'.symm, h.sorts.unique (fun _ _ => sort.inj) h'.sorts,
      h.groups.trans h'.groups.symm, h.flattens.unique (fun _ _ => flatten.inj) h'.flattens,
      hlimit.trans hlimit'.symm⟩
  rw [mk.injEq]
  refine ⟨?_, hclauses, h.same.trans h'.same.symm, hwarnings.trans hwarnings'.symm⟩
  rw [h.query, h'.query, hclauses]

/-- a chain is lowered exactly if each of its calls adds a clause -/
theorem exists_ofChain_iff {chain : Chain} {d : Dialect} :
    (∃ t, ofChain chain d = .ok t) ↔ ∀ m ∈ chain.calls, ∃ c, Adds m c := by
  rw [← exists_forall₂_iff]
  constructor
  · rintro ⟨t, ht⟩
    obtain ⟨cs, hcs, -⟩ := ofChain_eq_ok.1 ht
    simp only [ofCall_eq_ok] at hcs
    exact ⟨cs, hcs⟩
  · rintro ⟨cs, hcs⟩
    have hcs : List.Forall₂ (fun m c => ofCall m = .ok c) chain.calls cs :=
      hcs.imp fun _ _ => Adds.ofCall
    obtain ⟨t, ht, -⟩ := exists_ofChain (mapM_eq_ok.2 hcs) d
    exact ⟨t, ht⟩

theorem ofChain_eq_error {chain : Chain} {d : Dialect} {e : QueryError} :
    ofChain chain d = .error e ↔ chain.calls.mapM Clause.ofCall = .error e := by
  rw [ofChain, bind_eq_error]
  simp [pure, Except.pure]

theorem ofChain_single_eq_error {source : String} {m : MethodCall} {d : Dialect} {e : QueryError} :
    ofChain ⟨source, [m]⟩ d = .error e ↔ ofCall m = .error e := by
  rw [ofChain_eq_error, mapM_eq_error]
  constructor
  · rintro ⟨before, x, after, hm, -, hx⟩
    obtain ⟨rfl, h⟩ | ⟨rest, rfl, h⟩ := List.cons_eq_append_iff.1 hm
    · obtain ⟨rfl, -⟩ := List.cons.inj h
      exact hx
    · simp at h
  · intro hm
    exact ⟨[], m, [], rfl, by simp, hm⟩

/-- **A query collects what the calls of its chain add.**  A chain is lowered exactly if each of its
calls adds a clause on its own; the query is then the one whose parts are what the calls of each kind
add, in the order of the calls, and of parts that occur once the last.  Otherwise the error is the
one that the first call that adds nothing has as a chain of its own. -/
theorem ofChain_projects (chain : Chain) (d : Dialect) :
    ((∃ t, ofChain chain d = .ok t) ↔ ∀ m ∈ chain.calls, ∃ c, Adds m c) ∧
    (∀ t, ofChain chain d = .ok t ↔ (∀ m ∈ chain.calls, ∃ c, Adds m c) ∧ Projects d chain t) ∧
    ∀ e, ofChain chain d = .error e ↔ ∃ before m after, chain.calls = before ++ m :: after ∧
      (∀ m' ∈ before, ∃ c, Adds m' c) ∧ ofChain ⟨chain.source, [m]⟩ d = .error e := by
  refine ⟨exists_ofChain_iff, fun t => ⟨?_, ?_⟩, fun e => ?_⟩
  · intro h
    exact ⟨exists_ofChain_iff.1 ⟨t, h⟩, projects_of_ofChain h⟩
  · rintro ⟨hcalls, h⟩
    obtain ⟨t', ht'⟩ := exists_ofChain_iff.2 hcalls
    rwa [h.unique (projects_of_ofChain ht')]
  · simp only [ofChain_single_eq_error]
    simp only [ofChain_eq_error, mapM_eq_error, ofCall_eq_ok]

end Translation

end PageQuery
