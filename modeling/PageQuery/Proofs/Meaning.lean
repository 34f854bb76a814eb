import PageQuery.Proofs.Predicate
import PageQuery.Proofs.Lowering
import PageQuery.Proofs.Rendering

/-!
# What a query selects

The callbacks of a chain state formulas (`States`), and the text of the conditions that the chain is
lowered to is read back as their conjunction, together with the tag of the root if there is one:
`Translation.conditions_read_back`.  Atoms are true or false by their texts alone.
-/

namespace PageQuery

open Script Where

namespace Condition

/-- the text that asks for a tag -/
def tagText (tag : String) : String := "contains(file.tags, " ++ Text.quote tag ++ ")"

/-- the truth of a formula of a script by the truth of its atoms, which go by their texts -/
def Formula.eval (v : String → Bool) : Formula → Bool
  | .atom c => v c.render
  | .tags .every ts => ts.all fun tag => v (tagText tag)
  | .tags .some ts => ts.any fun tag => v (tagText tag)
  | .not f => !f.eval v
  | .and f g => f.eval v && g.eval v
  | .or f g => f.eval v || g.eval v

/-! ### Conditions of formulas -/

theorem hasTag_render (tag : String) : (hasTag tag).render = tagText tag := by
  have hstart : "contains(" ++ String.intercalate "." ["file", "tags"] ++ ", " =
      "contains(file.tags, " := by
    decide
  show "contains(" ++ String.intercalate "." ["file", "tags"] ++ ", " ++ Text.quote tag ++ ")" =
    tagText tag
  rw [hstart]
  rfl

theorem hasTag_readable (tag : String) : (hasTag tag).Readable := by
  refine .contains ⟨by simp, ?_⟩ trivial
  intro n hn
  simp only [List.mem_cons, List.not_mem_nil, or_false] at hn
  rw [← Expr.isPathName_iff]
  rcases hn with rfl | rfl <;> decide

theorem holdsAll_eq_all (v : String → Bool) (cs : List Condition) :
    holdsAll v cs = cs.all (·.holds v) := by
  induction cs with
  | nil => rfl
  | cons c cs ih => rw [holdsAll, ih, List.all_cons]

theorem holdsAny_eq_any (v : String → Bool) (cs : List Condition) :
    holdsAny v cs = cs.any (·.holds v) := by
  induction cs with
  | nil => rfl
  | cons c cs ih => rw [holdsAny, ih, List.any_cons]

theorem all_asRequirements (v : String → Bool) (c : Condition) :
    c.asRequirements.all (·.holds v) = c.holds v := by
  cases c with
  | all terms => exact (holdsAll_eq_all v terms).symm
  | _ => exact Bool.and_true _

theorem any_asAlternatives (v : String → Bool) (c : Condition) :
    c.asAlternatives.any (·.holds v) = c.holds v := by
  cases c with
  | any terms => exact (holdsAny_eq_any v terms).symm
  | _ => exact Bool.or_false _

theorem allOf_holds (v : String → Bool) (c d : Condition) :
    (allOf [c, d]).holds v = (c.holds v && d.holds v) := by
  simp [allOf, holds, holdsAll_eq_all, all_asRequirements]

theorem anyOf_holds (v : String → Bool) (c d : Condition) :
    (anyOf [c, d]).holds v = (c.holds v || d.holds v) := by
  simp [anyOf, holds, holdsAny_eq_any, any_asAlternatives]

theorem Readable.asRequirements {c : Condition} (h : c.Readable) :
    c.asRequirements ≠ [] ∧ ∀ d ∈ c.asRequirements, d.Readable := by
  cases c with
  | all terms =>
    cases h with
    | all hne hc => exact ⟨hne, hc⟩
  | _ => simpa [Condition.asRequirements] using h

theorem Readable.asAlternatives {c : Condition} (h : c.Readable) :
    c.asAlternatives ≠ [] ∧ ∀ d ∈ c.asAlternatives, d.Readable := by
  cases c with
  | any terms =>
    cases h with
    | any hne hc => exact ⟨hne, hc⟩
  | _ => simpa [Condition.asAlternatives] using h

theorem Readable.allOf {c d : Condition} (hc : c.Readable) (hd : d.Readable) :
    (allOf [c, d]).Readable := by
  obtain ⟨hne, hc⟩ := hc.asRequirements
  obtain ⟨-, hd⟩ := hd.asRequirements
  refine .all (by simp [hne]) ?_
  intro e he
  simp only [List.flatMap_cons, List.flatMap_nil, List.append_nil, List.mem_append] at he
  exact he.elim (hc e) (hd e)

theorem Readable.anyOf {c d : Condition} (hc : c.Readable) (hd : d.Readable) :
    (anyOf [c, d]).Readable := by
  obtain ⟨hne, hc⟩ := hc.asAlternatives
  obtain ⟨-, hd⟩ := hd.asAlternatives
  refine .any (by simp [hne]) ?_
  intro e he
  simp only [List.flatMap_cons, List.flatMap_nil, List.append_nil, List.mem_append] at he
  exact he.elim (hc e) (hd e)

theorem readable_of_isOperand {p : String} {e : Expr} {o : Operand} (h : IsOperand p e o) :
    o.Readable := by
  induction h with
  | field h => exact ⟨h.2, h.1.names⟩
  | paren _ ih => exact ih
  | _ => exact trivial

theorem quantifier_condition_readable {tags : List String} (hne : tags ≠ []) (q : Quantifier) :
    (q.condition tags).Readable := by
  have hne : tags.map hasTag ≠ [] := by simpa using hne
  have htags : ∀ c ∈ tags.map hasTag, c.Readable := by
    intro c hc
    obtain ⟨tag, -, rfl⟩ := List.mem_map.1 hc
    exact hasTag_readable tag
  cases q with
  | every => exact .all hne htags
  | some => exact .any hne htags

/-- the condition of a stated formula can be read back -/
theorem States.readable {p : String} {e : Expr} {f : Formula} (h : States p e f) :
    f.condition.Readable := by
  induction h with
  | tags h => exact quantifier_condition_readable h.1 _
  | and _ _ ihl ihr => exact ihl.allOf ihr
  | or _ _ ihl ihr => exact ihl.anyOf ihr
  | not _ ih => exact .not ih
  | compare _ hl hr => exact .compare (readable_of_isOperand hl) (readable_of_isOperand hr)
  | contains _ hh hn => exact .contains (readable_of_isOperand hh) (readable_of_isOperand hn)
  | field h => exact .truthy ⟨h.2, h.1.names⟩
  | bool b => exact .truthy trivial
  | paren _ ih => exact ih

theorem quantifier_condition_holds (v : String → Bool) (q : Quantifier) (tags : List String) :
    (q.condition tags).holds v = (Formula.tags q tags).eval v := by
  have htag : ∀ tag, (hasTag tag).holds v = v (tagText tag) := by
    intro tag
    rw [← hasTag_render]
    rfl
  cases q with
  | every =>
    simp [Quantifier.condition, holds, holdsAll_eq_all, Formula.eval, htag, Function.comp_def]
  | some =>
    simp [Quantifier.condition, holds, holdsAny_eq_any, Formula.eval, htag, Function.comp_def]

/-- the condition of a stated formula means what the formula means -/
theorem States.holds {p : String} {e : Expr} {f : Formula} (h : States p e f)
    (v : String → Bool) : f.condition.holds v = f.eval v := by
  induction h with
  | tags _ => exact quantifier_condition_holds v _ _
  | and _ _ ihl ihr => rw [Formula.condition, allOf_holds, ihl, ihr]; rfl
  | or _ _ ihl ihr => rw [Formula.condition, anyOf_holds, ihl, ihr]; rfl
  | not _ ih => exact congrArg (!·) ih
  | compare _ _ _ => rfl
  | contains _ _ _ => rfl
  | field _ => rfl
  | bool b => rfl
  | paren _ ih => exact ih

end Condition

/-! ### Conditions of chains -/

/-- the call puts a condition on the pages -/
def MethodCall.IsConditional (m : MethodCall) : Prop := m.method = "where" ∨ m.method = "filter"

/-- the callback of the call states a formula that is true -/
def MethodCall.Holds (v : String → Bool) (m : MethodCall) : Prop :=
  ∃ a e p body f, m.args = [a] ∧ a.expr = .ok e ∧ e.IsLambda p body ∧
    Condition.States p body f ∧ f.eval v = true

/-- only the calls that put a condition on the pages add one -/
theorem Clause.ofCall_condition {m : MethodCall} {c : Clause} (h : ofCall m = .ok c) :
    m.IsConditional ∧ conditionOf m = .ok c ∨ ¬ m.IsConditional ∧ c.condition? = none := by
  have hnot : ∀ {method : String}, m.method = method → method ≠ "where" → method ≠ "filter" →
      ¬ m.IsConditional := by
    rintro _ rfl hw hf (h | h)
    exacts [hw h, hf h]
  rcases ofCall_cases h with ⟨hm, h⟩ | ⟨hm, -, -, -, -, rfl⟩ | ⟨hm, -, -, -, -, rfl⟩ |
    ⟨hm, -, -, rfl⟩ | ⟨hm, -, -, -, -, rfl⟩ | ⟨hm, rfl⟩
  · exact .inl ⟨hm, h⟩
  all_goals refine .inr ⟨hnot hm (by decide) (by decide), ?_⟩
  all_goals first | rfl | (unfold limitOf; split <;> rfl)

/-- the texts are those of readable conditions, which together mean this -/
def AreConditions (texts : List String) (meaning : (String → Bool) → Prop) : Prop :=
  ∃ ds : List Condition, texts = ds.map (·.fragment) ∧ (∀ d ∈ ds, d.Readable) ∧
    ∀ v, ds.all (·.holds v) = true ↔ meaning v

theorem areConditions_of_conditionOf {m : MethodCall} {c : Clause}
    (h : Clause.conditionOf m = .ok c) :
    ∃ d : Condition, c = .condition d.fragment ∧ d.Readable ∧
      ∀ v, d.holds v = true ↔ m.Holds v := by
  obtain ⟨a, d, ha, hd, rfl⟩ := Clause.conditionOf_eq_ok.1 h
  obtain ⟨e, p, body, f, he, hl, hf, rfl⟩ := Condition.ofArg_eq_ok.1 hd
  refine ⟨_, rfl, hf.readable, fun v => ?_⟩
  constructor
  · intro hv
    exact ⟨a, e, p, body, f, ha, he, hl, hf, hf.holds v ▸ hv⟩
  · rintro ⟨a', e', p', body', f', ha', he', hl', hf', hv⟩
    -- the argument is read as one condition, whatever formula it is seen to state
    obtain rfl : a' = a := by
      rw [ha'] at ha
      exact (List.cons.inj ha).1
    have hd' : Condition.ofArg a' = .ok f'.condition :=
      Condition.ofArg_eq_ok.2 ⟨e', p', body', f', he', hl', hf', rfl⟩
    rw [← Except.ok.inj (hd'.symm.trans hd), hf'.holds]
    exact hv

theorem areConditions_calls {calls : List MethodCall} {cs : List Clause}
    (h : List.Forall₂ (fun m c => Clause.ofCall m = .ok c) calls cs) :
    AreConditions (cs.filterMap Clause.condition?) fun v =>
      ∀ m ∈ calls, m.IsConditional → m.Holds v := by
  induction h with
  | nil => exact ⟨[], rfl, by simp, by simp⟩
  | @cons m c calls cs hc _ ih =>
    obtain ⟨ds, hds, hread, hmean⟩ := ih
    rcases Clause.ofCall_condition hc with ⟨hm, hcond⟩ | ⟨hm, hnone⟩
    · obtain ⟨d, rfl, hd, hv⟩ := areConditions_of_conditionOf hcond
      refine ⟨d :: ds, ?_, ?_, ?_⟩
      · rw [List.filterMap_cons, hds]
        rfl
      · intro d' hd'
        rcases List.mem_cons.1 hd' with rfl | hd'
        · exact hd
        · exact hread d' hd'
      · intro v
        simp only [List.all_cons, Bool.and_eq_true, hv, hmean, List.forall_mem_cons, hm,
          true_implies]
    · refine ⟨ds, ?_, hread, ?_⟩
      · rw [List.filterMap_cons, hnone, hds]
      · intro v
        simp only [hmean, List.forall_mem_cons, hm, false_implies, true_and]

theorem areConditions_ofRoot (d : Dialect) (source : String) :
    AreConditions (Clauses.ofRoot d source).conditions fun v =>
      (Text.trim source).toList.head? = some d.sigil →
        v (Condition.tagText (Text.trim source)) = true := by
  rw [Clauses.ofRoot_conditions]
  generalize Text.trim source = root
  by_cases hroot : root.toList.head? = some d.sigil
  · have htag : ∀ v, (Condition.hasTag root).holds v = v (Condition.tagText root) := by
      intro v
      rw [← Condition.hasTag_render]
      rfl
    refine ⟨[Condition.hasTag root], by simp [hroot], ?_, by simp [hroot, htag]⟩
    intro c hc
    rw [List.mem_singleton.1 hc]
    exact Condition.hasTag_readable root
  · exact ⟨[], by simp [hroot], by simp, by simp [hroot]⟩

theorem AreConditions.append {texts texts' : List String} {m m' : (String → Bool) → Prop}
    (h : AreConditions texts m) (h' : AreConditions texts' m') :
    AreConditions (texts ++ texts') fun v => m v ∧ m' v := by
  obtain ⟨ds, rfl, hd, hm⟩ := h
  obtain ⟨ds', rfl, hd', hm'⟩ := h'
  refine ⟨ds ++ ds', (List.map_append ..).symm, ?_, ?_⟩
  · intro d hmem
    exact (List.mem_append.1 hmem).elim (hd d) (hd' d)
  · intro v
    rw [List.all_append, Bool.and_eq_true, hm, hm']

/-- texts of conditions can be joined with AND -/
theorem AreConditions.read {texts : List String} {m : (String → Bool) → Prop}
    (h : AreConditions texts m) (hne : texts ≠ []) :
    ∃ r, Where.read (String.intercalate " AND " texts) = some r ∧ ∀ v, r.eval v = true ↔ m v := by
  obtain ⟨ds, rfl, hd, hm⟩ := h
  have hjoin : IsReadAs .and (String.intercalate " AND " (ds.map (·.fragment)))
      fun v => Condition.joined .and v ds :=
    Condition.isReadAs_join (by simpa using hne) fun d hmem => (hd d hmem).isReadAs .and
  obtain ⟨r, hr, hv⟩ := hjoin.read
  refine ⟨r, hr, fun v => ?_⟩
  rw [hv, ← hm]
  show Condition.holdsAll v ds = true ↔ _
  rw [Condition.holdsAll_eq_all]

namespace Translation

/-- **What a query selects.**  The conditions of a query, joined with AND, are read as a whole.
Whatever the truth of the atoms, they are true exactly if the page has the tag that the root names,
if it names one, and if the callbacks of all calls that put a condition on the pages are true. -/
theorem conditions_read_back {chain : Chain} {d : Dialect} {t : Translation}
    (h : ofChain chain d = .ok t) (hne : t.clauses.conditions ≠ []) :
    ∃ r, Where.read (String.intercalate " AND " t.clauses.conditions) = some r ∧
      ∀ v, r.eval v = true ↔
        ((Text.trim chain.source).toList.head? = some d.sigil →
          v (Condition.tagText (Text.trim chain.source)) = true) ∧
        ∀ m ∈ chain.calls, m.IsConditional → m.Holds v := by
  obtain ⟨cs, hcs, -, hclauses, -⟩ := ofChain_eq_ok.1 h
  have hconditions : t.clauses.conditions =
      (Clauses.ofRoot d chain.source).conditions ++ cs.filterMap Clause.condition? := by
    rw [hclauses, Clauses.collect]
  rw [hconditions] at hne ⊢
  exact ((areConditions_ofRoot d chain.source).append (areConditions_calls hcs)).read hne

/-- a chain with a tag at its root and a condition with groups -/
def tagged : Chain := ⟨"#book", [⟨"where", [⟨"p => (p.a || p.b) && !p.c", none⟩]⟩]⟩

theorem tagged_conditions_read_back :
    ∃ t, ofChain tagged {} = .ok t ∧
      t.clauses.conditions = ["contains(file.tags, \"#book\")", "(a OR b) AND !c"] ∧
      ∃ r, Where.read (String.intercalate " AND " t.clauses.conditions) = some r ∧
        ∀ v, r.eval v = true ↔
          v "contains(file.tags, \"#book\")" = true ∧ ∀ m ∈ tagged.calls, m.Holds v := by
  have heval : (ofChain tagged {}).toOption.map (·.clauses.conditions) =
      some ["contains(file.tags, \"#book\")", "(a OR b) AND !c"] := by
    decide +kernel
  cases ht : ofChain tagged {} with
  | error f =>
    rw [ht] at heval
    cases heval
  | ok t =>
    rw [ht] at heval
    have hconditions : t.clauses.conditions =
        ["contains(file.tags, \"#book\")", "(a OR b) AND !c"] :=
      Option.some.inj heval
    obtain ⟨r, hr, hv⟩ := conditions_read_back ht (by simp [hconditions])
    have hroot : Text.trim tagged.source = "#book" := by
      decide +kernel
    have htag : Condition.tagText "#book" = "contains(file.tags, \"#book\")" := by
      decide +kernel
    have hcalls : ∀ m ∈ tagged.calls, m.IsConditional := by
      intro m hm
      rw [List.mem_singleton.1 hm]
      exact Or.inl rfl
    refine ⟨t, rfl, hconditions, r, hr, fun v => ?_⟩
    rw [hv, hroot, htag]
    constructor
    · rintro ⟨hsource, hholds⟩
      exact ⟨hsource rfl, fun m hm => hholds m hm (hcalls m hm)⟩
    · rintro ⟨hsource, hholds⟩
      exact ⟨fun _ => hsource, fun m hm _ => hholds m hm⟩

end Translation

end PageQuery
