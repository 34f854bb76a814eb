import PageQuery.Proofs.Core
import PageQuery.Proofs.Meaning

/-!
# Conjunctions and filters one after the other

The text of a conjunction is made of the texts of its conjuncts: `fragment_allOf`.  So a filter by a
conjunction is lowered to the same query as two filters, and if one of both chains is lowered so is the
other: `together_filters`.
-/

namespace PageQuery

open Script Script.Expr

/-! ### Texts -/

/-- joining the joins of lists that are not empty is joining all of them -/
theorem intercalate_map_intercalate {sep : String} {xss : List (List String)}
    (h : ∀ xs ∈ xss, xs ≠ []) :
    String.intercalate sep (xss.map (String.intercalate sep)) =
      String.intercalate sep xss.flatten := by
  induction xss with
  | nil => rfl
  | cons xs xss ih =>
    obtain ⟨hxs, hxss⟩ := List.forall_mem_cons.1 h
    by_cases hnil : xss = []
    · simp [hnil]
    · have hflat : xss.flatten ≠ [] := by
        obtain ⟨ys, yss, rfl⟩ := List.exists_cons_of_ne_nil hnil
        simp [hxss ys List.mem_cons_self]
      rw [List.map_cons, String.intercalate_cons_of_ne_nil (by simpa using hnil), ih hxss,
        List.flatten_cons, String.intercalate_append_of_ne_nil hxs hflat]

namespace Condition

/-- the text of a condition joins the texts of its requirements -/
theorem fragment_eq_intercalate (c : Condition) :
    c.fragment = String.intercalate " AND " (c.asRequirements.map (termText .and)) := by
  cases c with
  | all terms =>
    show (Condition.all terms).render = _
    rw [render, renderAll_eq_map]
    rfl
  | _ => exact String.intercalate_singleton.symm

/-- **Conjunctions.**  The text of a conjunction joins the texts of its conjuncts. -/
theorem fragment_allOf {cs : List Condition} (h : ∀ c ∈ cs, c.asRequirements ≠ []) :
    (allOf cs).fragment = String.intercalate " AND " (cs.map (·.fragment)) := by
  have hne : ∀ xs ∈ cs.map fun c => c.asRequirements.map (termText .and), xs ≠ [] := by
    intro xs hxs
    obtain ⟨c, hc, rfl⟩ := List.mem_map.1 hxs
    simpa using h c hc
  calc (allOf cs).fragment
    _ = String.intercalate " AND " ((cs.flatMap asRequirements).map (termText .and)) :=
      fragment_eq_intercalate (allOf cs)
    _ = String.intercalate " AND "
        (cs.map fun c => c.asRequirements.map (termText .and)).flatten := by
      rw [List.map_flatMap, List.flatMap_def]
    _ = String.intercalate " AND "
        ((cs.map fun c => c.asRequirements.map (termText .and)).map
          (String.intercalate " AND ")) := (intercalate_map_intercalate hne).symm
    _ = String.intercalate " AND " (cs.map (·.fragment)) := by
      rw [List.map_map]
      exact congrArg _ (List.map_congr_left fun c _ => (fragment_eq_intercalate c).symm)

/-- a condition that is read off an expression has requirements -/
theorem asRequirements_ne_nil {p : String} {e : Expr} {c : Condition} (h : ofExpr p e = .ok c) :
    c.asRequirements ≠ [] := by
  obtain ⟨f, hf, rfl⟩ := ofExpr_eq_ok.1 h
  exact hf.readable.asRequirements.1

end Condition

/-! ### Filters -/

/-- the call filters by a callback of this parameter with this result -/
def MethodCall.Filters (m : MethodCall) (p : String) (body : Expr) : Prop :=
  m.IsConditional ∧ ∃ a e, m.args = [a] ∧ a.expr = .ok e ∧ e.IsLambda p body

theorem Clause.ofCall_of_filters {m : MethodCall} {p : String} {body : Expr}
    (h : m.Filters p body) :
    ofCall m = Condition.ofExpr p body >>= fun c => pure (Clause.condition c.fragment) := by
  obtain ⟨hm, a, e, hargs, he, hl⟩ := h
  have hcall : ofCall m = conditionOf m := by
    rcases hm with hm | hm <;> simp only [ofCall, hm]
  have harg : Condition.ofArg a = Condition.ofExpr p body := by
    have hlambda : e.lambda? = some (p, body.unparen) := lambda?_eq_some.2 ⟨body, hl, rfl⟩
    rw [Condition.ofArg, he, ← Condition.ofExpr_unparen body]
    simp only [bind, Except.bind, hlambda]
  rw [hcall, conditionOf, soleArgument_eq_ok.2 hargs]
  exact congrArg (· >>= fun c => pure (Clause.condition c.fragment)) harg

namespace Clauses

/-- the text of a query has its conditions joined -/
theorem render_congr {c c' : Clauses} (h : { c with conditions := [] } = { c' with conditions := [] })
    (hnil : c.conditions.isEmpty = c'.conditions.isEmpty)
    (htext : String.intercalate " AND " c.conditions = String.intercalate " AND " c'.conditions) :
    c.render = c'.render := by
  obtain ⟨pages, listed, conditions, sorts, groups, flattens, limit⟩ := c
  obtain ⟨pages', listed', conditions', sorts', groups', flattens', limit'⟩ := c'
  simp only [mk.injEq] at h
  obtain ⟨rfl, rfl, -, rfl, rfl, rfl, rfl⟩ := h
  simp only at hnil htext
  simp only [render, renderEach, hnil, htext]

/-- two conditions in a row are written as their conjunction -/
theorem render_collect_conjunction (root : Clauses) (before after : List Clause) (s t : String) :
    (collect root (before ++ .condition s :: .condition t :: after)).render =
      (collect root (before ++ .condition (s ++ " AND " ++ t) :: after)).render := by
  have hjoin : ∀ xs ys : List String, String.intercalate " AND " (xs ++ s :: t :: ys) =
      String.intercalate " AND " (xs ++ (s ++ " AND " ++ t) :: ys) := by
    intro xs ys
    have hflat := @intercalate_map_intercalate " AND " (xs.map ([·]) ++ [s, t] :: ys.map ([·]))
    have hsingle : ∀ zs : List String,
        (zs.map ([·])).map (String.intercalate " AND ") = zs := by
      intro zs
      simp [Function.comp_def]
    have hpair : String.intercalate " AND " [s, t] = s ++ " AND " ++ t := by
      rw [String.intercalate_cons_of_ne_nil (by simp), String.intercalate_singleton]
    rw [List.map_append, List.map_cons, hsingle, hsingle, hpair] at hflat
    rw [hflat]
    · simp [← List.flatMap_def]
    · simp only [List.mem_append, List.mem_cons, List.mem_map]
      rintro zs (⟨x, -, rfl⟩ | rfl | ⟨x, -, rfl⟩) <;> simp
  refine render_congr ?_ ?_ ?_
  · simp only [collect, List.filterMap_append, List.filterMap_cons, Clause.listed?, Clause.sort?,
      Clause.flatten?, Clause.limit?]
  · simp only [collect, List.filterMap_append, List.filterMap_cons, Clause.condition?]
    rw [List.isEmpty_eq_false_iff.2 (by simp), List.isEmpty_eq_false_iff.2 (by simp)]
  · simp only [collect, List.filterMap_append, List.filterMap_cons, Clause.condition?,
      ← List.append_assoc]
    exact hjoin _ _

end Clauses

namespace Translation

/-- **Filters one after the other.**  Two filters in a row can be written as one filter by the
conjunction of their results, whatever calls stand around them: both chains are lowered to the same query
with the same warnings, or neither is lowered.  And the text of a conjunction of conditions that are
read off expressions joins their texts. -/
theorem together_filters {first second both : MethodCall} {p : String} {a b ab : Expr}
    (hfirst : first.Filters p a) (hsecond : second.Filters p b) (hboth : both.Filters p ab)
    (hab : ab.core = (Expr.binary .and a b).core)
    (source : String) (before after : List MethodCall) (d : Dialect) :
    Together (fun t t' => t.query = t'.query ∧ t.warnings = t'.warnings)
      (ofChain ⟨source, before ++ first :: second :: after⟩ d)
      (ofChain ⟨source, before ++ both :: after⟩ d) ∧
    ∀ cs : List Condition, (∀ c ∈ cs, ∃ q e, Condition.ofExpr q e = .ok c) →
      (Condition.allOf cs).fragment = String.intercalate " AND " (cs.map (·.fragment)) := by
  have htext : ∀ cs : List Condition, (∀ c ∈ cs, ∃ q e, Condition.ofExpr q e = .ok c) →
      (Condition.allOf cs).fragment = String.intercalate " AND " (cs.map (·.fragment)) := by
    intro cs hcs
    refine Condition.fragment_allOf fun c hc => ?_
    obtain ⟨q, e, he⟩ := hcs c hc
    exact Condition.asRequirements_ne_nil he
  refine ⟨?_, htext⟩
  have hconjunction : Condition.ofExpr p ab = Condition.ofExpr p a >>= fun c =>
      Condition.ofExpr p b >>= fun c' => pure (Condition.allOf [c, c']) := by
    rw [← Condition.ofExpr_core, hab, Condition.ofExpr_core, Condition.ofExpr]
  simp only [ofChain, List.mapM_append, List.mapM_cons, Clause.ofCall_of_filters hfirst,
    Clause.ofCall_of_filters hsecond, Clause.ofCall_of_filters hboth, hconjunction, bind_assoc,
    pure_bind]
  -- both chains read the same results in the same order, up to the calls that follow
  refine .bind_same fun xs _ => .bind_same fun c hc => .bind_same fun c' hc' =>
    .bind_same fun ys _ => ?_
  have hpair : (Condition.allOf [c, c']).fragment = c.fragment ++ " AND " ++ c'.fragment := by
    rw [htext [c, c']]
    · rw [List.map_cons, String.intercalate_cons_of_ne_nil (by simp)]
      simp
    · intro d hd
      rcases List.mem_cons.1 hd with rfl | hd
      · exact ⟨p, a, hc⟩
      · rw [List.mem_singleton.1 hd]
        exact ⟨p, b, hc'⟩
  rw [hpair]
  refine .ok ⟨?_, ?_⟩
  · dsimp only
    rw [Clauses.render_collect_conjunction]
  · simp only [List.filterMap_append, List.filterMap_cons, Clause.warning?]

/-- a filter by this callback of the parameter p -/
def filterBy (body : Expr) : MethodCall := ⟨"where", [⟨"", some (.arrow false [some "p"] (some body))⟩]⟩

theorem filterBy_filters (body : Expr) : (filterBy body).Filters "p" body :=
  ⟨Or.inl rfl, _, _, rfl, rfl, .arrow "p" body⟩

/-- one of two fields and not a third one -/
theorem either_and_not_in_two_filters :
    let a : Expr := .field (.identifier "p") "a"
    let b : Expr := .field (.identifier "p") "b"
    let c : Expr := .field (.identifier "p") "c"
    let limit : MethodCall := ⟨"limit", [⟨"5", none⟩]⟩
    let split : Chain := ⟨"#x", [filterBy (.binary .or a b), filterBy (.unary .not c), limit]⟩
    let whole : Chain :=
      ⟨"#x", [filterBy (.binary .and (.paren (.binary .or a b)) (.unary .not c)), limit]⟩
    Together (fun t t' => t.query = t'.query ∧ t.warnings = t'.warnings)
        (ofChain split {}) (ofChain whole {}) ∧
      (∃ d d', Condition.ofExpr "p" (.binary .or a b) = .ok d ∧
        Condition.ofExpr "p" (.unary .not c) = .ok d' ∧
        (Condition.allOf [d, d']).fragment = String.intercalate " AND " [d.fragment, d'.fragment]) ∧
      (ofChain whole {}).toOption.map (·.query) =
        some "LIST WHERE contains(file.tags, \"#x\") AND (a OR b) AND !c LIMIT 5" := by
  intro a b c limit split whole
  have hsplit := together_filters (filterBy_filters (.binary .or a b))
    (filterBy_filters (.unary .not c))
    (filterBy_filters (.binary .and (.paren (.binary .or a b)) (.unary .not c))) rfl
    "#x" [] [limit] {}
  refine ⟨hsplit.1, ⟨_, _, rfl, rfl, hsplit.2 _ ?_⟩, by decide +kernel⟩
  simp only [List.forall_mem_cons, List.not_mem_nil, false_implies, implies_true, and_true]
  exact ⟨⟨"p", .binary .or a b, rfl⟩, ⟨"p", .unary .not c, rfl⟩⟩

end Translation

end PageQuery
