import Mathlib.Logic.Relation
import PageQuery.Proofs.Correspondence
import PageQuery.Proofs.Rendering

/-!
# Runs of one operator

Conditions that one operator joins are one group, however they are grouped in the script.

* `ofExpr_run`: a run of one operator is read operand by operand, from left to right.
* `ofExpr_reassociated`: re-associating runs anywhere within an expression changes neither the condition
  nor the error, and conditions are in normal form (`Normal`): no group is empty or directly within a
  group of its kind.
-/

namespace PageQuery

open Script Script.Expr Where

/-- the operator of a script that joins conditions -/
def Where.Connective.operator : Connective → BinaryOp
  | and => .and
  | or => .or

namespace Condition

variable {p : String}

/-- the terms a condition has in a group -/
def termsIn : Connective → Condition → List Condition
  | .and => asRequirements
  | .or => asAlternatives

/-- the terms of all the conditions as one group -/
def group : Connective → List Condition → Condition
  | .and => allOf
  | .or => anyOf

theorem termsIn_group (k : Connective) (cs : List Condition) :
    termsIn k (group k cs) = cs.flatMap (termsIn k) := by
  cases k <;> rfl

theorem group_congr {k : Connective} {cs ds : List Condition}
    (h : cs.flatMap (termsIn k) = ds.flatMap (termsIn k)) : group k cs = group k ds := by
  cases k with
  | and => exact congrArg all h
  | or => exact congrArg any h

/-- a group that begins another one of its kind -/
theorem group_group_cons (k : Connective) (cs ds : List Condition) :
    group k (group k cs :: ds) = group k (cs ++ ds) :=
  group_congr (by rw [List.flatMap_cons, termsIn_group, List.flatMap_append])

theorem group_assoc (k : Connective) (a b c : Condition) :
    group k [group k [a, b], c] = group k [a, group k [b, c]] :=
  group_congr (by simp [termsIn_group])

theorem ofExpr_join (k : Connective) (l r : Expr) :
    ofExpr p (.binary k.operator l r) =
      ofExpr p l >>= fun a => ofExpr p r >>= fun b => pure (group k [a, b]) := by
  cases k <;> rfl

/-! ### Runs -/

/-- the operands of a run of one operator, from left to right; such runs nest to the left -/
def runOperands (op : BinaryOp) : Expr → List Expr
  | .paren e => runOperands op e
  | .binary op' l r => if op' = op then runOperands op l ++ [r] else [.binary op' l r]
  | e => [e]

theorem group_runOperands (k : Connective) (e : Expr) :
    ((runOperands k.operator e).mapM (ofExpr p) >>= fun cs => pure (group k cs)) =
      ofExpr p e >>= fun c => pure (group k [c]) := by
  induction e using runOperands.induct k.operator with
  | case1 e ih => exact ih
  | case2 l r ih =>
    -- the group of the operands before the last one is read first
    calc (runOperands k.operator (.binary k.operator l r)).mapM (ofExpr p) >>=
          (fun cs => pure (group k cs))
      _ = ((runOperands k.operator l).mapM (ofExpr p) >>= fun cs => pure (group k cs)) >>=
          fun g => ofExpr p r >>= fun b => pure (group k [g, b]) := by
        simp [runOperands, group_group_cons]
      _ = ofExpr p l >>= fun a => ofExpr p r >>= fun b => pure (group k [group k [a], b]) := by
        rw [ih, bind_assoc]
        rfl
      _ = ofExpr p (.binary k.operator l r) >>= fun c => pure (group k [c]) := by
        simp [ofExpr_join, group_group_cons]
  | case3 op l r hop =>
    simp [runOperands, hop]
  | case4 e hparen hbinary =>
    rw [runOperands]
    · simp
    · exact hparen
    · exact hbinary

/-- **A run** is read operand by operand, and its operands are one group. -/
theorem ofExpr_run (k : Connective) (l r : Expr) :
    ofExpr p (.binary k.operator l r) =
      (runOperands k.operator (.binary k.operator l r)).mapM (ofExpr p) >>=
        fun cs => pure (group k cs) := by
  rw [group_runOperands, ofExpr_join]
  simp [group_group_cons]

/-! ### Normal forms -/

/-- no group is empty or directly within a group of its kind -/
inductive Normal : Condition → Prop
  | all {terms : List Condition} : terms ≠ [] → (∀ c ∈ terms, Normal c) →
    (∀ c ∈ terms, c.isAll = false) → Normal (.all terms)
  | any {terms : List Condition} : terms ≠ [] → (∀ c ∈ terms, Normal c) →
    (∀ c ∈ terms, c.isAny = false) → Normal (.any terms)
  | not {inner : Condition} : Normal inner → Normal (.not inner)
  | compare (l : Operand) (op : Comparison) (r : Operand) : Normal (.compare l op r)
  | contains (h n : Operand) : Normal (.contains h n)
  | truthy (o : Operand) : Normal (.truthy o)

theorem Normal.asRequirements {c : Condition} (h : c.Normal) :
    c.asRequirements ≠ [] ∧ ∀ d ∈ c.asRequirements, d.Normal ∧ d.isAll = false := by
  cases h with
  | all hne hterms hkind => exact ⟨hne, fun d hd => ⟨hterms d hd, hkind d hd⟩⟩
  | any hne hterms hkind => simpa [Condition.asRequirements, isAll] using Normal.any hne hterms hkind
  | not h => simpa [Condition.asRequirements, isAll] using Normal.not h
  | compare l op r => simpa [Condition.asRequirements, isAll] using Normal.compare l op r
  | contains h n => simpa [Condition.asRequirements, isAll] using Normal.contains h n
  | truthy o => simpa [Condition.asRequirements, isAll] using Normal.truthy o

theorem Normal.asAlternatives {c : Condition} (h : c.Normal) :
    c.asAlternatives ≠ [] ∧ ∀ d ∈ c.asAlternatives, d.Normal ∧ d.isAny = false := by
  cases h with
  | all hne hterms hkind => simpa [Condition.asAlternatives, isAny] using Normal.all hne hterms hkind
  | any hne hterms hkind => exact ⟨hne, fun d hd => ⟨hterms d hd, hkind d hd⟩⟩
  | not h => simpa [Condition.asAlternatives, isAny] using Normal.not h
  | compare l op r => simpa [Condition.asAlternatives, isAny] using Normal.compare l op r
  | contains h n => simpa [Condition.asAlternatives, isAny] using Normal.contains h n
  | truthy o => simpa [Condition.asAlternatives, isAny] using Normal.truthy o

/-- One level of merging is enough where the conditions are in normal form. -/
theorem Normal.allOf {cs : List Condition} (hne : cs ≠ []) (h : ∀ c ∈ cs, c.Normal) :
    (Condition.allOf cs).Normal := by
  obtain ⟨c, cs, rfl⟩ := List.exists_cons_of_ne_nil hne
  have hterms : ∀ d ∈ (c :: cs).flatMap Condition.asRequirements, d.Normal ∧ d.isAll = false := by
    intro d hd
    obtain ⟨e, he, hd⟩ := List.mem_flatMap.1 hd
    exact (h e he).asRequirements.2 d hd
  refine .all ?_ (fun d hd => (hterms d hd).1) fun d hd => (hterms d hd).2
  simp [(h c List.mem_cons_self).asRequirements.1]

theorem Normal.anyOf {cs : List Condition} (hne : cs ≠ []) (h : ∀ c ∈ cs, c.Normal) :
    (Condition.anyOf cs).Normal := by
  obtain ⟨c, cs, rfl⟩ := List.exists_cons_of_ne_nil hne
  have hterms : ∀ d ∈ (c :: cs).flatMap Condition.asAlternatives, d.Normal ∧ d.isAny = false := by
    intro d hd
    obtain ⟨e, he, hd⟩ := List.mem_flatMap.1 hd
    exact (h e he).asAlternatives.2 d hd
  refine .any ?_ (fun d hd => (hterms d hd).1) fun d hd => (hterms d hd).2
  simp [(h c List.mem_cons_self).asAlternatives.1]

theorem Quantifier.normal_condition {tags : List String} (h : tags ≠ []) (q : Quantifier) :
    (q.condition tags).Normal := by
  have hne : tags.map hasTag ≠ [] := by simpa using h
  have htag : ∀ c ∈ tags.map hasTag, c.Normal ∧ c.isAll = false ∧ c.isAny = false := by
    intro c hc
    obtain ⟨tag, -, rfl⟩ := List.mem_map.1 hc
    exact ⟨.contains _ _, rfl, rfl⟩
  cases q with
  | every => exact .all hne (fun c hc => (htag c hc).1) fun c hc => (htag c hc).2.1
  | some => exact .any hne (fun c hc => (htag c hc).1) fun c hc => (htag c hc).2.2

theorem States.normal_condition {e : Expr} {f : Formula} (h : States p e f) :
    f.condition.Normal := by
  induction h with
  | tags h => exact Quantifier.normal_condition h.1 _
  | and _ _ ihl ihr => exact .allOf (by simp) (by simpa using ⟨ihl, ihr⟩)
  | or _ _ ihl ihr => exact .anyOf (by simp) (by simpa using ⟨ihl, ihr⟩)
  | not _ ih => exact .not ih
  | compare _ _ _ => exact .compare _ _ _
  | contains _ _ _ => exact .contains _ _
  | field _ => exact .truthy _
  | bool b => exact .truthy _
  | paren _ ih => exact ih

/-! ### Re-association -/

/-- a run of three operands, grouped to the left and to the right -/
inductive Reassociates : Expr → Expr → Prop
  | run (k : Connective) (a b c : Expr) :
    Reassociates (.binary k.operator (.binary k.operator a b) c)
      (.binary k.operator a (.binary k.operator b c))

theorem Reassociates.ofExpr_eq {e e' : Expr} (h : Reassociates e e') :
    ofExpr p e = ofExpr p e' := by
  obtain ⟨k, a, b, c⟩ := h
  simp only [ofExpr_join, bind_assoc, pure_bind, group_assoc]

theorem Reassociates.corresponds {e e' : Expr} (h : Reassociates e e') : Corresponds p p e e' := by
  have hcondition := h.ofExpr_eq (p := p)
  obtain ⟨k, a, b, c⟩ := h
  exact .of_isUnread rfl rfl rfl (by rw [hcondition, mapError_rename_self])

theorem ofExpr_eq_of_eqvGen {e e' : Expr} (h : Relation.EqvGen (Within Reassociates) e e') :
    ofExpr p e = ofExpr p e' := by
  induction h with
  | rel e e' h =>
    have hwithin := h.corresponds (p := p) fun _ _ => Reassociates.corresponds
    simpa using hwithin.condition
  | refl e => rfl
  | symm _ _ _ ih => exact ih.symm
  | trans _ _ _ _ _ ih ih' => exact ih.trans ih'

/-- **Grouping does not matter.**  Two expressions that differ, apart from parentheses, by re-associating
runs of one operator anywhere within them state the same condition or fail with the same error.  And
every condition is in normal form. -/
theorem ofExpr_reassociated {e e' : Expr}
    (h : Relation.EqvGen (Within Reassociates) e.core e'.core) (p : String) :
    ofExpr p e = ofExpr p e' ∧ ∀ c, ofExpr p e = .ok c → c.Normal := by
  constructor
  · rw [← ofExpr_core, ofExpr_eq_of_eqvGen h, ofExpr_core]
  · intro c hc
    obtain ⟨f, hf, rfl⟩ := ofExpr_eq_ok.1 hc
    exact hf.normal_condition

/-- a run of alternatives in parentheses and a run of requirements under a negation -/
theorem regrouped_under_negation :
    let a : Expr := .field (.identifier "p") "a"
    let b : Expr := .field (.identifier "p") "b"
    let c : Expr := .field (.identifier "p") "c"
    let right : Expr := .binary .and (.paren (.binary .or a (.paren (.binary .or b c))))
      (.unary .not (.paren (.binary .and a (.paren (.binary .and b c)))))
    let left : Expr := .binary .and (.paren (.binary .or (.binary .or a b) c))
      (.unary .not (.paren (.binary .and (.binary .and a b) c)))
    ofExpr "p" right = ofExpr "p" left ∧
      ∃ d, ofExpr "p" right = .ok d ∧ d.Normal ∧ d.fragment = "(a OR b OR c) AND !(a AND b AND c)" := by
  intro a b c right left
  have halternatives := Within.here (Reassociates.run .or a b c)
  have hrequirements := Within.here (Reassociates.run .and a b c)
  have hsame := @ofExpr_reassociated right left
    (.trans _ _ _ (.symm _ _ (.rel _ _ (.left .and _ halternatives)))
      (.symm _ _ (.rel _ _ (.right .and _ (.operand .not hrequirements))))) "p"
  exact ⟨hsame.1, _, rfl, hsame.2 _ rfl, by decide +kernel⟩

end Condition

end PageQuery
