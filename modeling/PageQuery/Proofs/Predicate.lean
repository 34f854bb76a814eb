import PageQuery.Query.Condition
import PageQuery.Proofs.Collect
import PageQuery.Proofs.Shape

/-!
# The callbacks that state a condition

The grammar of the callbacks of `where` and `filter`, set beside the functions that read them:

* `IsOperand p e o`: the expression `e` is the operand `o`, a field of the parameter `p` or a literal;
* `AsksTags q tags e`: `e` asks whether every one, or some, of the tags is in something;
* `States p e f`: `e` states the formula `f`, a combination of atoms by the operators of the script.

`ofExpr_eq_ok`: an expression is read as a condition exactly if it states a formula, and the
condition is the one the formula stands for.
-/

namespace PageQuery.Condition

open Script Script.Expr

/-! ### Operands -/

/-- the expression is a field of the parameter or a literal -/
inductive IsOperand (p : String) : Expr → Operand → Prop
  | text {e : Expr} {s : String} : e.IsText s → IsOperand p e (.literal (.text s))
  | number (x : Binary64) : IsOperand p (.number x) (.literal (.number x))
  | negative {e : Expr} {x : Binary64} :
    e.IsNumber x → IsOperand p (.unary .minus e) (.literal (.number x.neg))
  | bool (b : Bool) : IsOperand p (.bool b) (.literal (.bool b))
  | null : IsOperand p .null (.literal .null)
  | undefined : IsOperand p (.identifier "undefined") (.literal .null)
  | field {e : Expr} {path : List String} : IsPath p e path → IsOperand p e (.field path)
  | paren {e : Expr} {o : Operand} : IsOperand p e o → IsOperand p (.paren e) o

theorem operandOf_of_isText {p s : String} {e : Expr} (h : e.IsText s) :
    operandOf p e = .ok (.literal (.text s)) := by
  induction h with
  | string s => rfl
  | template s => rfl
  | paren _ ih => exact ih

theorem operandOf_of_isMember {p n : String} {e o : Expr} (h : e.IsMember o n) :
    operandOf p e = operandOf.fieldOf p e := by
  induction h with
  | field o n => rfl
  | index hk => rfl
  | paren _ ih => exact ih

theorem fieldOf_eq_ok {p : String} {e : Expr} {o : Operand} :
    operandOf.fieldOf p e = .ok o ↔ ∃ path, IsPath p e path ∧ o = .field path := by
  simp only [operandOf.fieldOf, ← path?_eq_some]
  cases e.path? p <;> simp [eq_comm]

theorem operandOf_of_isPath {p : String} {e : Expr} {path : List String} (h : IsPath p e path) :
    operandOf p e = .ok (.field path) := by
  have hf : operandOf.fieldOf p e = .ok (.field path) := fieldOf_eq_ok.2 ⟨path, h, rfl⟩
  obtain ⟨h | ⟨hm, -, -⟩, hne⟩ := h
  · exact absurd rfl hne
  · rw [operandOf_of_isMember hm, hf]

theorem isOperand_of_fieldOf {p : String} {e : Expr} {o : Operand}
    (h : operandOf.fieldOf p e = .ok o) : IsOperand p e o := by
  obtain ⟨path, hp, rfl⟩ := fieldOf_eq_ok.1 h
  exact .field hp

theorem operandOf_eq_ok {p : String} {e : Expr} {o : Operand} :
    operandOf p e = .ok o ↔ IsOperand p e o := by
  constructor
  · intro h
    fun_induction operandOf p e with
    | case1 e ih => exact .paren (ih h)
    | case2 s => cases h; exact .text (.string s)
    | case3 s => cases h; exact .text (.template s)
    | case4 x => cases h; exact .number x
    | case5 e x hx => cases h; exact .negative (unparen_eq_number.1 hx)
    | case6 e hx => cases h
    | case7 b => cases h; exact .bool b
    | case8 => cases h; exact .null
    | case9 w hw =>
      cases h
      rw [eq_of_beq hw]
      exact .undefined
    | case10 w hw => cases h
    | case11 o n => exact isOperand_of_fieldOf h
    | case12 o k => exact isOperand_of_fieldOf h
    | case13 o => exact isOperand_of_fieldOf h
    | case14 e => cases h
  · intro h
    induction h with
    | text h => exact operandOf_of_isText h
    | number x => rfl
    | negative h => simp [operandOf, unparen_eq_number.2 h]
    | bool b => rfl
    | null => rfl
    | undefined => rfl
    | field h => exact operandOf_of_isPath h
    | paren _ ih => exact ih

theorem operandOf_unparen {p : String} (e : Expr) : operandOf p e.unparen = operandOf p e := by
  fun_induction unparen e with
  | case1 e ih => exact ih
  | case2 e _ => rfl

/-! ### Questions about tags -/

/-- whether a question is about all tags of a list or about some -/
inductive Quantifier where
  | every
  | some
deriving DecidableEq

/-- the method that asks the question -/
def Quantifier.method : Quantifier → String
  | every => "every"
  | some => "some"

/-- the expression is an array of these texts, none of them spread and no element left out -/
inductive IsTextList : Expr → List String → Prop
  | array {elements : List (Option (Argument Expr))} {texts : List String} :
    List.Forall₂ (fun element text => ∃ extent e, element = Option.some ⟨false, extent, e⟩ ∧
      e.IsText text) elements texts → IsTextList (.array elements) texts
  | paren {e : Expr} {texts : List String} : IsTextList e texts → IsTextList (.paren e) texts

/-- the callback looks its own parameter up in something -/
def LooksUp (callback : Expr) : Prop :=
  ∃ v body o needle, callback.IsLambda v body ∧ body.IsMethodCall o "includes" needle ∧
    needle.IsVariable v

/-- the expression asks whether every one, or some, of the tags is in something -/
def AsksTags (q : Quantifier) (tags : List String) (e : Expr) : Prop :=
  tags ≠ [] ∧ ∃ list callback, e.IsMethodCall list q.method callback ∧ IsTextList list tags ∧
    LooksUp callback

/-- the condition that a question about tags stands for -/
def Quantifier.condition (tags : List String) : Quantifier → Condition
  | every => .all (tags.map hasTag)
  | some => .any (tags.map hasTag)

@[simp] theorem isTextList_paren {e : Expr} {texts : List String} :
    IsTextList (.paren e) texts ↔ IsTextList e texts :=
  ⟨fun h => by cases h; assumption, .paren⟩

theorem tagList?_array {elements : List (Option (Argument Expr))} {tags : List String} :
    tagList? (.array elements) = Option.some tags ↔
      IsTextList (.array elements) tags ∧ tags ≠ [] := by
  cases elements with
  | nil =>
    simp only [tagList?, reduceCtorEq, false_iff, not_and, not_not]
    rintro ⟨_ | _⟩
    rfl
  | cons element elements =>
    simp only [tagList?, mapM_eq_some]
    constructor
    · intro h
      refine ⟨.array (h.imp ?_), fun htags => by cases htags ▸ h⟩
      rintro (_ | ⟨_ | _, extent, e⟩) text htext <;> simp_all [stringValue?_eq_some]
    · rintro ⟨⟨h⟩, -⟩
      refine h.imp ?_
      rintro _ text ⟨extent, e, rfl, he⟩
      exact stringValue?_eq_some.2 he

/-- the array is read without the parentheses around it -/
theorem tagList?_eq_some {e : Expr} {tags : List String} :
    tagList? e.unparen = Option.some tags ↔ IsTextList e tags ∧ tags ≠ [] := by
  constructor
  · intro h
    have harray : ∃ elements, e.unparen = .array elements := by
      unfold tagList? at h
      split at h
      · cases h
      · exact ⟨_, ‹_›⟩
      · cases h
    obtain ⟨elements, he⟩ := harray
    rw [← unparen_iff (P := fun e => IsTextList e tags) (fun _ => isTextList_paren) e, he]
    exact tagList?_array.1 (he ▸ h)
  · rintro ⟨h, hne⟩
    induction h with
    | array h => exact tagList?_array.2 ⟨.array h, hne⟩
    | paren _ ih => exact ih hne

theorem plainArgument?_eq_some {args : List (Argument Expr)} {a : Expr} :
    plainArgument? args = Option.some a ↔ ∃ extent, args = [⟨false, extent, a⟩] := by
  rcases args with _ | ⟨⟨_ | _, extent, e⟩, _ | ⟨_, _⟩⟩ <;> simp [plainArgument?]

theorem isMethodCall_call {start : Nat} {callee : Option Expr} {args : List (Argument Expr)}
    {o a : Expr} {m : String} :
    (Expr.call start callee args).IsMethodCall o m a ↔
      ∃ c, callee = Option.some c ∧ c.IsMember o m ∧ plainArgument? args = Option.some a := by
  constructor
  · rintro ⟨h⟩
    exact ⟨_, rfl, h, rfl⟩
  · rintro ⟨c, rfl, h, ha⟩
    obtain ⟨extent, rfl⟩ := plainArgument?_eq_some.1 ha
    exact .call h

theorem looksUp_iff {callback : Expr} : looksUp callback = true ↔ LooksUp callback := by
  constructor
  · intro h
    unfold looksUp at h
    split at h
    · rename_i v start callee args hl
      split at h
      · rename_i o needle hm ha
        obtain ⟨body, hl, hb⟩ := lambda?_eq_some.1 hl
        obtain ⟨o', hm, -⟩ := member?_eq_some.1 hm
        have hc : body.unparen.IsMethodCall o' "includes" needle := by
          rw [hb]
          exact isMethodCall_call.2 ⟨callee, rfl, hm, ha⟩
        exact ⟨v, body, o', needle, hl, isMethodCall_unparen.1 hc,
          variableName?_eq_some.1 (eq_of_beq h)⟩
      · cases h
    · cases h
  · rintro ⟨v, body, o, needle, hl, hc, hv⟩
    obtain ⟨start, callee, extent, hb, hm⟩ := hc.unparen
    have hl : callback.lambda? = Option.some (v, body.unparen) :=
      lambda?_eq_some.2 ⟨body, hl, rfl⟩
    have hm : callee.member? = Option.some (o.unparen, "includes") :=
      member?_eq_some.2 ⟨o, hm, rfl⟩
    rw [hb] at hl
    simp [looksUp, hl, hm, plainArgument?, variableName?_eq_some.2 hv]

/-- a question about tags is read off its call -/
theorem tagMembership?_eq_some (start : Nat) {callee : Option Expr} {args : List (Argument Expr)}
    {c : Condition} :
    tagMembership? callee args = Option.some c ↔
      ∃ q tags, AsksTags q tags (.call start callee args) ∧ c = Quantifier.condition tags q := by
  constructor
  · intro h
    simp only [tagMembership?, Option.bind_eq_bind, Option.bind_eq_some_iff, Prod.exists] at h
    obtain ⟨e, rfl, receiver, m, hr, h⟩ := h
    obtain ⟨list, hm, rfl⟩ := member?_eq_some.1 hr
    split at h
    · cases h
    rename_i hq
    have hq : m = "every" ∨ m = "some" := by
      by_contra hn
      simp_all
    simp only [Option.bind_eq_some_iff] at h
    obtain ⟨tags, hlist, callback, ha, h⟩ := h
    obtain ⟨hlist, hne⟩ := tagList?_eq_some.1 hlist
    split at h
    · rename_i hlook
      rcases hq with rfl | rfl
      · exact ⟨.every, tags, ⟨hne, list, callback, isMethodCall_call.2 ⟨e, rfl, hm, ha⟩, hlist,
          looksUp_iff.1 hlook⟩, (Option.some.inj h).symm⟩
      · exact ⟨.some, tags, ⟨hne, list, callback, isMethodCall_call.2 ⟨e, rfl, hm, ha⟩, hlist,
          looksUp_iff.1 hlook⟩, (Option.some.inj h).symm⟩
    · cases h
  · rintro ⟨q, tags, ⟨hne, list, callback, hc, hlist, hlook⟩, rfl⟩
    obtain ⟨e, rfl, hm, ha⟩ := isMethodCall_call.1 hc
    have hm : e.member? = Option.some (list.unparen, q.method) :=
      member?_eq_some.2 ⟨list, hm, rfl⟩
    have hlist : tagList? list.unparen = Option.some tags := tagList?_eq_some.2 ⟨hlist, hne⟩
    cases q <;>
      simp [tagMembership?, hm, hlist, ha, looksUp_iff.2 hlook, Quantifier.method,
        Quantifier.condition]

/-- a question about containment is read off its call -/
theorem containsCall_eq_ok {p : String} {start : Nat} {callee : Option Expr}
    {args : List (Argument Expr)} {c : Condition} :
    containsCall p callee args = .ok c ↔
      ∃ h n a b, (Expr.call start callee args).IsMethodCall h "includes" n ∧ IsOperand p h a ∧
        IsOperand p n b ∧ c = .contains a b := by
  constructor
  · intro hc
    unfold containsCall at hc
    split at hc
    · cases hc
    · rename_i o m hr
      split at hc
      · rename_i n ha
        obtain ⟨e, rfl, hr⟩ := Option.bind_eq_some_iff.1 hr
        obtain ⟨h, hm, rfl⟩ := member?_eq_some.1 hr
        simp only [bind_eq_ok, operandOf_unparen, operandOf_eq_ok] at hc
        obtain ⟨a, hh, b, hn, hc⟩ := hc
        exact ⟨h, n, a, b, isMethodCall_call.2 ⟨e, rfl, hm, ha⟩, hh, hn,
          (Except.ok.inj hc).symm⟩
      · cases hc
  · rintro ⟨h, n, a, b, hc, hh, hn, rfl⟩
    obtain ⟨e, rfl, hm, ha⟩ := isMethodCall_call.1 hc
    have hm : e.member? = Option.some (h.unparen, "includes") := member?_eq_some.2 ⟨h, hm, rfl⟩
    simp [containsCall, hm, ha, operandOf_unparen, operandOf_eq_ok.2 hh, operandOf_eq_ok.2 hn,
      bind, Except.bind, pure, Except.pure]

/-! ### Formulas -/

/-- the operators of a script that compare, and the comparisons of a query they are -/
def comparisons : List (BinaryOp × Comparison) :=
  [(.strictEqual, .equal), (.equal, .equal), (.strictNotEqual, .notEqual), (.notEqual, .notEqual),
    (.less, .less), (.lessEqual, .lessEqual), (.greater, .greater), (.greaterEqual, .greaterEqual)]

/-- a combination of atoms by the operators of a script -/
inductive Formula where
  | atom (c : Condition)
  | tags (q : Quantifier) (tags : List String)
  | not (f : Formula)
  | and (f g : Formula)
  | or (f g : Formula)

/-- the expression states the formula of the parameter -/
inductive States (p : String) : Expr → Formula → Prop
  | tags {e : Expr} {q : Quantifier} {tags : List String} :
    AsksTags q tags e → States p e (.tags q tags)
  | and {l r : Expr} {f g : Formula} :
    States p l f → States p r g → States p (.binary .and l r) (.and f g)
  | or {l r : Expr} {f g : Formula} :
    States p l f → States p r g → States p (.binary .or l r) (.or f g)
  | not {e : Expr} {f : Formula} : States p e f → States p (.unary .not e) (.not f)
  | compare {op : BinaryOp} {c : Comparison} {l r : Expr} {a b : Operand} :
    (op, c) ∈ comparisons → IsOperand p l a → IsOperand p r b →
      States p (.binary op l r) (.atom (.compare a c b))
  | contains {e h n : Expr} {a b : Operand} :
    e.IsMethodCall h "includes" n → IsOperand p h a → IsOperand p n b →
      States p e (.atom (.contains a b))
  | field {e : Expr} {path : List String} :
    IsPath p e path → States p e (.atom (.truthy (.field path)))
  | bool (b : Bool) : States p (.bool b) (.atom (.truthy (.literal (.bool b))))
  | paren {e : Expr} {f : Formula} : States p e f → States p (.paren e) f

/-- the condition that a formula stands for -/
def Formula.condition : Formula → Condition
  | .atom c => c
  | .tags q ts => q.condition ts
  | .not f => .not f.condition
  | .and f g => allOf [f.condition, g.condition]
  | .or f g => anyOf [f.condition, g.condition]

theorem comparison?_eq_some {op : BinaryOp} {c : Comparison} :
    comparison? op = some c ↔ (op, c) ∈ comparisons := by
  cases op <;> cases c <;> decide

theorem ofExpr_unparen {p : String} (e : Expr) : ofExpr p e.unparen = ofExpr p e := by
  fun_induction unparen e with
  | case1 e ih => exact ih
  | case2 e _ => rfl

theorem ofExpr_of_asksTags {p : String} {e : Expr} {q : Quantifier} {tags : List String}
    (h : AsksTags q tags e) : ofExpr p e = .ok (q.condition tags) := by
  obtain ⟨hne, list, callback, hc, hlist, hlook⟩ := h
  obtain ⟨start, callee, extent, hu, hm⟩ := hc.unparen
  have ht : tagMembership? (some callee) [⟨false, extent, callback⟩] =
      some (q.condition tags) :=
    (tagMembership?_eq_some start).2 ⟨q, tags, ⟨hne, list, callback, .call hm, hlist,
      hlook⟩, rfl⟩
  rw [← ofExpr_unparen, hu]
  simp [ofExpr, ht]

/-- no question about tags asks whether something is included -/
theorem tagMembership?_includes {start : Nat} {callee : Option Expr}
    {args : List (Argument Expr)} {h n : Expr}
    (hc : (Expr.call start callee args).IsMethodCall h "includes" n) :
    tagMembership? callee args = none := by
  rw [Option.eq_none_iff_forall_ne_some]
  intro c ht
  obtain ⟨q, tags, ⟨-, list, callback, hq, -, -⟩, -⟩ :=
    (tagMembership?_eq_some start).1 ht
  obtain ⟨e, he, hm, -⟩ := isMethodCall_call.1 hc
  obtain ⟨e', he', hm', -⟩ := isMethodCall_call.1 hq
  have hee : e' = e := Option.some.inj (he'.symm.trans he)
  subst hee
  have h1 := member?_eq_some.2 ⟨h, hm, rfl⟩
  have h2 := member?_eq_some.2 ⟨list, hm', rfl⟩
  rw [h1] at h2
  cases q <;> simp [Quantifier.method] at h2

theorem ofExpr_of_contains {p : String} {e h n : Expr} {a b : Operand}
    (hc : e.IsMethodCall h "includes" n) (ha : IsOperand p h a) (hb : IsOperand p n b) :
    ofExpr p e = .ok (.contains a b) := by
  obtain ⟨start, callee, extent, hu, hm⟩ := hc.unparen
  rw [← isMethodCall_unparen, hu] at hc
  rw [← ofExpr_unparen, hu]
  simp only [ofExpr, tagMembership?_includes hc]
  exact containsCall_eq_ok.2 ⟨h, n, a, b, hc, ha, hb, rfl⟩

theorem ofExpr_compare {p : String} {op : BinaryOp} {c : Comparison} {l r : Expr}
    (h : (op, c) ∈ comparisons) :
    ofExpr p (.binary op l r) = (do pure (.compare (← operandOf p l) c (← operandOf p r))) := by
  rw [← comparison?_eq_some] at h
  cases op <;> cases h <;> rfl

theorem ofExpr_of_isMember {p n : String} {e o : Expr} (h : e.IsMember o n) :
    ofExpr p e = (do pure (.truthy (← operandOf p e))) := by
  induction h with
  | field o n => rfl
  | index hk => rfl
  | paren _ ih => exact ih

theorem ofExpr_of_isPath {p : String} {e : Expr} {path : List String} (h : IsPath p e path) :
    ofExpr p e = .ok (.truthy (.field path)) := by
  have ho := operandOf_of_isPath h
  obtain ⟨h | ⟨hm, -, -⟩, hne⟩ := h
  · exact absurd rfl hne
  · rw [ofExpr_of_isMember hm, ho]
    rfl

/-- a member that is read as a condition is a field of the parameter -/
theorem states_of_fieldOf {p : String} {e : Expr} {c : Condition}
    (h : (do pure (.truthy (← operandOf.fieldOf p e)) : Except QueryError Condition) = .ok c) :
    ∃ f, States p e f ∧ f.condition = c := by
  obtain ⟨o, ho, hc⟩ := bind_eq_ok.1 h
  obtain ⟨path, hp, rfl⟩ := fieldOf_eq_ok.1 ho
  exact ⟨_, .field hp, Except.ok.inj hc⟩

/-- **What is read as a condition.**  An expression is read exactly if it states a formula. -/
theorem ofExpr_eq_ok {p : String} {e : Expr} {c : Condition} :
    ofExpr p e = .ok c ↔ ∃ f, States p e f ∧ f.condition = c := by
  constructor
  · intro h
    fun_induction ofExpr p e generalizing c with
    | case1 e ih =>
      obtain ⟨f, hf, hc⟩ := ih h
      exact ⟨f, .paren hf, hc⟩
    | case2 l r ihl ihr =>
      obtain ⟨a, hl, b, hr, hc⟩ := by simpa only [bind_eq_ok] using h
      obtain ⟨f, hf, rfl⟩ := ihl hl
      obtain ⟨g, hg, rfl⟩ := ihr hr
      exact ⟨.and f g, .and hf hg, Except.ok.inj hc⟩
    | case3 l r ihl ihr =>
      obtain ⟨a, hl, b, hr, hc⟩ := by simpa only [bind_eq_ok] using h
      obtain ⟨f, hf, rfl⟩ := ihl hl
      obtain ⟨g, hg, rfl⟩ := ihr hr
      exact ⟨.or f g, .or hf hg, Except.ok.inj hc⟩
    | case4 op l r _ _ cmp hop =>
      obtain ⟨a, hl, b, hr, hc⟩ := by simpa only [bind_eq_ok] using h
      exact ⟨_, .compare (comparison?_eq_some.1 hop) (operandOf_eq_ok.1 hl) (operandOf_eq_ok.1 hr),
        Except.ok.inj hc⟩
    | case5 op l r _ _ hop => cases h
    | case6 e ih =>
      obtain ⟨a, he, hc⟩ := bind_eq_ok.1 h
      obtain ⟨f, hf, rfl⟩ := ih he
      exact ⟨.not f, .not hf, Except.ok.inj hc⟩
    | case7 start callee args d ht =>
      cases h
      obtain ⟨q, tags, hq, rfl⟩ := (tagMembership?_eq_some start).1 ht
      exact ⟨.tags q tags, .tags hq, rfl⟩
    | case8 start callee args ht =>
      obtain ⟨o, n, a, b, hc, ha, hb, rfl⟩ := containsCall_eq_ok.1 h
      exact ⟨_, .contains hc ha hb, rfl⟩
    | case9 o n => exact states_of_fieldOf h
    | case10 o k => exact states_of_fieldOf h
    | case11 o => exact states_of_fieldOf h
    | case12 b => cases h; exact ⟨_, .bool b, rfl⟩
    | case13 e => cases h
  · rintro ⟨f, hf, rfl⟩
    induction hf with
    | tags h => exact ofExpr_of_asksTags h
    | and _ _ ihl ihr =>
      simp [ofExpr, ihl, ihr, bind, Except.bind, pure, Except.pure, Formula.condition]
    | or _ _ ihl ihr =>
      simp [ofExpr, ihl, ihr, bind, Except.bind, pure, Except.pure, Formula.condition]
    | not _ ih => simp [ofExpr, ih, bind, Except.bind, pure, Except.pure, Formula.condition]
    | compare hop hl hr =>
      rw [ofExpr_compare hop, operandOf_eq_ok.2 hl, operandOf_eq_ok.2 hr]
      rfl
    | contains hc ha hb => exact ofExpr_of_contains hc ha hb
    | field h => exact ofExpr_of_isPath h
    | bool b => rfl
    | paren _ ih => exact ih

/-! ### Callbacks -/

theorem ofArg_eq_ok {a : Arg} {c : Condition} :
    ofArg a = .ok c ↔ ∃ e p body f, a.expr = .ok e ∧ e.IsLambda p body ∧ States p body f ∧
      f.condition = c := by
  constructor
  · intro h
    obtain ⟨e, he, h⟩ := bind_eq_ok.1 h
    split at h
    · rename_i p b hb
      obtain ⟨body, hl, rfl⟩ := lambda?_eq_some.1 hb
      rw [ofExpr_unparen] at h
      obtain ⟨f, hf, hc⟩ := ofExpr_eq_ok.1 h
      exact ⟨e, p, body, f, he, hl, hf, hc⟩
    · cases h
  · rintro ⟨e, p, body, f, he, hl, hf, hc⟩
    refine bind_eq_ok.2 ⟨e, he, ?_⟩
    simp only [lambda?_eq_some.2 ⟨body, hl, rfl⟩, ofExpr_unparen]
    exact ofExpr_eq_ok.2 ⟨f, hf, hc⟩

/-- **The accepted callbacks.**  An argument is accepted as a condition exactly if it is an arrow
function of one parameter whose result states a formula of that parameter. -/
theorem ofArg_accepts_iff (a : Arg) :
    (∃ c, ofArg a = .ok c) ↔
      ∃ e p body f, a.expr = .ok e ∧ e.IsLambda p body ∧ States p body f := by
  simp only [ofArg_eq_ok]
  constructor
  · rintro ⟨c, e, p, body, f, he, hl, hf, -⟩
    exact ⟨e, p, body, f, he, hl, hf⟩
  · rintro ⟨e, p, body, f, he, hl, hf⟩
    exact ⟨f.condition, e, p, body, f, he, hl, hf, rfl⟩

end PageQuery.Condition
