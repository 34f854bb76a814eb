import PageQuery.Proofs.Core

/-!
# Expressions that are read alike

`Corresponds p q e e'`: whatever is read of `e` for a parameter `p` is read of `e'` for a parameter `q`,
wherever the two expressions stand.  The relation lists what can be read of an expression, and every way
to build a larger expression keeps it: there is one lemma for each constructor.  So an induction on how
two expressions are related needs no more than these lemmas.

* `Corresponds.refl`: with one parameter the relation is reflexive.
* `Within.corresponds`: a part of an expression can be replaced by one that is read alike.
-/

namespace PageQuery

open Script Script.Expr

/-- nothing of the expression is kept that could hold a variable -/
def Script.Expr.isConstant : Expr → Bool
  | .string _ => true
  | .number _ => true
  | .bool _ => true
  | .null => true
  | .bigint => true
  | .regex => true
  | .object => true
  | .function => true
  | _ => false

/-- the error with another name for the parameter -/
def QueryError.rename (p q : String) : QueryError → QueryError
  | .notAField w => .notAField (if w = p then q else w)
  | e => e

@[simp] theorem QueryError.rename_self (p : String) (e : QueryError) : e.rename p p = e := by
  cases e <;> simp +contextual [rename]

@[simp] theorem mapError_rename_self {α : Type} (p : String) (x : Except QueryError α) :
    x.mapError (QueryError.rename p p) = x := by
  cases x <;> simp [Except.mapError]

theorem mapError_bind {ε ε' α β : Type} (g : ε → ε') (x : Except ε α) (f : α → Except ε β) :
    (x >>= f).mapError g = x.mapError g >>= fun a => (f a).mapError g := by
  cases x <;> rfl

theorem mapError_pure {ε ε' α : Type} (g : ε → ε') (a : α) :
    (pure a : Except ε α).mapError g = pure a := rfl

/-! ### Names -/

/-- both are the parameter, by its name on each side, or both are one other name, or there is none -/
inductive SameName (p q : String) : Option String → Option String → Prop
  | none : SameName p q none none
  | parameter : SameName p q (some p) (some q)
  | other {w : String} : w ≠ p → w ≠ q → SameName p q (some w) (some w)

theorem SameName.refl (p : String) (n : Option String) : SameName p p n n := by
  rcases n with _ | w
  · exact .none
  · by_cases hw : w = p
    · exact hw ▸ .parameter
    · exact .other hw hw

theorem SameName.eq {p : String} {n n' : Option String} (h : SameName p p n n') : n = n' := by
  cases h <;> rfl

theorem SameName.parameter_iff {p q : String} {n n' : Option String} (h : SameName p q n n') :
    n = some p ↔ n' = some q := by
  cases h with
  | none => simp
  | parameter => simp
  | other hp hq => simp [hp, hq]

/-! ### Readings -/

/-- the arguments are passed alike and have related values -/
def Argument.Passes (R : Expr → Expr → Prop) (a a' : Argument Expr) : Prop :=
  a.spread = a'.spread ∧ R a.value a'.value

namespace Condition

theorem plainArgument_passes {R : Expr → Expr → Prop} {as as' : List (Argument Expr)}
    (h : List.Forall₂ (Argument.Passes R) as as') :
    Option.Rel R (plainArgument? as) (plainArgument? as') := by
  cases h with
  | nil => exact .none
  | @cons a a' as as' ha has =>
    cases has with
    | nil =>
      rw [plainArgument?, plainArgument?, ha.1]
      cases a'.spread with
      | true => exact .none
      | false => exact .some ha.2
    | cons _ _ => exact .none

/-- the variable that a call looks up, by its method and its argument -/
def lookedUpBy? (method : Option String) (needle : Option Expr) : Option String :=
  if method = some "includes" then needle.bind variableName? else none

/-- the variable that an expression looks up in something -/
def lookedUp? (e : Expr) : Option String :=
  match e.unparen with
  | .call _ (some callee) args => lookedUpBy? (callee.member?.map (·.2)) (plainArgument? args)
  | _ => none

theorem unparen_unparen (e : Expr) : e.unparen.unparen = e.unparen :=
  (unparen_iff (P := fun i => i.unparen = e.unparen) (fun _ => Iff.rfl) e).2 rfl

theorem looksUp_of_lambda? {e body : Expr} {v : String} (h : e.lambda? = some (v, body)) :
    looksUp e = (lookedUp? body == some v) := by
  obtain ⟨b, -, rfl⟩ := lambda?_eq_some.1 h
  simp only [looksUp, h, lookedUp?, unparen_unparen]
  generalize b.unparen = i
  cases i with
  | call start callee args =>
    rcases callee with _ | callee
    · rfl
    · simp only [lookedUpBy?]
      generalize callee.member? = receiver
      generalize plainArgument? args = needle
      rcases receiver with _ | ⟨o, m⟩
      · rfl
      · by_cases hm : m = "includes"
        · subst hm
          cases needle <;> rfl
        · simp [hm]
  | _ => rfl

theorem lookedUp?_unparen (e : Expr) : lookedUp? e.unparen = lookedUp? e := by
  rw [lookedUp?, lookedUp?, unparen_unparen]

theorem looksUp_lambda (v : String) (r : Expr) :
    looksUp (.arrow false [some v] (some r)) = (lookedUp? r == some v) := by
  rw [looksUp_of_lambda? rfl, lookedUp?_unparen]

theorem looksUp_of_not_lambda {isAsync : Bool} {ps : List (Option String)} {r : Option Expr}
    (h : ¬ (isAsync = false ∧ ∃ v, ps = [some v])) : looksUp (.arrow isAsync ps r) = false := by
  have hlambda : (Expr.arrow isAsync ps r).lambda? = none := by
    rcases isAsync, ps, r with ⟨_ | _, _ | ⟨_ | v, _ | _⟩, _ | r⟩ <;> simp_all [lambda?]
  rw [looksUp, hlambda]

end Condition

open Condition

/-- the number that an expression is -/
def Script.Expr.number? : Expr → Option Binary64
  | .number x => some x
  | _ => none

/-- nothing is read of the expression but an operand or a condition -/
structure Unread (e : Expr) : Prop where
  text : e.stringValue? = none
  number : e.unparen.number? = none
  name : e.variableName? = none
  accesses : ∀ p, e.accesses? p = none
  member : e.member? = none
  tags : tagList? e.unparen = none
  lookedUp : lookedUp? e = none
  looksUp : looksUp e = false

/-- the expression is of a kind that nothing else is read of -/
def Script.Expr.isUnread : Expr → Bool
  | .bool _ => true
  | .null => true
  | .bigint => true
  | .regex => true
  | .object => true
  | .function => true
  | .template _ (_ :: _) => true
  | .privateField _ => true
  | .optional _ => true
  | .unary _ _ => true
  | .binary _ _ _ => true
  | .other _ => true
  | _ => false

theorem unread_of_isUnread {e : Expr} (h : e.isUnread = true) : Unread e := by
  cases e with
  | template chunks es =>
    cases es with
    | nil => cases h
    | cons _ _ =>
      rcases chunks with _ | ⟨s, _ | ⟨t, chunks⟩⟩ <;>
        exact ⟨rfl, rfl, rfl, fun _ => rfl, rfl, rfl, rfl, rfl⟩
  | bool _ | null | bigint | regex | object | function | privateField _ | optional _ | unary _ _
  | binary _ _ _ | other _ => exact ⟨rfl, rfl, rfl, fun _ => rfl, rfl, rfl, rfl, rfl⟩
  | _ => cases h

/-- what is read of the first expression for the parameter `p`, is read of the second one for `q` -/
structure Corresponds (p q : String) (e e' : Expr) : Prop where
  text : e.stringValue? = e'.stringValue?
  number : e.unparen.number? = e'.unparen.number?
  name : SameName p q e.variableName? e'.variableName?
  accesses : e.accesses? p = e'.accesses? q
  /-- the same is read of the objects of members -/
  member : Option.Rel (fun r r' => r.2 = r'.2 ∧ tagList? r.1 = tagList? r'.1 ∧
    (operandOf p r.1).mapError (.rename p q) = operandOf q r'.1) e.member? e'.member?
  tags : tagList? e.unparen = tagList? e'.unparen
  lookedUp : SameName p q (lookedUp? e) (lookedUp? e')
  looksUp : looksUp e = looksUp e'
  operand : (operandOf p e).mapError (.rename p q) = operandOf q e'
  condition : (ofExpr p e).mapError (.rename p q) = ofExpr q e'

namespace Corresponds

variable {p q : String} {e e' o o' k k' l l' r r' : Expr}

theorem refl (p : String) (e : Expr) : Corresponds p p e e where
  text := rfl
  number := rfl
  name := .refl p _
  accesses := rfl
  member := by
    cases e.member? with
    | none => exact .none
    | some r => exact .some ⟨rfl, rfl, mapError_rename_self p _⟩
  tags := rfl
  lookedUp := .refl p _
  looksUp := rfl
  operand := mapError_rename_self p _
  condition := mapError_rename_self p _

theorem path (h : Corresponds p q e e') : e.path? p = e'.path? q := by
  rw [path?, path?, h.accesses]

/-- two expressions of which only an operand or a condition is read -/
theorem of_isUnread (h : e.isUnread = true) (h' : e'.isUnread = true)
    (hoperand : (operandOf p e).mapError (.rename p q) = operandOf q e')
    (hcondition : (ofExpr p e).mapError (.rename p q) = ofExpr q e') : Corresponds p q e e' where
  text := by rw [(unread_of_isUnread h).text, (unread_of_isUnread h').text]
  number := by rw [(unread_of_isUnread h).number, (unread_of_isUnread h').number]
  name := by
    rw [(unread_of_isUnread h).name, (unread_of_isUnread h').name]
    exact .none
  accesses := by rw [(unread_of_isUnread h).accesses, (unread_of_isUnread h').accesses]
  member := by
    rw [(unread_of_isUnread h).member, (unread_of_isUnread h').member]
    exact .none
  tags := by rw [(unread_of_isUnread h).tags, (unread_of_isUnread h').tags]
  lookedUp := by
    rw [(unread_of_isUnread h).lookedUp, (unread_of_isUnread h').lookedUp]
    exact .none
  looksUp := by rw [(unread_of_isUnread h).looksUp, (unread_of_isUnread h').looksUp]
  operand := hoperand
  condition := hcondition

theorem constant (p q : String) {e : Expr} (h : e.isConstant = true) : Corresponds p q e e := by
  cases e with
  | string _ | number _ =>
    exact ⟨rfl, rfl, .none, rfl, .none, rfl, .none, rfl, rfl, rfl⟩
  | bool _ | null | bigint | regex | object | function => exact of_isUnread rfl rfl rfl rfl
  | _ => cases h

theorem optional (p q : String) (e e' : Expr) : Corresponds p q (.optional e) (.optional e') :=
  of_isUnread rfl rfl rfl rfl

theorem other (p q : String) (es es' : List Expr) : Corresponds p q (.other es) (.other es') :=
  of_isUnread rfl rfl rfl rfl

/-- Of a template with substitutions nothing is read. -/
theorem template (p q : String) {chunks : List String} {es es' : List Expr}
    (h : es = [] ↔ es' = []) : Corresponds p q (.template chunks es) (.template chunks es') := by
  rcases es with _ | ⟨e, es⟩ <;> rcases es' with _ | ⟨e', es'⟩
  · rcases chunks with _ | ⟨s, _ | ⟨t, chunks⟩⟩ <;>
      exact ⟨rfl, rfl, .none, rfl, .none, rfl, .none, rfl, rfl, rfl⟩
  · simp at h
  · simp at h
  · rcases chunks with _ | ⟨s, _ | ⟨t, chunks⟩⟩ <;> exact of_isUnread rfl rfl rfl rfl

theorem identifier (hp : p ≠ "undefined") (hq : q ≠ "undefined") {w : String} (hw : w ≠ q) :
    Corresponds p q (.identifier w) (.identifier (if w = p then q else w)) where
  text := rfl
  number := rfl
  name := by
    by_cases h : w = p
    · subst h
      rw [if_pos rfl]
      exact .parameter
    · rw [if_neg h]
      exact .other h hw
  accesses := by
    by_cases h : w = p
    · simp [accesses?, h]
    · simp [accesses?, h, hw]
  member := .none
  tags := rfl
  lookedUp := .none
  looksUp := rfl
  operand := by
    by_cases h : w = p
    · subst h
      simp [operandOf, hp, hq]
      rfl
    · rw [if_neg h]
      by_cases hu : w = "undefined" <;> simp [operandOf, hu] <;> rfl
  condition := rfl

theorem fieldOf (h : e.path? p = e'.path? q) :
    (operandOf.fieldOf p e).mapError (.rename p q) = operandOf.fieldOf q e' := by
  unfold operandOf.fieldOf
  rw [h]
  cases e'.path? q with
  | none => simp [Except.mapError, QueryError.rename]
  | some path => rfl

theorem truthy {x : Except QueryError Operand} {y : Except QueryError Operand}
    (h : x.mapError (.rename p q) = y) :
    (x >>= fun o => pure (Condition.truthy o)).mapError (.rename p q) =
      y >>= fun o => pure (Condition.truthy o) := by
  rw [mapError_bind, h]
  rfl

theorem unparen_operand (h : Corresponds p q o o') :
    (operandOf p o.unparen).mapError (.rename p q) = operandOf q o'.unparen := by
  rw [operandOf_unparen, operandOf_unparen, h.operand]

theorem field (h : Corresponds p q o o') (n : String) :
    Corresponds p q (.field o n) (.field o' n) := by
  have haccesses : (Expr.field o n).accesses? p = (Expr.field o' n).accesses? q := by
    rw [accesses?, accesses?, h.accesses]
  have hoperand : (operandOf p (.field o n)).mapError (.rename p q) =
      operandOf q (.field o' n) := fieldOf (by rw [path?, path?, haccesses])
  exact ⟨rfl, rfl, .none, haccesses, .some ⟨rfl, h.tags, h.unparen_operand⟩,
    rfl, .none, rfl, hoperand, truthy hoperand⟩

theorem index (ho : Corresponds p q o o') (hk : Corresponds p q k k') :
    Corresponds p q (.index o k) (.index o' k') := by
  have haccesses : (Expr.index o k).accesses? p = (Expr.index o' k').accesses? q := by
    rw [accesses?, accesses?, hk.text, ho.accesses]
  have hoperand : (operandOf p (.index o k)).mapError (.rename p q) =
      operandOf q (.index o' k') := fieldOf (by rw [path?, path?, haccesses])
  have hmember : Option.Rel (fun r r' => r.2 = r'.2 ∧ tagList? r.1 = tagList? r'.1 ∧
      (operandOf p r.1).mapError (.rename p q) = operandOf q r'.1)
      (Expr.index o k).member? (Expr.index o' k').member? := by
    rw [member?, member?, hk.text]
    cases k'.stringValue? with
    | none => exact .none
    | some n => exact .some ⟨rfl, ho.tags, ho.unparen_operand⟩
  exact ⟨rfl, rfl, .none, haccesses, hmember, rfl, .none, rfl, hoperand,
    truthy hoperand⟩

theorem privateField (p q : String) (o o' : Expr) :
    Corresponds p q (.privateField o) (.privateField o') := by
  have hoperand : (operandOf p (.privateField o)).mapError (.rename p q) =
      operandOf q (.privateField o') := fieldOf rfl
  exact of_isUnread rfl rfl hoperand (truthy hoperand)

theorem operandOf_minus (p : String) (e : Expr) :
    operandOf p (.unary .minus e) = e.unparen.number?.elim (.error .negatedNonLiteral)
      fun x => .ok (.literal (.number x.neg)) := by
  rw [operandOf]
  cases e.unparen <;> rfl

theorem unary (op : UnaryOp) (h : Corresponds p q e e') :
    Corresponds p q (.unary op e) (.unary op e') := by
  cases op with
  | minus =>
    have hoperand : (operandOf p (.unary .minus e)).mapError (.rename p q) =
        operandOf q (.unary .minus e') := by
      rw [operandOf_minus, operandOf_minus, h.number]
      cases e'.unparen.number? <;> rfl
    exact of_isUnread rfl rfl hoperand rfl
  | not =>
    have hcondition : (ofExpr p (.unary .not e)).mapError (.rename p q) =
        ofExpr q (.unary .not e') := by
      rw [ofExpr, ofExpr, mapError_bind, h.condition]
      rfl
    exact of_isUnread rfl rfl rfl hcondition
  | _ => exact of_isUnread rfl rfl rfl rfl

/-- two readings, one after the other -/
theorem mapError_bind₂ {α β γ : Type} {x : Except QueryError α} {x' : Except QueryError α}
    {y y' : Except QueryError β} (f : α → β → γ) (hx : x.mapError (.rename p q) = x')
    (hy : y.mapError (.rename p q) = y') :
    (x >>= fun a => y >>= fun b => pure (f a b)).mapError (.rename p q) =
      x' >>= fun a => y' >>= fun b => pure (f a b) := by
  simp only [mapError_bind, hx, hy, mapError_pure]

theorem ofExpr_binary {op : BinaryOp} (hand : op ≠ .and) (hor : op ≠ .or) (p : String)
    (l r : Expr) :
    ofExpr p (.binary op l r) = match comparison? op with
      | some c => operandOf p l >>= fun a => operandOf p r >>= fun b =>
          pure (Condition.compare a c b)
      | none => .error (.notAComparison op) := by
  cases op with
  | and => exact absurd rfl hand
  | or => exact absurd rfl hor
  | _ => rfl

theorem binary (op : BinaryOp) (hl : Corresponds p q l l') (hr : Corresponds p q r r') :
    Corresponds p q (.binary op l r) (.binary op l' r') := by
  have hcondition : (ofExpr p (.binary op l r)).mapError (.rename p q) =
      ofExpr q (.binary op l' r') := by
    by_cases hand : op = .and
    · subst hand
      exact mapError_bind₂ (fun a b => allOf [a, b]) hl.condition hr.condition
    · by_cases hor : op = .or
      · subst hor
        exact mapError_bind₂ (fun a b => anyOf [a, b]) hl.condition hr.condition
      · rw [ofExpr_binary hand hor, ofExpr_binary hand hor]
        cases comparison? op with
        | none => rfl
        | some c => exact mapError_bind₂ (fun a b => Condition.compare a c b) hl.operand hr.operand
  exact of_isUnread rfl rfl rfl hcondition

/-- Of an arrow function in a condition only one thing is read. -/
theorem arrow {isAsync isAsync' : Bool} {ps ps' : List (Option String)} {b b' : Option Expr}
    (h : Condition.looksUp (.arrow isAsync ps b) = Condition.looksUp (.arrow isAsync' ps' b')) :
    Corresponds p q (.arrow isAsync ps b) (.arrow isAsync' ps' b') :=
  ⟨rfl, rfl, .none, rfl, .none, rfl, .none, h, rfl, rfl⟩

/-- the result of an arrow function that asks for the same variable -/
theorem result {isAsync : Bool} {ps : List (Option String)}
    (h : ∀ v, ps = [some v] → (lookedUp? r = some v ↔ lookedUp? r' = some v)) :
    Corresponds p q (.arrow isAsync ps (some r)) (.arrow isAsync ps (some r')) := by
  refine arrow ?_
  by_cases hlambda : isAsync = false ∧ ∃ v, ps = [some v]
  · obtain ⟨rfl, v, rfl⟩ := hlambda
    rw [looksUp_lambda, looksUp_lambda, Bool.eq_iff_iff, beq_iff_eq, beq_iff_eq, h v rfl]
  · rw [looksUp_of_not_lambda hlambda, looksUp_of_not_lambda hlambda]

/-! ### Lists of parts -/

theorem mapM_congr {α β γ : Type} {f : α → Option γ} {g : β → Option γ} {xs : List α} {ys : List β}
    (h : List.Forall₂ (fun x y => f x = g y) xs ys) : xs.mapM f = ys.mapM g := by
  induction h with
  | nil => rfl
  | cons hx _ ih => rw [List.mapM_cons, List.mapM_cons, hx, ih]

theorem array {es es' : List (Option (Argument Expr))}
    (h : List.Forall₂ (Option.Rel (Argument.Passes (Corresponds p q))) es es') :
    Corresponds p q (.array es) (.array es') := by
  have htags : tagList? (.array es) = tagList? (.array es') := by
    cases h with
    | nil => rfl
    | cons ha has =>
      rw [tagList?, tagList?]
      · refine mapM_congr (List.Forall₂.imp ?_ (List.Forall₂.cons ha has))
        rintro _ _ (⟨hspread, hvalue⟩ | _)
        · simp only [hspread, hvalue.text]
        · rfl
      · simp
      · simp
  exact ⟨rfl, rfl, .none, rfl, .none, htags, .none, rfl, rfl, rfl⟩

theorem methodName (h : Corresponds p q e e') :
    e.member?.map (·.2) = e'.member?.map (·.2) := by
  have hmember := h.member
  generalize e.member? = r at hmember
  generalize e'.member? = r' at hmember
  cases hmember with
  | none => rfl
  | some h => exact congrArg some h.1

theorem lookedUpBy (method : Option String) {needle needle' : Option Expr}
    (h : Option.Rel (Corresponds p q) needle needle') :
    SameName p q (lookedUpBy? method needle) (lookedUpBy? method needle') := by
  unfold lookedUpBy?
  split
  · cases h with
    | none => exact .none
    | some h => exact h.name
  · exact .none

section Calls

variable {c c' : Expr} {as as' : List (Argument Expr)}
  (has : List.Forall₂ (Argument.Passes (Corresponds p q)) as as') (hc : Corresponds p q c c')

include has hc

theorem tagMembership : tagMembership? (some c) as = tagMembership? (some c') as' := by
  simp only [tagMembership?, Option.bind_eq_bind, Option.bind_some]
  have hmember := hc.member
  generalize c.member? = r at hmember
  generalize c'.member? = r' at hmember
  cases hmember with
  | none => rfl
  | some h =>
    obtain ⟨hmethod, htags, -⟩ := h
    simp only [Option.bind_some, hmethod, htags]
    have hneedle := plainArgument_passes has
    generalize plainArgument? as = needle at hneedle
    generalize plainArgument? as' = needle' at hneedle
    cases hneedle with
    | none => rfl
    | some h => simp only [Option.bind_some, h.looksUp]

theorem containsCall : (Condition.containsCall p (some c) as).mapError (.rename p q) =
    Condition.containsCall q (some c') as' := by
  simp only [Condition.containsCall, Option.bind_some, has.length_eq]
  have hmember := hc.member
  generalize c.member? = r at hmember
  generalize c'.member? = r' at hmember
  cases hmember with
  | none => rfl
  | @some r r' h =>
    obtain ⟨o, m⟩ := r
    obtain ⟨o', m'⟩ := r'
    obtain ⟨rfl, -, hobject⟩ := h
    have hneedle := plainArgument_passes has
    generalize plainArgument? as = needle at hneedle
    generalize plainArgument? as' = needle' at hneedle
    cases hneedle with
    | none => by_cases hm : m = "includes" <;> simp [hm] <;> rfl
    | some h =>
      by_cases hm : m = "includes"
      · subst hm
        exact mapError_bind₂ _ hobject h.operand
      · simp [hm]
        rfl

end Calls

theorem call {start start' : Nat} {c c' : Option Expr} {as as' : List (Argument Expr)}
    (hc : Option.Rel (Corresponds p q) c c')
    (has : List.Forall₂ (Argument.Passes (Corresponds p q)) as as') :
    Corresponds p q (.call start c as) (.call start' c' as') := by
  cases hc with
  | none => exact ⟨rfl, rfl, .none, rfl, .none, rfl, .none, rfl, rfl, rfl⟩
  | @some c c' hc =>
    have hlooked : SameName p q (lookedUp? (.call start (some c) as))
        (lookedUp? (.call start' (some c') as')) := by
      simp only [lookedUp?, unparen, hc.methodName]
      exact lookedUpBy _ (plainArgument_passes has)
    have hcondition : (ofExpr p (.call start (some c) as)).mapError (.rename p q) =
        ofExpr q (.call start' (some c') as') := by
      rw [ofExpr, ofExpr, hc.tagMembership has]
      cases tagMembership? (some c') as' with
      | some d => rfl
      | none => exact hc.containsCall has
    exact ⟨rfl, rfl, .none, rfl, .none, rfl, hlooked, rfl, rfl, hcondition⟩

end Corresponds

/-! ### Expressions that differ in one part -/

/-- the second expression is the first one with a related part in the place of one part -/
inductive Within (R : Expr → Expr → Prop) : Expr → Expr → Prop
  | here {e e' : Expr} : R e e' → Within R e e'
  | object {o o' : Expr} (n : String) : Within R o o' → Within R (.field o n) (.field o' n)
  | indexed {o o' : Expr} (k : Expr) : Within R o o' → Within R (.index o k) (.index o' k)
  | key {k k' : Expr} (o : Expr) : Within R k k' → Within R (.index o k) (.index o k')
  | privateObject {o o' : Expr} : Within R o o' → Within R (.privateField o) (.privateField o')
  | callee {c c' : Expr} (start : Nat) (args : List (Argument Expr)) :
      Within R c c' → Within R (.call start (some c) args) (.call start (some c') args)
  | argument {e e' : Expr} (start : Nat) (callee : Option Expr) (before : List (Argument Expr))
      (spread : Bool) (extent : Extent) (after : List (Argument Expr)) : Within R e e' →
      Within R (.call start callee (before ++ ⟨spread, extent, e⟩ :: after))
        (.call start callee (before ++ ⟨spread, extent, e'⟩ :: after))
  | element {e e' : Expr} (before : List (Option (Argument Expr))) (spread : Bool)
      (extent : Extent) (after : List (Option (Argument Expr))) : Within R e e' →
      Within R (.array (before ++ some ⟨spread, extent, e⟩ :: after))
        (.array (before ++ some ⟨spread, extent, e'⟩ :: after))
  | substitution {e e' : Expr} (chunks : List String) (before after : List Expr) : Within R e e' →
      Within R (.template chunks (before ++ e :: after)) (.template chunks (before ++ e' :: after))
  | result {r r' : Expr} (isAsync : Bool) (parameters : List (Option String)) : Within R r r' →
      Within R (.arrow isAsync parameters (some r)) (.arrow isAsync parameters (some r'))
  | link {e e' : Expr} : Within R e e' → Within R (.optional e) (.optional e')
  | operand {e e' : Expr} (op : UnaryOp) : Within R e e' → Within R (.unary op e) (.unary op e')
  | left {l l' : Expr} (op : BinaryOp) (r : Expr) :
      Within R l l' → Within R (.binary op l r) (.binary op l' r)
  | right {r r' : Expr} (op : BinaryOp) (l : Expr) :
      Within R r r' → Within R (.binary op l r) (.binary op l r')
  | part {e e' : Expr} (before after : List Expr) :
      Within R e e' → Within R (.other (before ++ e :: after)) (.other (before ++ e' :: after))

/-- lists that differ in one item -/
theorem forall₂_replace {α : Type} {S : α → α → Prop} (hrefl : ∀ x, S x x) (before after : List α)
    {x y : α} (h : S x y) : List.Forall₂ S (before ++ x :: after) (before ++ y :: after) :=
  List.rel_append (List.forall₂_same.2 fun z _ => hrefl z)
    (.cons h (List.forall₂_same.2 fun z _ => hrefl z))

/-- A part of an expression can be replaced by one that is read alike. -/
theorem Within.corresponds {R : Expr → Expr → Prop} {p : String}
    (hR : ∀ e e', R e e' → Corresponds p p e e') {e e' : Expr} (h : Within R e e') :
    Corresponds p p e e' := by
  have hargument : ∀ a : Argument Expr, Argument.Passes (Corresponds p p) a a := fun a => ⟨rfl, .refl p _⟩
  induction h with
  | here h => exact hR _ _ h
  | object n _ ih => exact ih.field n
  | indexed k _ ih => exact ih.index (.refl p k)
  | key o _ ih => exact (Corresponds.refl p o).index ih
  | privateObject _ _ => exact .privateField p p _ _
  | callee start args _ ih => exact .call (.some ih) (List.forall₂_same.2 fun a _ => hargument a)
  | argument start callee before spread extent after _ ih =>
    refine .call ?_ (forall₂_replace hargument before after ⟨rfl, ih⟩)
    cases callee with
    | none => exact .none
    | some c => exact .some (.refl p c)
  | element before spread extent after _ ih =>
    refine .array (forall₂_replace (fun a => ?_) before after (.some ⟨rfl, ih⟩))
    cases a with
    | none => exact .none
    | some a => exact .some (hargument a)
  | substitution chunks before after _ _ => exact .template p p (by simp)
  | result isAsync parameters _ ih =>
    exact .result fun v _ => by rw [ih.lookedUp.eq]
  | link _ _ => exact .optional p p _ _
  | operand op _ ih => exact ih.unary op
  | left op r _ ih => exact ih.binary op (.refl p r)
  | right op l _ ih => exact (Corresponds.refl p l).binary op ih
  | part before after _ _ => exact .other p p _ _

end PageQuery
