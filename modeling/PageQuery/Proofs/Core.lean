import PageQuery.Query.Selector
import PageQuery.Proofs.Predicate

/-!
# What callbacks are recognized by

`Expr.core e` is `e` without parentheses and without the places in the text that it keeps.  Whether
and how a callback is recognized depends on its core alone: `lambda?_core`, `path?_core` and
`ofExpr_core` say so for the readings and for the conditions.
-/

namespace PageQuery.Script

namespace Expr

mutual
/-- the expression without parentheses and places -/
def core : Expr → Expr
  | .identifier w => .identifier w
  | .string s => .string s
  | .number x => .number x
  | .bool b => .bool b
  | .null => .null
  | .bigint => .bigint
  | .regex => .regex
  | .template chunks es => .template chunks (coreAll es)
  | .array elements => .array (coreElements elements)
  | .object => .object
  | .function => .function
  | .arrow isAsync parameters result => .arrow isAsync parameters (coreOption result)
  | .field o n => .field o.core n
  | .index o k => .index o.core k.core
  | .privateField o => .privateField o.core
  | .call _ callee args => .call 0 (coreOption callee) (coreArguments args)
  | .optional e => .optional e.core
  | .unary op e => .unary op e.core
  | .binary op l r => .binary op l.core r.core
  | .paren e => e.core
  | .other es => .other (coreAll es)
/-- the cores of several expressions -/
def coreAll : List Expr → List Expr
  | [] => []
  | e :: es => e.core :: coreAll es
/-- the core of an expression that may be left out -/
def coreOption : Option Expr → Option Expr
  | none => none
  | some e => some e.core
/-- the arguments with the cores of their values -/
def coreArguments : List (Argument Expr) → List (Argument Expr)
  | [] => []
  | ⟨spread, _, e⟩ :: as => ⟨spread, ⟨0, 0⟩, e.core⟩ :: coreArguments as
/-- the elements with the cores of their values -/
def coreElements : List (Option (Argument Expr)) → List (Option (Argument Expr))
  | [] => []
  | none :: es => none :: coreElements es
  | some ⟨spread, _, e⟩ :: es => some ⟨spread, ⟨0, 0⟩, e.core⟩ :: coreElements es
end

end Expr

/-- the argument with the core of its value -/
def Argument.core (a : Argument Expr) : Argument Expr := ⟨a.spread, ⟨0, 0⟩, a.value.core⟩

namespace Expr

theorem coreAll_eq (es : List Expr) : coreAll es = es.map core := by
  induction es with
  | nil => rfl
  | cons e es ih => exact congrArg (e.core :: ·) ih

theorem coreOption_eq (e : Option Expr) : coreOption e = e.map core := by
  cases e <;> rfl

theorem coreArguments_eq (as : List (Argument Expr)) : coreArguments as = as.map Argument.core := by
  induction as with
  | nil => rfl
  | cons a as ih => exact congrArg (a.core :: ·) ih

theorem coreElements_eq (es : List (Option (Argument Expr))) :
    coreElements es = es.map (Option.map Argument.core) := by
  induction es with
  | nil => rfl
  | cons e es ih => cases e <;> exact congrArg (_ :: ·) ih

theorem core_paren (e : Expr) : (paren e).core = e.core := rfl

theorem core_field (o : Expr) (n : String) : (field o n).core = .field o.core n := rfl

theorem core_index (o k : Expr) : (index o k).core = .index o.core k.core := rfl

theorem core_unary (op : UnaryOp) (e : Expr) : (unary op e).core = .unary op e.core := rfl

theorem core_binary (op : BinaryOp) (l r : Expr) :
    (binary op l r).core = .binary op l.core r.core := rfl

theorem core_array (es : List (Option (Argument Expr))) :
    (array es).core = .array (es.map (Option.map Argument.core)) :=
  congrArg array (coreElements_eq es)

theorem core_arrow (isAsync : Bool) (ps : List (Option String)) (r : Option Expr) :
    (arrow isAsync ps r).core = .arrow isAsync ps (r.map core) :=
  congrArg (arrow isAsync ps) (coreOption_eq r)

theorem core_call (start : Nat) (callee : Option Expr) (as : List (Argument Expr)) :
    (call start callee as).core = .call 0 (callee.map core) (as.map Argument.core) :=
  congrArg₂ (call 0) (coreOption_eq callee) (coreArguments_eq as)

/-! ### Readings -/

theorem unparen_ne_paren (e i : Expr) : e.unparen ≠ .paren i := by
  fun_induction unparen e with
  | case1 e ih => exact ih
  | case2 e h => exact h i

@[simp] theorem core_unparen (e : Expr) : e.unparen.core = e.core := by
  fun_induction unparen e with
  | case1 e ih => rw [ih, core_paren]
  | case2 e _ => rfl

/-- A core stands in no parentheses. -/
@[simp] theorem unparen_core (e : Expr) : e.core.unparen = e.core := by
  induction e using unparen.induct with
  | case1 e ih => rw [core_paren, ih]
  | case2 e h => cases e <;> first | rfl | exact absurd rfl (h _)

@[simp] theorem stringValue?_core (e : Expr) : e.core.stringValue? = e.stringValue? := by
  induction e using unparen.induct with
  | case1 e ih => rw [core_paren, ih, stringValue?]
  | case2 e h =>
    cases e with
    | paren e => exact absurd rfl (h e)
    | template chunks es =>
      rcases chunks with _ | ⟨s, _ | ⟨t, chunks⟩⟩ <;> cases es <;> rfl
    | _ => rfl

@[simp] theorem variableName?_core (e : Expr) : e.core.variableName? = e.variableName? := by
  induction e using unparen.induct with
  | case1 e ih => rw [core_paren, ih, variableName?]
  | case2 e h =>
    cases e with
    | paren e => exact absurd rfl (h e)
    | _ => rfl

theorem member?_core (e : Expr) : e.core.member? = e.member?.map fun r => (r.1.core, r.2) := by
  induction e using unparen.induct with
  | case1 e ih => rw [core_paren, ih, member?]
  | case2 e h =>
    cases e with
    | paren e => exact absurd rfl (h e)
    | field o n => simp [core_field, member?]
    | index o k => simp [core_index, member?, Function.comp_def]
    | _ => rfl

theorem lambda?_core (e : Expr) : e.core.lambda? = e.lambda?.map fun r => (r.1, r.2.core) := by
  induction e using unparen.induct with
  | case1 e ih => rw [core_paren, ih, lambda?]
  | case2 e h =>
    cases e with
    | paren e => exact absurd rfl (h e)
    | arrow isAsync parameters result =>
      rw [core_arrow]
      rcases isAsync, parameters, result with ⟨_ | _, _ | ⟨_ | p, _ | _⟩, _ | r⟩ <;> simp [lambda?]
    | _ => rfl

@[simp] theorem accesses?_core (p : String) (e : Expr) : e.core.accesses? p = e.accesses? p := by
  fun_induction accesses? p e with
  | case1 e ih => rw [core_paren, ih]
  | case2 w hw => exact if_pos hw
  | case3 w hw => exact if_neg hw
  | case4 o n hn ih => simp [core_field, accesses?, hn, ih]
  | case5 o n hn => simp [core_field, accesses?, hn]
  | case6 o k n hk hn ih => simp [core_index, accesses?, hk, hn, ih]
  | case7 o k n hk hn => simp [core_index, accesses?, hk, hn]
  | case8 o k hk => simp [core_index, accesses?, hk]
  | case9 e hparen hname hfield hindex =>
    cases e with
    | paren e => exact absurd rfl (hparen e)
    | identifier w => exact absurd rfl (hname w)
    | field o n => exact absurd rfl (hfield o n)
    | index o k => exact absurd rfl (hindex o k)
    | _ => rfl

@[simp] theorem path?_core (p : String) (e : Expr) : e.core.path? p = e.path? p := by
  rw [path?, path?, accesses?_core]

end Expr

end PageQuery.Script

namespace PageQuery

open Script Script.Expr

/-! ### Conditions -/

namespace Condition

@[simp] theorem operandOf_core (p : String) (e : Expr) : operandOf p e.core = operandOf p e := by
  have hfield : ∀ e : Expr, operandOf.fieldOf p e.core = operandOf.fieldOf p e := by
    intro e
    rw [operandOf.fieldOf, operandOf.fieldOf, path?_core]
  induction e using unparen.induct with
  | case1 e ih => rw [core_paren, ih, operandOf]
  | case2 e h =>
    cases e with
    | paren e => exact absurd rfl (h e)
    | template chunks es =>
      rcases chunks with _ | ⟨s, _ | ⟨t, chunks⟩⟩ <;> cases es <;> rfl
    | unary op e =>
      cases op with
      | minus =>
        rw [core_unary, operandOf, operandOf, unparen_core, ← core_unparen]
        have hne := unparen_ne_paren e
        generalize e.unparen = i at hne
        cases i with
        | paren i => exact absurd rfl (hne i)
        | _ => rfl
      | _ => rfl
    | field o n => exact hfield (.field o n)
    | index o k => exact hfield (.index o k)
    | privateField o => exact hfield (.privateField o)
    | _ => rfl

@[simp] theorem plainArgument?_core (args : List (Argument Expr)) :
    plainArgument? (args.map Argument.core) = (plainArgument? args).map core := by
  rcases args with _ | ⟨a, _ | ⟨b, args⟩⟩
  · rfl
  · simp only [List.map_cons, List.map_nil, plainArgument?, Argument.core]
    split <;> rfl
  · rfl

@[simp] theorem looksUp_core (e : Expr) : looksUp e.core = looksUp e := by
  unfold looksUp
  rw [lambda?_core]
  rcases hl : e.lambda? with _ | ⟨v, body⟩
  · rfl
  · obtain ⟨body, -, rfl⟩ := lambda?_eq_some.1 hl
    have hne := unparen_ne_paren body
    generalize body.unparen = i at hne
    cases i with
    | paren i => exact absurd rfl (hne i)
    | call start callee args =>
      cases callee with
      | none => rfl
      | some callee =>
        simp only [Option.map_some, core_call, member?_core, plainArgument?_core]
        rcases callee.member? with _ | ⟨o, m⟩
        · rfl
        · by_cases hm : m = "includes"
          · subst hm
            rcases plainArgument? args with _ | needle
            · rfl
            · simp
          · simp [hm]
    | _ => rfl

theorem tagList?_core {e : Expr} (h : ∀ i, e ≠ .paren i) : tagList? e.core = tagList? e := by
  cases e with
  | paren e => exact absurd rfl (h e)
  | array elements =>
    rw [core_array]
    cases elements with
    | nil => rfl
    | cons element elements =>
      simp only [List.map_cons, tagList?]
      rw [← List.map_cons, List.mapM_map]
      congr 1
      funext a
      cases a with
      | none => rfl
      | some a => simp [Argument.core]
  | _ => rfl

theorem tagMembership?_core (callee : Option Expr) (args : List (Argument Expr)) :
    tagMembership? (callee.map core) (args.map Argument.core) = tagMembership? callee args := by
  unfold tagMembership?
  cases callee with
  | none => rfl
  | some callee =>
    simp only [Option.map_some, Option.bind_eq_bind, Option.bind_some, member?_core,
      plainArgument?_core]
    rcases hm : callee.member? with _ | ⟨o, m⟩
    · rfl
    · obtain ⟨o, -, rfl⟩ := member?_eq_some.1 hm
      simp only [Option.map_some, Option.bind_some, tagList?_core (unparen_ne_paren o)]
      rcases plainArgument? args with _ | callback
      · rfl
      · simp only [Option.map_some, Option.bind_some, looksUp_core]

theorem containsCall_core (p : String) (callee : Option Expr) (args : List (Argument Expr)) :
    containsCall p (callee.map core) (args.map Argument.core) = containsCall p callee args := by
  unfold containsCall
  have hmember : (callee.map core).bind member? =
      (callee.bind member?).map fun r => (r.1.core, r.2) := by
    cases callee with
    | none => rfl
    | some callee => exact member?_core callee
  rw [hmember, plainArgument?_core]
  rcases callee.bind member? with _ | ⟨o, m⟩
  · rfl
  · by_cases hm : m = "includes"
    · subst hm
      rcases plainArgument? args with _ | needle
      · simp
      · simp
    · simp [hm]

@[simp] theorem ofExpr_core (p : String) (e : Expr) : ofExpr p e.core = ofExpr p e := by
  fun_induction ofExpr p e with
  | case1 e ih => rw [core_paren, ih]
  | case2 l r ihr ihl => rw [core_binary, ofExpr, ihl, ihr]
  | case3 l r ihr ihl => rw [core_binary, ofExpr, ihl, ihr]
  | case4 op l r hand hor c hc => simp [core_binary, ofExpr, hc]
  | case5 op l r hand hor hc => simp [core_binary, ofExpr, hc]
  | case6 e ih => rw [core_unary, ofExpr, ih]
  | case7 start callee args c hc => simp [core_call, ofExpr, tagMembership?_core, hc]
  | case8 start callee args hc =>
    simp [core_call, ofExpr, tagMembership?_core, containsCall_core, hc]
  | case9 o n => rw [← operandOf_core]; rfl
  | case10 o k => rw [← operandOf_core]; rfl
  | case11 o => rw [← operandOf_core]; rfl
  | case12 b => rfl
  | case13 e hparen hand hor hbinary hnot hcall hfield hindex hprivate hbool =>
    cases e with
    | paren e => exact absurd rfl (hparen e)
    | binary op l r => exact absurd rfl (hbinary op l r)
    | unary op e => cases op <;> first | rfl | exact absurd rfl (hnot e)
    | call start callee args => exact absurd rfl (hcall start callee args)
    | field o n => exact absurd rfl (hfield o n)
    | index o k => exact absurd rfl (hindex o k)
    | privateField o => exact absurd rfl (hprivate o)
    | bool b => exact absurd rfl (hbool b)
    | _ => rfl

end Condition

end PageQuery
