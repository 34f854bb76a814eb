import PageQuery.Proofs.Core
import PageQuery.Proofs.Excerpts

/-!
# What the rules of the grammar give, places aside

Two readings of one part of a script give expressions, phrases and statements that are alike: they
differ in where they stand in the text and in nothing else.  `x.Agrees m g g'` says so of the rules of
two grammars, at every place of the excerpt `x` where fewer than `m` tokens of it are left.
-/

namespace PageQuery.Script

/-! ### Expressions -/

namespace Expr

/-- the expression stands in parentheses -/
def isParen : Expr → Bool
  | .paren _ => true
  | _ => false

/-- the expressions differ in their places only -/
structure Alike (e e' : Expr) : Prop where
  core : e.core = e'.core
  isParen : e.isParen = e'.isParen

@[refl] theorem Alike.refl (e : Expr) : e.Alike e := ⟨rfl, rfl⟩

variable {e e' : Expr}

theorem alike_paren (h : e.Alike e') : (Expr.paren e).Alike (.paren e') := ⟨h.core, rfl⟩

theorem alike_other {es es' : List Expr} (h : List.Forall₂ Alike es es') :
    (Expr.other es).Alike (.other es') := by
  have hmap : coreAll es = coreAll es' := by
    induction h with
    | nil => rfl
    | cons he _ ih => exact congrArg₂ List.cons he.core ih
  exact ⟨congrArg Expr.other hmap, rfl⟩

/-- What depends on the form of an expression out of parentheses is the same for both. -/
theorem Alike.congr {α : Type} {f : Expr → α} (h : e.Alike e')
    (hparen : ∀ i, f (.paren i) = f (.paren .null))
    (hcore : ∀ e : Expr, e.isParen = false → f e = f e.core) : f e = f e' := by
  cases hp : e.isParen with
  | false => rw [hcore e hp, hcore e' (h.isParen.symm.trans hp), h.core]
  | true =>
    have hinner : ∀ e : Expr, e.isParen = true → f e = f (.paren .null) := by
      intro e he
      cases e with
      | paren i => exact hparen i
      | _ => cases he
    rw [hinner e hp, hinner e' (h.isParen.symm.trans hp)]

open Grammar

theorem Alike.operator? (h : e.Alike e') : operator? e = operator? e' :=
  h.congr (fun _ => rfl) fun e he => by cases e <;> first | rfl | cases he

theorem Alike.inChain (h : e.Alike e') : inChain e = inChain e' :=
  h.congr (fun _ => rfl) fun e he => by cases e <;> first | rfl | cases he

theorem Alike.isVariable (h : e.Alike e') : isVariable e = isVariable e' :=
  h.congr (fun _ => rfl) fun e he => by cases e <;> first | rfl | cases he

theorem Alike.isDirective (h : e.Alike e') :
    isDirective (.expression e) = isDirective (.expression e') := by
  refine h.congr (f := fun e => Grammar.isDirective (.expression e)) (fun _ => rfl) fun e he => ?_
  cases e <;> first | rfl | cases he

theorem Alike.isStrictDirective (h : e.Alike e') :
    isStrictDirective (.expression e) = isStrictDirective (.expression e') := by
  refine h.congr (f := fun e => Grammar.isStrictDirective (.expression e)) (fun _ => rfl) fun e he => ?_
  cases e <;> first | rfl | cases he

end Expr

/-- the arguments differ in their places only -/
structure Argument.Alike (a a' : Argument Expr) : Prop where
  spread : a.spread = a'.spread
  value : a.value.Alike a'.value

theorem Argument.Alike.core {a a' : Argument Expr} (h : a.Alike a') : a.core = a'.core := by
  rw [Argument.core, Argument.core, h.spread, h.value.core]

namespace Expr

variable {e e' : Expr}

theorem alike_field (h : e.Alike e') (w : String) : (field e w).Alike (field e' w) :=
  ⟨congrArg (field · w) h.core, rfl⟩

theorem alike_index {k k' : Expr} (h : e.Alike e') (hk : k.Alike k') :
    (index e k).Alike (index e' k') := ⟨congrArg₂ index h.core hk.core, rfl⟩

theorem alike_privateField (h : e.Alike e') : (privateField e).Alike (privateField e') :=
  ⟨congrArg privateField h.core, rfl⟩

theorem alike_optional (h : e.Alike e') : (optional e).Alike (optional e') :=
  ⟨congrArg optional h.core, rfl⟩

theorem alike_unary (op : UnaryOp) (h : e.Alike e') : (unary op e).Alike (unary op e') :=
  ⟨congrArg (unary op) h.core, rfl⟩

theorem alike_binary (op : BinaryOp) {r r' : Expr} (h : e.Alike e') (hr : r.Alike r') :
    (binary op e r).Alike (binary op e' r') := ⟨congrArg₂ (binary op) h.core hr.core, rfl⟩

theorem alike_call {start start' : Nat} {callee callee' : Option Expr}
    {as as' : List (Argument Expr)} (h : Option.Rel Alike callee callee')
    (has : List.Forall₂ Argument.Alike as as') :
    (call start callee as).Alike (call start' callee' as') := by
  refine ⟨?_, rfl⟩
  have hcallee : callee.map core = callee'.map core := by
    cases h with
    | none => rfl
    | some h => exact congrArg some h.core
  have hargs : as.map Argument.core = as'.map Argument.core := by
    induction has with
    | nil => rfl
    | cons ha _ ih => exact congrArg₂ List.cons ha.core ih
  rw [core_call, core_call, hcallee, hargs]

theorem alike_array {es es' : List (Option (Argument Expr))}
    (h : List.Forall₂ (Option.Rel Argument.Alike) es es') : (array es).Alike (array es') := by
  refine ⟨?_, rfl⟩
  have hes : es.map (Option.map Argument.core) = es'.map (Option.map Argument.core) := by
    induction h with
    | nil => rfl
    | cons he _ ih =>
      refine congrArg₂ List.cons ?_ ih
      cases he with
      | none => rfl
      | some h => exact congrArg some h.core
  rw [core_array, core_array, hes]

theorem alike_template (ts : List String) {es es' : List Expr} (h : List.Forall₂ Alike es es') :
    (template ts es).Alike (template ts es') := by
  refine ⟨?_, rfl⟩
  have hes : coreAll es = coreAll es' := by
    induction h with
    | nil => rfl
    | cons he _ ih => exact congrArg₂ List.cons he.core ih
  exact congrArg (template ts) hes

theorem alike_arrow (isAsync : Bool) (ps : List (Option String)) {r r' : Option Expr}
    (h : Option.Rel Alike r r') : (arrow isAsync ps r).Alike (arrow isAsync ps r') := by
  refine ⟨?_, rfl⟩
  rw [core_arrow, core_arrow]
  cases h with
  | none => rfl
  | some h => simp only [Option.map_some, h.core]

end Expr

/-! ### Phrases -/

namespace Phrase

/-- the phrases differ in their places only -/
structure Alike (p p' : Phrase) : Prop where
  expr : p.expr.Alike p'.expr
  role : p.role = p'.role
  binding : p.binding = p'.binding
  unsettled : p.unsettled.isSome = p'.unsettled.isSome
  isArrow : p.isArrow = p'.isArrow
  isUnary : p.isUnary = p'.isUnary

variable {p p' : Phrase}

theorem Alike.inPattern (h : p.Alike p') : p.inPattern = p'.inPattern := by
  rw [Phrase.inPattern, Phrase.inPattern, h.role]

theorem Alike.takesRest (h : p.Alike p') : Grammar.takesRest p = Grammar.takesRest p' := by
  rw [Grammar.takesRest, Grammar.takesRest, h.role]

theorem Alike.argument (h : p.Alike p') (spread : Bool) :
    (p.argument spread).Alike (p'.argument spread) := ⟨rfl, h.expr⟩

theorem Alike.parameterName (h : p.Alike p') :
    Grammar.parameterName p = Grammar.parameterName p' := by
  have hf : ∀ q : Phrase, Grammar.parameterName q = Grammar.parameterName { p with expr := q.expr } :=
    fun _ => rfl
  rw [hf p, hf p']
  exact h.expr.congr (f := fun e => Grammar.parameterName { p with expr := e })
    (fun _ => rfl) fun e he => by cases e <;> first | rfl | cases he

/-- items of a list, each with whether it is spread -/
structure ItemAlike (i i' : Bool × Phrase) : Prop where
  spread : i.1 = i'.1
  phrase : i.2.Alike i'.2

end Phrase

/-! ### Statements -/

/-- the statements differ in their places only -/
inductive Statement.Alike : Statement → Statement → Prop
  | expression {e e' : Expr} : e.Alike e' → Alike (.expression e) (.expression e')
  | returning {e e' : Option Expr} : Option.Rel Expr.Alike e e' →
    Alike (.returning e) (.returning e')
  | other : Alike .other .other

namespace Statement

open Grammar

variable {a a' : Statement}

theorem Alike.isDirective (h : a.Alike a') : isDirective a = isDirective a' := by
  cases h with
  | expression h => exact h.isDirective
  | returning _ => rfl
  | other => rfl

theorem Alike.isStrictDirective (h : a.Alike a') : isStrictDirective a = isStrictDirective a' := by
  cases h with
  | expression h => exact h.isStrictDirective
  | returning _ => rfl
  | other => rfl

theorem resultOf_alike {as as' : List Statement} (h : List.Forall₂ Alike as as') :
    Option.Rel Expr.Alike (resultOf as) (resultOf as') := by
  rcases h with _ | ⟨h, _ | ⟨_, _⟩⟩
  · exact .none
  · cases h with
    | expression _ => exact .none
    | other => exact .none
    | returning h =>
      cases h with
      | none => exact .none
      | some h => exact .some h
  · cases h with
    | expression _ => exact .none
    | other => exact .none
    | returning h => cases h <;> exact .none

end Statement

/-! ### Scopes and grammars -/

/-- the scope of the same rule, so many bytes further on in a text -/
def Scope.moved (n : Nat) (s : Scope) : Scope := { s with arrowStart := s.arrowStart.map (· + n) }

theorem Scope.arrowStart_moved (n start : Nat) (s : Scope) :
    ((s.moved n).arrowStart == some (start + n)) = (s.arrowStart == some start) := by
  have hmoved : (s.moved n).arrowStart = s.arrowStart.map (· + n) := rfl
  rw [hmoved]
  cases s.arrowStart <;> simp

namespace Excerpt

open Reader

/-- The rules of the grammars agree where fewer than `m` tokens of the excerpt are left. -/
structure Agrees (x : Excerpt) (m : Nat) (g g' : Grammar) : Prop where
  reads : g.ReadsPhrases
  fuel : m ≤ g'.fuel
  assignment : ∀ scope {s s'}, x.Mirror m s s' →
    x.Agree (g.assignment (scope.moved x.shift)) (g'.assignment scope) s s' Phrase.Alike
  unary : ∀ scope {s s'}, x.Mirror m s s' →
    x.Agree (g.unary (scope.moved x.shift)) (g'.unary scope) s s' Phrase.Alike
  member : ∀ calls scope {s s'}, x.Mirror m s s' →
    x.Agree (g.member calls (scope.moved x.shift)) (g'.member calls scope) s s' Phrase.Alike
  pattern : ∀ scope {s s'}, x.Mirror m s s' →
    x.Agree (g.pattern (scope.moved x.shift)) (g'.pattern scope) s s' fun _ _ => True
  advances : ∀ place scope s, (g.statement place scope).Ensures s fun _ t => s.Advances 1 t
  /-- a statement begins with no token of its own -/
  statement : ∀ {k} place scope {s s'}, k < m → x.Mirror k s s' →
    x.Agree (g.statement place (scope.moved x.shift)) (g'.statement place scope) s s'
      Statement.Alike

variable {x : Excerpt} {s s' : ReaderState} {p p' : Phrase} {e e' : Expr}

theorem agree_settle (h : x.Aligned s s') (hp : p.Alike p') :
    x.Agree p.settle p'.settle s s' Phrase.Alike := by
  have hunsettled := hp.unsettled
  unfold Phrase.settle
  rcases hu : p.unsettled with _ | o
  · rw [hu, Option.isSome_none, eq_comm, Option.isSome_eq_false_iff, Option.isNone_iff_eq_none]
      at hunsettled
    rw [hunsettled]
    exact agree_pure h hp
  · exact agree_failAt

theorem agree_settle_bind {γ δ : Type} {S : γ → δ → Prop} {f : Phrase → Reader γ}
    {f' : Phrase → Reader δ} (hp : p.Alike p') (hf : x.Agree (f p) (f' p') s s' S) :
    x.Agree (p.settle >>= f) (p'.settle >>= f') s s' S := by
  have hunsettled := hp.unsettled
  unfold Phrase.settle
  rcases hu : p.unsettled with _ | o
  · rw [hu, Option.isSome_none, eq_comm, Option.isSome_eq_false_iff, Option.isNone_iff_eq_none]
      at hunsettled
    rw [hunsettled]
    exact hf
  · exact agree_failAt_bind

theorem agree_phraseFrom {start start' : Nat} {role : Role} (h : x.Aligned s s') (he : e.Alike e') :
    x.Agree (Grammar.phraseFrom start e role) (Grammar.phraseFrom start' e' role) s s' Phrase.Alike :=
  agree_lastStop (agree_pure h ⟨he, rfl, rfl, rfl, rfl, rfl⟩)

end Excerpt

end PageQuery.Script
