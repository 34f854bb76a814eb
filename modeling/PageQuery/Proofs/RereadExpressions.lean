import PageQuery.Proofs.RereadFunctions

/-!
# Expressions read twice

The rules for expressions agree on an excerpt if those one level down do.  There is one lemma for each
rule.
-/

namespace PageQuery.Script.Grammar

open Reader ReaderState Excerpt

variable {x : Excerpt} {m : Nat} {g g' : Grammar} (hg : x.Agrees m g g') (scope : Scope)
  {s s' : ReaderState} (h : x.Mirror m s s')

include hg h

/-! ### Sequences -/

theorem sequenceTail_agrees {n n' : Nat} (hn : x.Within n' s) :
    x.Agree (g.sequenceTail (scope.moved x.shift) n) (g'.sequenceTail scope n') s s'
      (List.Forall₂ Phrase.Alike) := by
  induction n' generalizing n s s' with
  | zero => exact absurd hn h.not_within_zero
  | succ n' ih =>
    rcases n with _ | n
    · exact agree_fail
    rw [sequenceTail, sequenceTail]
    refine agree_ifEat h (fun t t' hst ht => ?_) fun _ => agree_pure h.toAligned .nil
    refine agree_bind ht (value_agrees hg scope ht) fun p p' u u' hp hu htu => ?_
    have hnu := hn.less ((hst.advances.trans htu).mono le_rfl)
    exact agree_bind hu (ih hu hnu) fun ps ps' v v' hps hv _ => agree_pure hv.toAligned (.cons hp hps)

omit hg h in
theorem forall₂_expr {ps ps' : List Phrase} (h : List.Forall₂ Phrase.Alike ps ps') :
    List.Forall₂ Expr.Alike (ps.map (·.expr)) (ps'.map (·.expr)) := by
  simpa using h.imp fun _ _ hp => hp.expr

theorem openExpression_agrees :
    x.Agree (g.openExpression (scope.moved x.shift)) (g'.openExpression scope) s s' Phrase.Alike := by
  refine agree_bind h (hg.assignment scope h) fun p p' t t' hp ht _ => ?_
  refine agree_ifAhead ht (fun hk => ?_) (fun l l' hi hk => ?_) fun _ => agree_pure ht.toAligned hp
  · simp only [ensures_bind, ensures_settle, ensures_phraseFrom]
    exact fun _ => (sequenceTail_advances hk _).mono fun _ _ hu => hu
  · refine agree_bind ht (agree_settle ht.toAligned hp) fun q q' u u' hq hu _ => ?_
    refine agree_bind hu (sequenceTail_agrees hg scope hu (hu.within.mono hg.fuel)) ?_
    intro ps ps' v v' hps hv _
    exact agree_phraseFrom hv.toAligned (Expr.alike_other (.cons hq.expr (forall₂_expr hps)))

theorem expression_agrees :
    x.Agree (g.expression (scope.moved x.shift)) (g'.expression scope) s s' Phrase.Alike :=
  agree_bind h (openExpression_agrees hg scope h) fun _ _ _ _ hp ht _ => agree_settle ht.toAligned hp

/-! ### Arguments and elements -/

theorem callArgument_agrees :
    x.Agree (g.callArgument (scope.moved x.shift)) (g'.callArgument scope) s s' Argument.Alike := by
  have hvalue : ∀ (spread : Bool) {t t' : ReaderState}, x.Mirror m t t' →
      x.Agree (do pure ((← g.value (scope.moved x.shift).enclosed).argument spread))
        (do pure ((← g'.value scope.enclosed).argument spread)) t t' Argument.Alike :=
    fun spread t t' ht => agree_bind ht (value_agrees hg scope.enclosed ht)
      fun p p' u u' hp hu _ => agree_pure hu.toAligned (hp.argument spread)
  exact agree_eat h (fun t t' _ ht => hvalue true ht) fun _ => hvalue false h

theorem callArguments_agrees :
    x.Agree (g.callArguments (scope.moved x.shift)) (g'.callArguments scope) s s'
      (List.Forall₂ Argument.Alike) := by
  refine agree_bind h (agree_listUpTo (fun t t' l l' ht _ => callArgument_agrees hg scope ht) h
    (h.within.mono hg.fuel)) fun r r' t t' hr ht _ => ?_
  exact agree_pure ht.toAligned hr.1

open Phrase (ItemAlike)

theorem arrayElement_agrees {l l' : Lexeme} (hi : x.Inside s s' l l') :
    x.Agree (g.arrayElement (scope.moved x.shift)) (g'.arrayElement scope) s s'
      (Option.Rel ItemAlike) := by
  have helement : ∀ (spread : Bool) {t t' : ReaderState}, x.Mirror m t t' →
      x.Agree (do pure (some (spread, ← g.assignment (scope.moved x.shift).enclosed)))
        (do pure (some (spread, ← g'.assignment scope.enclosed))) t t' (Option.Rel ItemAlike) :=
    fun spread t t' ht => agree_bind ht (hg.assignment scope.enclosed ht)
      fun p p' u u' hp hu _ => agree_pure hu.toAligned (.some ⟨rfl, hp⟩)
  refine agree_isAhead_inside hi fun b _ =>
    agree_ite (fun _ => agree_pure h.toAligned .none) fun _ => ?_
  exact agree_eat h (fun t t' _ ht => helement true ht) fun _ => helement false h

omit hg h

theorem elementsRead_alike {single rest : Phrase → Bool}
    (hsingle : ∀ {p p' : Phrase}, p.Alike p' → single p = single p')
    (hrest : ∀ {p p' : Phrase}, p.Alike p' → rest p = rest p') (trailing : Bool)
    {es es' : List (Option (Bool × Phrase))} (h : List.Forall₂ (Option.Rel ItemAlike) es es') :
    elementsRead single rest trailing es = elementsRead single rest trailing es' := by
  induction h with
  | nil => rfl
  | @cons e e' es es' he hes ih =>
    cases he with
    | none => exact ih
    | @some i i' hi =>
      obtain ⟨spread, p⟩ := i
      obtain ⟨_, p'⟩ := i'
      obtain ⟨rfl, hp⟩ := hi
      have hempty : es.isEmpty = es'.isEmpty := by cases hes <;> rfl
      cases spread
      · simp only [elementsRead, hsingle hp, ih]
      · simp only [elementsRead, hrest hp, hempty]

theorem findSome_alike {α : Type} {R : α → α → Prop} {f : α → Option Nat}
    (hf : ∀ {a a'}, R a a' → (f a).isSome = (f a').isSome) {as as' : List α}
    (h : List.Forall₂ R as as') : (as.findSome? f).isSome = (as'.findSome? f).isSome := by
  induction h with
  | nil => rfl
  | cons ha _ ih =>
    have := hf ha
    simp only [List.findSome?_cons]
    split <;> split <;> simp_all

theorem forall₂_argument {es es' : List (Option (Bool × Phrase))}
    (h : List.Forall₂ (Option.Rel ItemAlike) es es') :
    List.Forall₂ (Option.Rel Argument.Alike) (es.map fun e => e.map fun e => e.2.argument e.1)
      (es'.map fun e => e.map fun e => e.2.argument e.1) := by
  induction h with
  | nil => exact .nil
  | cons he _ ih =>
    refine .cons ?_ ih
    cases he with
    | none => exact .none
    | some hi => exact .some ⟨hi.spread, hi.phrase.expr⟩

theorem firstUnsettled_alike {es es' : List (Option (Bool × Phrase))}
    (h : List.Forall₂ (Option.Rel ItemAlike) es es') :
    (firstUnsettled (es.filterMap fun e => e.map (·.2))).isSome =
      (firstUnsettled (es'.filterMap fun e => e.map (·.2))).isSome := by
  have hphrases : List.Forall₂ Phrase.Alike (es.filterMap fun e => e.map (·.2))
      (es'.filterMap fun e => e.map (·.2)) := by
    induction h with
    | nil => exact .nil
    | cons he _ ih =>
      cases he with
      | none => exact ih
      | some hi => exact .cons hi.phrase ih
  exact findSome_alike (fun hp => hp.unsettled) hphrases

include hg h

theorem arrayLiteral_agrees (start start' : Nat) :
    x.Agree (g.arrayLiteral start (scope.moved x.shift)) (g'.arrayLiteral start' scope) s s'
      Phrase.Alike := by
  refine agree_bind h (agree_listUpTo (fun t t' l l' ht hi => arrayElement_agrees hg scope ht hi) h
    (h.within.mono hg.fuel)) ?_
  rintro ⟨es, trailing⟩ ⟨es', _⟩ t t' ⟨hes, rfl⟩ ht _
  dsimp only
  rw [elementsRead_alike (fun hp => hp.inPattern) (fun hp => hp.takesRest) trailing hes]
  refine agree_bind ht (agree_phraseFrom ht.toAligned (Expr.alike_array (forall₂_argument hes))) ?_
  intro p p' u u' hp hu _
  refine agree_pure hu.toAligned { hp with binding := ?_, unsettled := firstUnsettled_alike hes }
  exact elementsRead_alike (fun hp => hp.binding)
    (fun {p p'} hp => by rw [hp.binding, hp.takesRest]) trailing hes

/-! ### Object literals -/

omit hg h in
/-- the members differ in their places only -/
structure ObjectMember.Alike (a a' : ObjectMember) : Prop where
  inPattern : a.inPattern = a'.inPattern
  binding : a.binding = a'.binding
  unsettled : a.unsettled.isSome = a'.unsettled.isSome
  isRest : a.isRest = a'.isRest

theorem objectMember_agrees {l l' : Lexeme} (hi : x.Inside s s' l l') :
    x.Agree (g.objectMember (scope.moved x.shift)) (g'.objectMember scope) s s'
      ObjectMember.Alike := by
  refine agree_ifEat h (fun t t' _ ht => ?_) fun _ => ?_
  · refine agree_bind ht (hg.assignment scope.enclosed ht) fun p p' u u' hp hu _ => ?_
    rw [hp.role, hp.binding]
    exact agree_pure hu.toAligned ⟨rfl, rfl, hp.unsettled, rfl⟩
  · refine agree_bind h (modifiers_agrees h hi) ?_
    rintro a _ t t' rfl ht _
    refine agree_offset fun start start' => agree_of_inside ht ?_ fun l l' hi => ?_
    · rw [ensures_bind, ensures_peek, ensures_bind]
      exact (key_advances _).mono fun _ _ hu => (ensures_advances _ _).mono fun _ _ hv => hu.trans hv
    refine agree_peek_inside hi fun k hk => agree_bind ht (key_agrees hg scope ht) ?_
    rintro b _ u u' rfl hu _
    split
    · exact agree_fail
    refine agree_isAhead hu rfl fun b _ => agree_ite (fun _ => ?_) fun _ =>
      agree_ite (fun _ => agree_fail) fun _ => ?_
    · exact agree_bind hu (method_agrees hg scope hu a) fun _ _ _ _ _ hv _ =>
        agree_pure hv.toAligned ⟨rfl, rfl, rfl, rfl⟩
    refine agree_ifEat hu (fun v v' _ hv => ?_) fun _ => agree_ite (fun _ => ?_) fun _ => ?_
    · refine agree_bind hv (hg.assignment scope.enclosed hv) fun p p' w w' hp hw _ => ?_
      exact agree_pure hw.toAligned ⟨hp.inPattern, hp.binding, hp.unsettled, rfl⟩
    · refine agree_offset fun place place' =>
        agree_bind hu (initializer_agrees hg scope.enclosed hu) ?_
      rintro c _ v v' rfl hv _
      exact agree_ite (fun _ => agree_pure hv.toAligned ⟨rfl, rfl, rfl, rfl⟩)
        fun _ => agree_pure hv.toAligned ⟨rfl, rfl, rfl, rfl⟩
    · exact agree_of_false (by simp)

omit hg h in
theorem map_alike {f : ObjectMember → Bool}
    (hf : ∀ {a a' : ObjectMember}, a.Alike a' → f a = f a') {as as' : List ObjectMember}
    (h : List.Forall₂ ObjectMember.Alike as as') : as.map f = as'.map f := by
  induction h with
  | nil => rfl
  | cons ha _ ih => rw [List.map_cons, List.map_cons, hf ha, ih]

omit hg h in
theorem all_alike {f : ObjectMember → Bool}
    (hf : ∀ {a a' : ObjectMember}, a.Alike a' → f a = f a') {as as' : List ObjectMember}
    (h : List.Forall₂ ObjectMember.Alike as as') : as.all f = as'.all f := by
  simpa using congrArg (·.all id) (map_alike hf h)

omit hg h in
/-- whether at most the last of the members takes the rest -/
theorem restOk_alike {as as' : List ObjectMember} (h : List.Forall₂ ObjectMember.Alike as as')
    (trailing : Bool) :
    (!as.dropLast.any (·.isRest) && !(trailing && as.getLast?.any (·.isRest))) =
      (!as'.dropLast.any (·.isRest) && !(trailing && as'.getLast?.any (·.isRest))) := by
  have hmap := map_alike (fun ha => ha.isRest) h
  have hfront : as.dropLast.any (·.isRest) = as'.dropLast.any (·.isRest) := by
    simpa [← List.map_dropLast] using congrArg (fun bs : List Bool => bs.dropLast.any id) hmap
  have hlast : as.getLast?.any (·.isRest) = as'.getLast?.any (·.isRest) := by
    have hmap := congrArg List.getLast? hmap
    rw [List.getLast?_map, List.getLast?_map] at hmap
    have hany : ∀ o : Option ObjectMember, o.any (·.isRest) = (o.map (·.isRest)).any id :=
      fun o => by cases o <;> rfl
    rw [hany, hany, hmap]
  rw [hfront, hlast]

theorem objectLiteral_agrees (start start' : Nat) :
    x.Agree (g.objectLiteral start (scope.moved x.shift)) (g'.objectLiteral start' scope) s s'
      Phrase.Alike := by
  refine agree_bind h (agree_listUpTo (fun t t' l l' ht hi => objectMember_agrees hg scope ht hi) h
    (h.within.mono hg.fuel)) ?_
  rintro ⟨as, trailing⟩ ⟨as', _⟩ t t' ⟨has, rfl⟩ ht _
  dsimp only at has ⊢
  rw [restOk_alike has trailing, all_alike (fun ha => ha.inPattern) has,
    all_alike (fun ha => ha.binding) has]
  refine agree_bind ht (agree_phraseFrom ht.toAligned (.refl _)) fun p p' u u' hp hu _ => ?_
  exact agree_pure hu.toAligned
    { hp with binding := rfl, unsettled := findSome_alike (fun ha => ha.unsettled) has }

/-! ### Templates -/

theorem templateParts_agrees {n n' : Nat} (hn : x.Within n' s) :
    x.Agree (g.templateParts (scope.moved x.shift) n) (g'.templateParts scope n') s s'
      fun p q => p.1 = q.1 ∧ List.Forall₂ Expr.Alike p.2 q.2 := by
  induction n' generalizing n s s' with
  | zero => exact absurd hn h.not_within_zero
  | succ n' ih =>
    rcases n with _ | n
    · exact agree_fail
    rw [templateParts, templateParts]
    refine agree_peek h (fun k l l' hi hk => ?_) ?_
    · split
      · refine agree_advance h hk fun t t' hst ht => ?_
        refine agree_ifEat ht (fun u u' _ hu => agree_pure hu.toAligned ⟨rfl, .nil⟩) fun _ => ?_
        refine agree_expect ht fun u u' htu hu => ?_
        refine agree_bind hu (expression_agrees hg scope.enclosed hu) fun e e' v v' he hv huv => ?_
        refine agree_expect hv fun w w' hvw hw => ?_
        have hnw : x.Within n' w := hn.less
          ((((hst.advances.trans htu.advances).trans huv).trans hvw.advances).mono (by omega))
        refine agree_bind hw (ih hw hnw) ?_
        rintro ⟨ts, es⟩ ⟨_, es'⟩ y y' ⟨rfl, hes⟩ hy _
        exact agree_pure hy.toAligned ⟨rfl, .cons he.expr hes⟩
      · exact agree_fail
    · rintro _ (rfl | rfl) _ <;> exact agree_fail

theorem templateLiteral_agrees (start start' : Nat) :
    x.Agree (g.templateLiteral start (scope.moved x.shift)) (g'.templateLiteral start' scope) s s'
      Phrase.Alike := by
  refine agree_bind h (templateParts_agrees hg scope h (h.within.mono hg.fuel)) ?_
  rintro ⟨ts, es⟩ ⟨_, es'⟩ t t' ⟨rfl, hes⟩ ht _
  dsimp only
  split
  · exact agree_phraseFrom ht.toAligned (Expr.alike_template _ hes)
  · exact agree_failAt

/-! ### Arrow functions -/

omit hg in
theorem arrowAhead_agrees (hb : x.Begun s) : x.Agree arrowAhead arrowAhead s s' Eq := by
  refine agree_isAhead h rfl fun b hk => agree_ite (fun hb' => ?_) fun _ => agree_pure h.toAligned rfl
  obtain ⟨l, l', hi⟩ := h.inside (hk.1 hb') rfl
  exact agree_newlineAhead hi hb fun b => agree_pure h.toAligned rfl

theorem arrowFunction_agrees (start start' : Nat) (isAsync : Bool) (ps : List (Option String)) :
    x.Agree (g.arrowFunction start isAsync ps (scope.moved x.shift))
      (g'.arrowFunction start' isAsync ps scope) s s' Phrase.Alike := by
  let inner := scope.arrowBody isAsync
  have hwhole : ∀ {r r' : Option Expr} {t t' : ReaderState}, Option.Rel Expr.Alike r r' →
      x.Mirror m t t' →
      x.Agree
        (do let p ← phraseFrom start (.arrow isAsync ps r) .other
            pure { p with isArrow := true })
        (do let p ← phraseFrom start' (.arrow isAsync ps r') .other
            pure { p with isArrow := true }) t t' Phrase.Alike := by
    intro r r' t t' hr ht
    refine agree_bind ht (agree_phraseFrom ht.toAligned (Expr.alike_arrow isAsync ps hr)) ?_
    exact fun p p' u u' hp hu _ => agree_pure hu.toAligned { hp with isArrow := rfl }
  refine agree_expect h fun t t' _ ht => agree_isAhead ht rfl fun b _ =>
    agree_ite (fun _ => ?_) fun _ => ?_
  · refine agree_bind ht (functionBody_agrees hg { inner with inAllowed := true } ht) ?_
    exact fun as as' u u' has hu _ => hwhole (Statement.resultOf_alike has) hu
  · exact agree_bind ht (value_agrees hg inner ht) fun p p' u u' hp hu _ =>
      hwhole (.some hp.expr) hu

omit h in
theorem nameOrArrow_agrees (h : x.Mirror (m + 1) s s') (start : Nat) (isAsync : Bool) :
    x.Agree (g.nameOrArrow (start + x.shift) isAsync (scope.moved x.shift))
      (g'.nameOrArrow start isAsync scope) s s' Phrase.Alike := by
  refine agree_bind_of h (ensures_variableName.2 fun w t _ ht => ht.advances)
    (agree_variableName h scope) ?_
  rintro w _ t t' rfl ht hst
  have ht := h.less hst ht
  rw [Scope.arrowStart_moved]
  refine agree_bind ht (arrowAhead_agrees ht (h.begun hst)) ?_
  rintro b _ u u' rfl hu _
  refine agree_ite (fun _ => arrowFunction_agrees hg scope hu _ _ isAsync _) fun _ =>
    agree_ite (fun _ => agree_fail) fun _ => ?_
  refine agree_bind hu (agree_phraseFrom hu.toAligned (.refl _)) fun p p' v v' hp hv _ => ?_
  exact agree_pure hv.toAligned { hp with binding := rfl }

theorem parenthesizedItem_agrees :
    x.Agree (g.parenthesizedItem (scope.moved x.shift)) (g'.parenthesizedItem scope) s s'
      ItemAlike := by
  have hitem : ∀ (spread : Bool) {t t' : ReaderState}, x.Mirror m t t' →
      x.Agree (do pure (spread, ← g.assignment (scope.moved x.shift).enclosed))
        (do pure (spread, ← g'.assignment scope.enclosed)) t t' ItemAlike :=
    fun spread t t' ht => agree_bind ht (hg.assignment scope.enclosed ht)
      fun p p' u u' hp hu _ => agree_pure hu.toAligned ⟨rfl, hp⟩
  exact agree_eat h (fun t t' _ ht => hitem true ht) fun _ => hitem false h

/-- the items of a list in parentheses -/
theorem items_agrees :
    x.Agree (listUpTo .rightParen (g.parenthesizedItem (scope.moved x.shift)) g.fuel)
      (listUpTo .rightParen (g'.parenthesizedItem scope) g'.fuel) s s'
      fun p q => List.Forall₂ ItemAlike p.1 q.1 ∧ p.2 = q.2 :=
  agree_listUpTo (fun _ _ _ _ ht _ => parenthesizedItem_agrees hg scope ht) h
    (h.within.mono hg.fuel)

omit hg h in
theorem parametersRead_alike {is is' : List (Bool × Phrase)} (h : List.Forall₂ ItemAlike is is')
    (trailing : Bool) : parametersRead is trailing = parametersRead is' trailing := by
  have hsome : List.Forall₂ (Option.Rel ItemAlike) (is.map some) (is'.map some) := by
    simpa using h.imp fun _ _ hi => Option.Rel.some hi
  exact elementsRead_alike (fun hp => hp.binding)
    (fun {p p'} hp => by rw [hp.binding, hp.takesRest]) trailing hsome

omit hg h in
theorem parameterNames_alike {is is' : List (Bool × Phrase)} (h : List.Forall₂ ItemAlike is is') :
    parameterNames is = parameterNames is' := by
  induction h with
  | nil => rfl
  | @cons i i' is is' hi _ ih =>
    have hname : (if i.1 then none else parameterName i.2) =
        if i'.1 then none else parameterName i'.2 := by rw [hi.spread, hi.phrase.parameterName]
    exact congrArg₂ List.cons hname ih

theorem arrowOf_agrees (start start' : Nat) (isAsync : Bool) {is is' : List (Bool × Phrase)}
    (his : List.Forall₂ ItemAlike is is') (trailing : Bool) :
    x.Agree (g.arrowOf start isAsync is trailing (scope.moved x.shift))
      (g'.arrowOf start' isAsync is' trailing scope) s s' Phrase.Alike := by
  unfold arrowOf
  rw [parameterNames_alike his, parametersRead_alike his]
  refine agree_bind h (arrowFunction_agrees hg scope h _ _ isAsync _) fun p p' t t' hp ht _ => ?_
  exact agree_ite (fun _ => agree_pure ht.toAligned hp) fun _ => agree_failAt

omit hg h in
theorem spreads_alike {is is' : List (Bool × Phrase)} (h : List.Forall₂ ItemAlike is is') :
    is.any (·.1) = is'.any (·.1) := by
  induction h with
  | nil => rfl
  | cons hi _ ih => rw [List.any_cons, List.any_cons, hi.spread, ih]

omit h in
theorem parenthesized_agrees (h : x.Mirror (m + 1) s s') (start : Nat) :
    x.Agree (g.parenthesized (start + x.shift) (scope.moved x.shift))
      (g'.parenthesized start scope) s s' Phrase.Alike := by
  refine agree_expect h fun t t' hst ht => ?_
  have ht := h.less hst.advances ht
  refine agree_bind ht (items_agrees hg scope ht) ?_
  rintro ⟨is, trailing⟩ ⟨is', _⟩ u u' ⟨his, rfl⟩ hu htu
  dsimp only
  rw [Scope.arrowStart_moved]
  refine agree_bind hu (arrowAhead_agrees hu (h.begun (hst.advances.trans htu))) ?_
  rintro b _ v v' rfl hv _
  refine agree_ite (fun _ => arrowOf_agrees hg scope hv _ _ false his trailing) fun _ => ?_
  have hspread : is.any (·.1) = is'.any (·.1) := spreads_alike his
  rw [hspread]
  refine agree_ite (fun _ => agree_failAt) fun _ => ?_
  refine agree_bind hv (agree_mapM hv his fun i i' hi t t' ht =>
    agree_settle ht.toAligned hi.phrase) fun ps ps' w w' hps hw _ => ?_
  rcases hps with _ | ⟨hp, _ | ⟨hq, hqs⟩⟩
  · exact agree_failAt
  · dsimp only
    rw [hp.role]
    refine agree_bind hw (agree_phraseFrom hw.toAligned (Expr.alike_paren hp.expr)) ?_
    exact fun q q' y y' hq hy _ => agree_pure hy.toAligned { hq with }
  · have hexprs := Expr.alike_other (.cons hp.expr (.cons hq.expr (forall₂_expr hqs)))
    refine agree_bind hw (agree_phraseFrom hw.toAligned (Expr.alike_paren hexprs)) ?_
    exact fun q q' y y' hq hy _ => agree_pure hy.toAligned { hq with }

theorem asyncParenthesized_agrees (start start' : Nat) :
    x.Agree (g.asyncParenthesized start (scope.moved x.shift))
      (g'.asyncParenthesized start' scope) s s' Phrase.Alike := by
  refine agree_expect h fun t t' hst ht => agree_bind ht (items_agrees hg scope ht) ?_
  rintro ⟨is, trailing⟩ ⟨is', _⟩ u u' ⟨his, rfl⟩ hu htu
  refine agree_bind hu (arrowAhead_agrees hu (h.begun (hst.advances.trans htu))) ?_
  rintro b _ v v' rfl hv _
  refine agree_ite (fun _ => arrowOf_agrees hg scope hv _ _ true his trailing) fun _ => ?_
  have hsettle : ∀ i i' : Bool × Phrase, ItemAlike i i' → ∀ t t', x.Mirror m t t' →
      x.Agree (do pure ((← i.2.settle).argument i.1)) (do pure ((← i'.2.settle).argument i'.1)) t t'
        Argument.Alike := fun i i' hi t t' ht =>
    agree_bind ht (agree_settle ht.toAligned hi.phrase) fun p p' u u' hp hu _ =>
      agree_pure hu.toAligned ⟨hi.spread, hp.expr⟩
  refine agree_bind hv (agree_mapM hv his hsettle) fun as as' w w' has hw _ => ?_
  exact agree_phraseFrom hw.toAligned (Expr.alike_call (.some (.refl _)) has)

/-! ### Primary expressions -/

omit h in
theorem asyncPhrase_agrees (h : x.Mirror (m + 1) s s') (start : Nat)
    (hk : s.tokenAhead = some (.word "async")) :
    x.Agree (g.asyncPhrase (start + x.shift) (scope.moved x.shift))
      (g'.asyncPhrase start scope) s s' Phrase.Alike := by
  obtain ⟨l, l', hi⟩ := h.inside hk rfl
  have hname := nameOrArrow_agrees hg scope h start false
  refine agree_peekSecond h hi fun o o' ho hsecond => ?_
  rw [Scope.arrowStart_moved]
  cases ho with
  | @token k k' hmoved hnewline =>
    dsimp only
    rw [hmoved.token, hnewline]
    refine agree_ite (fun _ => hname) fun _ => ?_
    split
    · -- a function
      rename_i hfunction
      refine agree_advance h hk fun t t' hst ht => ?_
      have ht := h.less hst.advances ht
      have hk' : t.tokenAhead = some (.word "function") := by
        rw [ReaderState.tokenAhead, hst.ahead_eq, hsecond, Option.map_some, hmoved.token, hfunction]
      refine agree_advance ht hk' fun u u' _ hu => ?_
      refine agree_bind hu (functionBehindKeyword_agrees hg scope hu false true) ?_
      exact fun _ _ v v' _ hv _ => agree_phraseFrom hv.toAligned (.refl _)
    · refine agree_ite (fun _ => ?_) fun _ => hname
      exact agree_advance h hk fun t t' hst ht =>
        asyncParenthesized_agrees hg scope (h.less hst.advances ht) _ _
    · refine agree_ite (fun _ => ?_) fun _ => hname
      exact agree_advance h hk fun t t' _ ht => nameOrArrow_agrees hg scope ht start true
    · exact hname
  | @finish k hclose =>
    dsimp only
    split
    · exact hname
    · rcases Token.closesItem_iff.1 hclose with hk | hk
      · rw [hk]
        exact hname
      · rw [hk]
        exact hname

omit hg in
/-- a token that is an expression of its own -/
theorem literal_agrees {k : Token} (hk : s.tokenAhead = some k) (start start' : Nat) (e : Expr) :
    x.Agree (do advance; phraseFrom start e .other) (do advance; phraseFrom start' e .other) s s'
      Phrase.Alike :=
  agree_advance h hk fun _ _ _ ht => agree_phraseFrom ht.toAligned (.refl e)

omit h in
theorem primary_agrees (h : x.Mirror (m + 1) s s') :
    x.Agree (g.primary (scope.moved x.shift)) (g'.primary scope) s s' Phrase.Alike := by
  have hadv : (g.primary (scope.moved x.shift)).Ensures s fun _ t => s.Advances 1 t :=
    (primary_reads hg.reads _ s).mono fun p t hp => hp.advances
  refine agree_of_inside h hadv fun l l' hi => agree_position hi ?_
  refine agree_peek_inside hi fun k hk => ?_
  -- what stands behind the first token
  have hbehind : ∀ {r r' : Reader Phrase},
      (∀ t t', s.Takes k t → x.Mirror m t t' → x.Agree r r' t t' Phrase.Alike) →
      x.Agree (do advance; r) (do advance; r') s s' Phrase.Alike :=
    fun hr => agree_advance h hk fun t t' hst ht => hr t t' hst (h.less hst.advances ht)
  split
  · exact literal_agrees h hk _ _ _
  · exact literal_agrees h hk _ _ _
  · exact literal_agrees h hk _ _ _
  · exact literal_agrees h hk _ _ _
  · exact literal_agrees h hk _ _ _
  · exact literal_agrees h hk _ _ _
  · exact literal_agrees h hk _ _ _
  · refine hbehind fun t t' hst ht => ?_
    refine agree_bind ht (functionBehindKeyword_agrees hg scope ht false false) ?_
    exact fun _ _ u u' _ hu _ => agree_phraseFrom hu.toAligned (.refl _)
  · refine hbehind fun t t' hst ht => ?_
    refine agree_bind ht (classBehindKeyword_agrees hg scope ht (h.begun hst.advances) false) ?_
    exact fun _ _ u u' _ hu _ => agree_phraseFrom hu.toAligned (.refl _)
  · exact asyncPhrase_agrees hg scope h _ (hk.trans ‹_›)
  · exact nameOrArrow_agrees hg scope h _ false
  · exact hbehind fun t t' _ ht => arrayLiteral_agrees hg scope ht _ _
  · exact hbehind fun t t' _ ht => objectLiteral_agrees hg scope ht _ _
  · exact parenthesized_agrees hg scope h _
  · exact hbehind fun t t' _ ht => templateLiteral_agrees hg scope ht _ _
  · exact agree_regex
  · exact agree_regex
  · refine agree_bind h (agree_privateName h) fun _ _ t t' _ ht _ => ?_
    exact agree_phraseFrom ht.toAligned (.refl _)
  · exact agree_fail

/-! ### Accesses and calls -/

omit hg in
theorem link_agrees {p p' : Phrase} (hp : p.Alike p') (opening : Bool) {e e' : Expr}
    (he : e.Alike e') (isCall : Bool) :
    x.Agree (link p opening e isCall) (link p' opening e' isCall) s s' Phrase.Alike := by
  unfold link
  rw [hp.expr.inChain]
  exact agree_ite (fun _ => agree_phraseFrom h.toAligned (Expr.alike_optional he))
    fun _ => agree_phraseFrom h.toAligned he

omit hg in
theorem memberName_agrees {p p' : Phrase} (hp : p.Alike p') (opening : Bool) :
    x.Agree (memberName p opening) (memberName p' opening) s s' Phrase.Alike := by
  refine agree_isAhead h rfl fun b _ => agree_ite (fun _ => ?_) fun _ => ?_
  · exact agree_bind h (agree_privateName h) fun _ _ t t' _ ht _ =>
      link_agrees ht hp opening (Expr.alike_privateField hp.expr) false
  · refine agree_bind h (agree_anyWord h) ?_
    rintro w _ t t' rfl ht _
    exact link_agrees ht hp opening (Expr.alike_field hp.expr w) false

theorem memberIndex_agrees {p p' : Phrase} (hp : p.Alike p') (opening : Bool) :
    x.Agree (g.memberIndex p opening (scope.moved x.shift)) (g'.memberIndex p' opening scope) s s'
      Phrase.Alike := by
  refine agree_bind h (expression_agrees hg scope.enclosed h) fun k k' t t' hk ht _ => ?_
  exact agree_expect ht fun u u' _ hu =>
    link_agrees hu hp opening (Expr.alike_index hp.expr hk.expr) false

theorem callOf_agrees {p p' : Phrase} (hp : p.Alike p') (opening : Bool) :
    x.Agree (g.callOf p opening (scope.moved x.shift)) (g'.callOf p' opening scope) s s'
      Phrase.Alike :=
  agree_bind h (callArguments_agrees hg scope h) fun _ _ _ _ has ht _ =>
    link_agrees ht hp opening (Expr.alike_call (.some hp.expr) has) true

theorem optionalLink_agrees {p p' : Phrase} (hp : p.Alike p') :
    x.Agree (g.optionalLink p (scope.moved x.shift)) (g'.optionalLink p' scope) s s'
      Phrase.Alike :=
  agree_ifEat h (fun _ _ _ ht => memberIndex_agrees hg scope ht hp true) fun _ =>
    agree_ifEat h (fun _ _ _ ht => callOf_agrees hg scope ht hp true) fun _ =>
      memberName_agrees h hp true

theorem suffixes_agrees (calls : Bool) {p p' : Phrase} (hp : p.Alike p') {n n' : Nat}
    (hn : x.Within n' s) :
    x.Agree (g.suffixes calls (scope.moved x.shift) n p) (g'.suffixes calls scope n' p') s s'
      Phrase.Alike := by
  induction n' generalizing n s s' p p' with
  | zero => exact absurd hn h.not_within_zero
  | succ n' ih =>
    rcases n with _ | n
    · exact agree_fail
    rw [suffixes, suffixes]
    have hdone : x.Agree (pure p) (pure p') s s' Phrase.Alike := agree_pure h.toAligned hp
    -- what is read behind an access or a call
    have hnext : ∀ {t t' : ReaderState} {r r' : Reader Phrase}, x.Mirror m t t' →
        s.Advances 1 t → x.Agree r r' t t' Phrase.Alike →
        x.Agree (do g.suffixes calls (scope.moved x.shift) n (← r))
          (do g'.suffixes calls scope n' (← r')) t t' Phrase.Alike :=
      fun ht hst hr => agree_bind ht hr fun q q' u u' hq hu htu =>
        ih hu hq (hn.less (hst.trans htu))
    refine agree_peek h (fun k l l' hi hk => ?_) ?_
    · split
      · refine agree_settle_bind hp (agree_advance h hk fun t t' hst ht => ?_)
        exact hnext ht hst.advances (memberName_agrees ht hp false)
      · refine agree_settle_bind hp (agree_advance h hk fun t t' hst ht => ?_)
        exact hnext ht hst.advances (memberIndex_agrees hg scope ht hp false)
      · refine agree_ite (fun _ => agree_settle_bind hp ?_) fun _ => hdone
        refine agree_advance h hk fun t t' hst ht => ?_
        exact hnext ht hst.advances (callOf_agrees hg scope ht hp false)
      · -- a template behind the phrase
        refine agree_settle_bind hp ?_
        rw [hp.expr.inChain]
        refine agree_ite (fun _ => agree_fail) fun _ => agree_advance h hk fun t t' hst ht => ?_
        refine agree_bind ht (templateParts_agrees hg scope ht (ht.within.mono hg.fuel)) ?_
        rintro ⟨ts, es⟩ ⟨_, es'⟩ u u' ⟨-, hes⟩ hu htu
        exact hnext hu (hst.advances.trans htu)
          (agree_phraseFrom hu.toAligned (Expr.alike_other (.cons hp.expr hes)))
      · -- a question mark, with a point behind it or without
        refine agree_peekSecond h hi fun o o' ho hsecond => ?_
        have hdot := ho.any (p := fun k _ => k == .dot) fun k b hk => by
          rcases Token.closesItem_iff.1 hk with rfl | rfl <;> rfl
        rw [← hdot]
        refine agree_ite (fun hsome => agree_settle_bind hp ?_) fun _ => hdone
        refine agree_ite (fun _ => agree_fail) fun _ => agree_advance h hk fun t t' hst ht => ?_
        have hk' : t.tokenAhead = some .dot := hst.tokenAhead_of_any (hsecond ▸ hsome)
        refine agree_advance ht hk' fun u u' htu hu => ?_
        exact hnext hu ((hst.advances.trans htu.advances).mono (by omega))
          (optionalLink_agrees hg scope hu hp)
      · exact hdone
    · rintro _ (rfl | rfl) _ <;> exact hdone

omit h in
theorem newExpression_agrees (h : x.Mirror (m + 1) s s') (hk : s.tokenAhead = some (.word "new")) :
    x.Agree (g.newExpression (scope.moved x.shift)) (g'.newExpression scope) s s' Phrase.Alike := by
  let inner := { scope with arrowStart := none }
  refine agree_offset fun start start' => agree_advance h hk fun t t' hst ht => ?_
  have ht := h.less hst.advances ht
  refine agree_ifEat ht (fun u u' _ hu => ?_) fun _ => ?_
  · exact agree_expect hu fun v v' _ hv =>
      agree_ite (fun _ => agree_phraseFrom hv.toAligned (.refl _)) fun _ => agree_failAt
  · have hwhole : ∀ {p p' : Phrase} {as as' : List (Argument Expr)} {u u' : ReaderState},
        p.Alike p' → List.Forall₂ Argument.Alike as as' → x.Aligned u u' →
        x.Agree (phraseFrom start (.other (p.expr :: as.map (·.value))) .other)
          (phraseFrom start' (.other (p'.expr :: as'.map (·.value))) .other) u u' Phrase.Alike := by
      intro p p' as as' u u' hp has hu
      refine agree_phraseFrom hu (Expr.alike_other (.cons hp.expr ?_))
      simpa using has.imp fun _ _ ha => ha.value
    refine agree_isAhead ht rfl fun b _ => agree_ite (fun _ => agree_fail) fun _ => ?_
    refine agree_bind ht (hg.member false inner ht) fun p p' u u' hp hu _ => ?_
    refine agree_settle_bind hp (agree_ifEat hu (fun v v' _ hv => ?_) fun _ => ?_)
    · exact agree_bind hv (callArguments_agrees hg scope hv) fun as as' w w' has hw _ =>
        hwhole hp has hw.toAligned
    · exact hwhole hp .nil hu.toAligned

omit h in
theorem superExpression_agrees (h : x.Mirror (m + 1) s s')
    (hk : s.tokenAhead = some (.word "super")) :
    x.Agree (g.superExpression (scope.moved x.shift)) (g'.superExpression scope) s s'
      Phrase.Alike := by
  refine agree_offset fun start start' => agree_advance h hk fun t t' hst ht => ?_
  have ht := h.less hst.advances ht
  refine agree_ifEat ht (fun u u' _ hu => ?_) fun _ => ?_
  · exact agree_bind hu (callArguments_agrees hg scope hu) fun as as' v v' has hv _ =>
      agree_phraseFrom hv.toAligned (Expr.alike_call .none has)
  · have hkeys : ∀ {ks ks' : List Expr} {u u' : ReaderState}, List.Forall₂ Expr.Alike ks ks' →
        x.Aligned u u' →
        x.Agree (if (scope.moved x.shift).superField then phraseFrom start (.other ks) .target else fail)
          (if scope.superField then phraseFrom start' (.other ks') .target else fail) u u'
          Phrase.Alike :=
      fun hks hu => agree_ite (fun _ => agree_phraseFrom hu (Expr.alike_other hks))
        fun _ => agree_fail
    refine agree_ifEat ht (fun u u' _ hu => ?_) fun _ => agree_expect ht fun u u' _ hu => ?_
    · exact agree_bind hu (agree_anyWord hu) fun _ _ v v' _ hv _ => hkeys .nil hv.toAligned
    · refine agree_bind hu (expression_agrees hg scope.enclosed hu) fun k k' v v' hkk hv _ => ?_
      exact agree_expect hv fun w w' _ hw => hkeys (.cons hkk.expr .nil) hw.toAligned

omit h in
theorem importCall_agrees (h : x.Mirror (m + 1) s s')
    (hk : s.tokenAhead = some (.word "import")) :
    x.Agree (g.importCall (scope.moved x.shift)) (g'.importCall scope) s s' Phrase.Alike := by
  refine agree_offset fun start start' => agree_advance h hk fun t t' hst ht => ?_
  have ht := h.less hst.advances ht
  refine agree_ifEat ht (fun u u' _ hu => ?_) fun _ => ?_
  · refine agree_bind hu (agree_anyWord hu) ?_
    rintro w _ v v' rfl hv _
    exact agree_ite (fun _ => agree_failAt) fun _ => agree_fail
  · refine agree_offset fun opening opening' => agree_expect ht fun u u' _ hu => ?_
    refine agree_bind hu (agree_listUpTo (fun _ _ _ _ hv _ => callArgument_agrees hg scope hv) hu
      (hu.within.mono hg.fuel)) ?_
    rintro ⟨as, trailing⟩ ⟨as', _⟩ v v' ⟨has, rfl⟩ hv _
    exact agree_ite (fun _ => agree_failAt) fun _ =>
      agree_phraseFrom hv.toAligned (Expr.alike_call .none has)

omit h in
theorem memberExpression_agrees (h : x.Mirror (m + 1) s s') (calls : Bool) :
    x.Agree (g.memberExpression calls (scope.moved x.shift)) (g'.memberExpression calls scope) s s'
      Phrase.Alike := by
  have hsuffixes : ∀ {r r' : Reader Phrase},
      (r.Ensures s fun p t => p.ReadFrom (scope.moved x.shift).enclosed s t) →
      x.Agree r r' s s' Phrase.Alike →
      x.Agree
        (do let base ← r
            if base.isArrow then pure base
            else g.suffixes calls (scope.moved x.shift) g.fuel base)
        (do let base ← r'
            if base.isArrow then pure base else g'.suffixes calls scope g'.fuel base) s s'
        Phrase.Alike := by
    intro r r' hr hrr
    refine agree_bind_of h hr hrr fun p p' t t' hp ht hread => ?_
    have ht := h.less hread.advances ht
    rw [hp.isArrow]
    exact agree_ite (fun _ => agree_pure ht.toAligned hp)
      fun _ => suffixes_agrees hg scope ht calls hp (ht.within.mono hg.fuel)
  refine agree_of_inside h ((memberExpression_reads hg.reads _ s calls).mono fun _ _ hp =>
    hp.advances) fun l l' hi => agree_peek_inside hi fun k hk => ?_
  split
  · exact hsuffixes (newExpression_reads _ s (hk.trans ‹_›))
      (newExpression_agrees hg scope h (hk.trans ‹_›))
  · exact hsuffixes (superExpression_reads hg.reads _ s (hk.trans ‹_›))
      (superExpression_agrees hg scope h (hk.trans ‹_›))
  · exact hsuffixes (importCall_reads hg.reads _ s (hk.trans ‹_›))
      (importCall_agrees hg scope h (hk.trans ‹_›))
  · exact hsuffixes (primary_reads hg.reads _ s) (primary_agrees hg scope h)

/-! ### Operators -/

omit h in
theorem postfixed_agrees (h : x.Mirror (m + 1) s s') :
    x.Agree (g.postfixed (scope.moved x.shift)) (g'.postfixed scope) s s' Phrase.Alike := by
  refine agree_bind_of h (memberExpression_reads hg.reads _ s true)
    (memberExpression_agrees hg scope h true) fun p p' t t' hp ht hread => ?_
  have hb := h.begun hread.advances
  rcases ht.cases with ⟨l, l', hi⟩ | hend
  · rw [hp.isArrow, hp.role]
    have hdone : x.Agree (pure p) (pure p') t t' Phrase.Alike := agree_pure ht.toAligned hp
    refine agree_newlineAhead hi hb fun b => agree_ite (fun _ => hdone) fun _ => ?_
    refine agree_isAhead ht rfl fun c hc => agree_isAhead ht rfl fun d hd => ?_
    refine agree_ite (fun hcd => agree_ite (fun _ => ?_) fun _ => agree_failAt) fun _ => hdone
    obtain ⟨k, hk⟩ : ∃ k, t.tokenAhead = some k := by
      rcases Bool.or_eq_true_iff.1 hcd with hcd | hcd
      · exact ⟨_, hc.1 hcd⟩
      · exact ⟨_, hd.1 hcd⟩
    exact agree_advance ht hk fun u u' _ hu =>
      agree_phraseFrom hu.toAligned (Expr.alike_other (.cons hp.expr .nil))
  · -- no operator stands at the end of the excerpt
    obtain ⟨k, hk, hclose, hnone⟩ := hend.tokenAhead
    have hplain : ∀ (q : Phrase) (u : ReaderState), u.tokenAhead ≠ some .increment →
        u.tokenAhead ≠ some .decrement →
        (do if q.isArrow || (← newlineAhead) then pure q
            else if (← isAhead .increment) || (← isAhead .decrement) then
              if q.role == .target then
                advance
                phraseFrom q.extent.start (.other [q.expr]) .other
              else failAt q.extent.start
            else pure q : Reader Phrase).run u = .ok (q, u) := by
      intro q u hinc hdec
      show (if q.isArrow || u.ahead.any (·.newline) then pure q else _ : Reader Phrase).run u = _
      split
      · rfl
      · show (if u.tokenAhead == some .increment || u.tokenAhead == some .decrement then _
          else pure q : Reader Phrase).run u = _
        rw [beq_eq_false_iff_ne.2 hinc, beq_eq_false_iff_ne.2 hdec]
        rfl
    refine agree_of_run (hplain p t ?_ ?_) (hplain p' t' ?_ ?_) ht.toAligned hp
    · rintro hinc
      cases (hk.symm.trans hinc)
      cases hclose
    · rintro hdec
      cases (hk.symm.trans hdec)
      cases hclose
    · rw [hnone]
      nofun
    · rw [hnone]
      nofun

omit hg h in
theorem endsAwait_alike {o o' : Option Lexeme} (h : x.Seconds o o') : endsAwait o = endsAwait o' := by
  cases h with
  | token hmoved hnewline => rw [endsAwait, endsAwait, hmoved.token, hnewline]
  | finish hclose =>
    rcases Token.closesItem_iff.1 hclose with hk | hk <;> simp [endsAwait, hk]

omit h in
theorem unaryExpression_agrees (h : x.Mirror (m + 1) s s') :
    x.Agree (g.unaryExpression (scope.moved x.shift)) (g'.unaryExpression scope) s s'
      Phrase.Alike := by
  let inner := { scope with arrowStart := none }
  have hadv : (g.unaryExpression (scope.moved x.shift)).Ensures s fun _ t => s.Advances 1 t :=
    (unaryExpression_reads hg.reads _ s).mono fun p t hp => hp.advances
  refine agree_of_inside h hadv fun l l' hi => agree_offset fun start start' => ?_
  refine agree_peek_inside hi fun k hk => ?_
  -- an operand behind the first token
  have hoperand : ∀ {f f' : Phrase → Reader Phrase},
      (∀ p p' t t', p.Alike p' → x.Mirror m t t' → x.Agree (f p) (f' p') t t' Phrase.Alike) →
      x.Agree (do advance; f (← g.unary (inner.moved x.shift))) (do advance; f' (← g'.unary inner))
        s s' Phrase.Alike :=
    fun hf => agree_advance h hk fun t t' hst ht =>
      agree_bind (h.less hst.advances ht) (hg.unary inner (h.less hst.advances ht))
        fun p p' u u' hp hu _ => hf p p' u u' hp hu
  split
  · refine hoperand fun p p' t t' hp ht => ?_
    rw [hp.role]
    exact agree_ite (fun _ => agree_phraseFrom ht.toAligned (Expr.alike_other (.cons hp.expr .nil)))
      fun _ => agree_failAt
  · refine hoperand fun p p' t t' hp ht => ?_
    rw [hp.role]
    exact agree_ite (fun _ => agree_phraseFrom ht.toAligned (Expr.alike_other (.cons hp.expr .nil)))
      fun _ => agree_failAt
  · -- the word `await`
    refine agree_ite (fun _ => hoperand fun p p' t t' hp ht => agree_settle_bind hp ?_) fun _ => ?_
    · have hp' := Expr.alike_other (.cons hp.expr .nil)
      exact agree_bind ht (agree_phraseFrom ht.toAligned hp') fun q q' u u' hq hu _ =>
        agree_pure hu.toAligned { hq with isUnary := rfl }
    · refine agree_peekSecond h hi fun o o' ho _ => ?_
      rw [endsAwait_alike ho]
      refine agree_ite (fun _ => agree_advance h hk fun t t' _ ht => ?_) fun _ => ?_
      · exact agree_bind ht (agree_phraseFrom ht.toAligned (.refl _)) fun q q' u u' hq hu _ =>
          agree_pure hu.toAligned { hq with binding := rfl }
      · exact hoperand fun _ _ _ _ _ _ => agree_failAt
  · split
    · -- an operator
      rename_i op _
      refine hoperand fun p p' t t' hp ht => agree_settle_bind hp ?_
      rw [hp.expr.isVariable]
      refine agree_ite (fun _ => agree_failAt_bind) fun _ => ?_
      exact agree_bind ht (agree_phraseFrom ht.toAligned (Expr.alike_unary op hp.expr))
        fun q q' u u' hq hu _ => agree_pure hu.toAligned { hq with isUnary := rfl }
    · exact postfixed_agrees hg scope h
  · exact agree_fail

omit hg in
theorem joined_agrees (op : BinaryOp) {l l' r r' : Phrase} (hl : l.Alike l') (hr : r.Alike r') :
    x.Agree (joined op l r) (joined op l' r') s s' Phrase.Alike := by
  unfold joined
  rw [hl.expr.operator?, hr.expr.operator?]
  exact agree_ite (fun _ => agree_failAt)
    fun _ => agree_phraseFrom h.toAligned (Expr.alike_binary op hl.expr hr.expr)

theorem binaryTail_agrees (least : Nat) {p p' : Phrase} (hp : p.Alike p') {n n' : Nat}
    (hn : x.Within n' s) :
    x.Agree (g.binaryTail (scope.moved x.shift) n least p) (g'.binaryTail scope n' least p') s s'
      Phrase.Alike := by
  let inner := { scope with arrowStart := none }
  induction n' generalizing n s s' least p p' with
  | zero => exact absurd hn h.not_within_zero
  | succ n' ih =>
    rcases n with _ | n
    · exact agree_fail
    rw [binaryTail, binaryTail]
    have hdone : x.Agree (pure p) (pure p') s s' Phrase.Alike := agree_pure h.toAligned hp
    refine agree_peek h (fun k l l' hi hk => ?_) ?_
    · have hop : (some k).bind (binaryOp? (scope.moved x.shift)) = (some k).bind (binaryOp? scope) :=
        rfl
      rw [hop]
      split
      · exact hdone
      · refine agree_ite (fun _ => hdone) fun _ => agree_settle_bind hp ?_
        refine agree_advance h hk fun t t' hst ht => ?_
        rw [hp.isUnary]
        refine agree_ite (fun _ => agree_fail_bind) fun _ => ?_
        refine agree_bind_of ht (unaryExpression_reads hg.reads _ t)
          (unaryExpression_agrees hg inner (ht.mono m.le_succ)) fun q q' u u' hq hu htu => ?_
        have hnu : x.Within n' u := hn.less ((hst.advances.trans htu.advances).mono (by omega))
        refine agree_bind hu (ih hu _ hq hnu) fun r r' v v' hr hv huv => ?_
        refine agree_settle_bind hr (agree_bind hv (joined_agrees hv _ hp hr) ?_)
        exact fun w w' y y' hw hy hvy => ih hy least hw ((hnu.behind huv).behind hvy)
    · rintro _ (rfl | rfl) _ <;> exact hdone

omit h in
theorem conditional_agrees (h : x.Mirror (m + 1) s s') :
    x.Agree (g.conditional (scope.moved x.shift)) (g'.conditional scope) s s' Phrase.Alike := by
  let inner := { scope with arrowStart := none }
  refine agree_bind_of h (unaryExpression_reads hg.reads _ s) (unaryExpression_agrees hg scope h) ?_
  intro p p' t t' hp ht hst
  have ht := h.less hst.advances ht
  rw [hp.isArrow]
  refine agree_ite (fun _ => agree_pure ht.toAligned hp) fun _ => ?_
  refine agree_bind ht (binaryTail_agrees hg scope ht 0 hp (ht.within.mono hg.fuel)) ?_
  intro q q' u u' hq hu _
  refine agree_isAhead hu rfl fun b hk => agree_ite (fun hb => agree_settle_bind hq ?_)
    fun _ => agree_pure hu.toAligned hq
  refine agree_advance hu (hk.1 hb) fun v v' _ hv => ?_
  refine agree_bind hv (value_agrees hg scope.enclosed hv) fun a a' w w' ha hw _ => ?_
  refine agree_expect hw fun y y' _ hy => ?_
  refine agree_bind hy (value_agrees hg inner hy) fun b b' z z' hb hz _ => ?_
  exact agree_phraseFrom hz.toAligned
    (Expr.alike_other (.cons hq.expr (.cons ha.expr (.cons hb.expr .nil))))

omit h in
theorem yieldExpression_agrees (h : x.Mirror (m + 1) s s')
    (hk : s.tokenAhead = some (.word "yield")) :
    x.Agree (g.yieldExpression (scope.moved x.shift)) (g'.yieldExpression scope) s s'
      Phrase.Alike := by
  refine agree_offset fun start start' => agree_advance h hk fun t t' hst ht => ?_
  have ht := h.less hst.advances ht
  have hbare : x.Agree (phraseFrom start (.other []) .other) (phraseFrom start' (.other []) .other)
      t t' Phrase.Alike := agree_phraseFrom ht.toAligned (.refl _)
  rcases ht.cases with ⟨l, l', hi⟩ | hend
  · refine agree_newlineAhead hi (h.begun hst.advances) fun b => agree_peek_inside hi fun k hk => ?_
    have hoperand : ∀ {u u' : ReaderState}, x.Mirror m u u' →
        x.Agree
          (do let p ← g.value (scope.moved x.shift)
              phraseFrom start (.other [p.expr]) .other)
          (do let p ← g'.value scope
              phraseFrom start' (.other [p.expr]) .other) u u' Phrase.Alike :=
      fun hu => agree_bind hu (value_agrees hg scope hu) fun p p' v v' hp hv _ =>
        agree_phraseFrom hv.toAligned (Expr.alike_other (.cons hp.expr .nil))
    refine agree_ite (fun _ => hbare) fun _ => ?_
    exact agree_eat ht (fun u u' _ hu => hoperand hu) fun _ => hoperand ht
  · obtain ⟨k, hk, hclose, hnone⟩ := hend.tokenAhead
    have hends : endsYield (some k) = true := by
      rcases Token.closesItem_iff.1 hclose with rfl | rfl <;> rfl
    show x.Agree (if t.ahead.any (·.newline) || endsYield t.tokenAhead then _ else _)
      (if t'.ahead.any (·.newline) || endsYield t'.tokenAhead then _ else _) t t' _
    rw [hk, hnone, hends, Bool.or_true, if_pos rfl, endsYield, Bool.or_true, if_pos rfl]
    exact hbare

omit h in
theorem assignmentExpression_agrees (h : x.Mirror (m + 1) s s') :
    x.Agree (g.assignmentExpression (scope.moved x.shift)) (g'.assignmentExpression scope) s s'
      Phrase.Alike := by
  have hadv : (g.assignmentExpression (scope.moved x.shift)).Ensures s fun _ t => s.Advances 1 t :=
    (assignmentExpression_reads hg.reads _ s).mono fun p t hp => hp.advances
  refine agree_of_inside h hadv fun l l' hi => agree_position hi ?_
  let inner := { scope with arrowStart := some s'.position }
  let behind := { scope with arrowStart := none }
  refine agree_isAhead h rfl fun b hk => agree_ite (fun hb => ?_) fun _ => ?_
  · exact yieldExpression_agrees hg inner h (hk.1 (Bool.and_eq_true_iff.1 hb).2)
  · refine agree_bind_of h (conditional_reads hg.reads _ s) (conditional_agrees hg inner h) ?_
    intro p p' t t' hp ht hst
    have ht := h.less hst.advances ht
    rw [hp.isArrow]
    refine agree_ite (fun _ => agree_pure ht.toAligned hp) fun _ => ?_
    refine agree_peek ht (fun k l l' _ hk => ?_) ?_
    · split
      · rw [hp.role]
        refine agree_ite (fun _ => agree_advance ht hk fun u u' _ hu => ?_) fun _ => agree_failAt
        refine agree_bind hu (value_agrees hg behind hu) fun q q' v v' hq hv _ => ?_
        have hpq := Expr.alike_other (.cons hp.expr (.cons hq.expr .nil))
        refine agree_bind hv (agree_phraseFrom hv.toAligned hpq) fun r r' w w' hr hw _ => ?_
        rw [hp.binding]
        exact agree_pure hw.toAligned { hr with binding := rfl }
      · exact agree_pure ht.toAligned hp
    · rintro _ (rfl | rfl) _ <;> exact agree_pure ht.toAligned hp

end PageQuery.Script.Grammar
