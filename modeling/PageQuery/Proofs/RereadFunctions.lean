import PageQuery.Proofs.Likeness

/-!
# Patterns, functions and classes read twice

The rules for patterns, functions and classes agree on an excerpt if those one level down do.  There is
one lemma for each rule.
-/

namespace PageQuery.Script.Grammar

open Reader ReaderState Excerpt

variable {x : Excerpt} {m : Nat} {g g' : Grammar} (hg : x.Agrees m g g') (scope : Scope)
  {s s' : ReaderState} (h : x.Mirror m s s')

include hg h

/-! ### Parts -/

theorem value_agrees :
    x.Agree (g.value (scope.moved x.shift)) (g'.value scope) s s' Phrase.Alike :=
  agree_bind h (hg.assignment scope h) fun _ _ _ _ hp ht _ => agree_settle ht.toAligned hp

theorem initializer_agrees :
    x.Agree (g.initializer (scope.moved x.shift)) (g'.initializer scope) s s' Eq := by
  refine agree_eat h (fun t t' _ ht => ?_) fun _ => agree_pure h.toAligned rfl
  exact agree_bind ht (value_agrees hg scope ht) fun _ _ _ _ _ hu _ => agree_pure hu.toAligned rfl

theorem key_agrees : x.Agree (g.key (scope.moved x.shift)) (g'.key scope) s s' Eq := by
  have htakes : ∀ {k : Token} {a : Key}, s.tokenAhead = some k →
      x.Agree (do advance; pure a) (do advance; pure a) s s' Eq :=
    fun hk => agree_advance h hk fun t t' _ ht => agree_pure ht.toAligned rfl
  refine agree_peek h (fun k l l' _ hk => ?_) ?_
  · split
    · exact htakes hk
    · exact htakes hk
    · exact htakes hk
    · exact htakes hk
    · refine agree_advance h hk fun t t' _ ht => ?_
      refine agree_bind ht (value_agrees hg scope.enclosed ht) fun _ _ u u' _ hu _ => ?_
      exact agree_expect hu fun _ _ _ hv => agree_pure hv.toAligned rfl
    · refine agree_bind h (agree_privateName h) ?_
      rintro w _ t t' rfl ht _
      exact agree_pure ht.toAligned rfl
    · exact agree_fail
  · rintro _ (rfl | rfl) _ <;> exact agree_fail

/-! ### Patterns -/

theorem patternElement_agrees :
    x.Agree (g.patternElement (scope.moved x.shift)) (g'.patternElement scope) s s'
      fun _ _ => True := by
  refine agree_bind h (hg.pattern scope h) fun _ _ t t' _ ht _ => ?_
  exact agree_bind ht (initializer_agrees hg scope.enclosed ht) fun _ _ _ _ _ hu _ =>
    agree_pure hu.toAligned trivial

theorem arrayPatternElement_agrees {l l' : Lexeme} (hi : x.Inside s s' l l') :
    x.Agree (g.arrayPatternElement (scope.moved x.shift)) (g'.arrayPatternElement scope) s s' Eq := by
  refine agree_isAhead_inside hi fun b _ => agree_ite (fun _ => agree_pure h.toAligned rfl) fun _ => ?_
  refine agree_eat h (fun t t' _ ht => ?_) fun _ => ?_
  · exact agree_bind ht (hg.pattern scope ht) fun _ _ _ _ _ hu _ => agree_pure hu.toAligned rfl
  · exact agree_bind h (patternElement_agrees hg scope h) fun _ _ _ _ _ hu _ =>
      agree_pure hu.toAligned rfl

theorem objectPatternMember_agrees {l l' : Lexeme} (hi : x.Inside s s' l l') :
    x.Agree (g.objectPatternMember (scope.moved x.shift)) (g'.objectPatternMember scope) s s' Eq := by
  refine agree_eat h (fun t t' _ ht => ?_) fun _ => ?_
  · exact agree_bind ht (agree_variableName ht scope) fun _ _ _ _ _ hu _ =>
      agree_pure hu.toAligned rfl
  · refine agree_peek_inside hi fun k hk => ?_
    refine agree_bind h (key_agrees hg scope h) ?_
    rintro a _ t t' rfl ht _
    split
    · exact agree_fail
    · refine agree_eat ht (fun u u' _ hu => ?_) fun _ =>
        agree_ite nofun fun _ => agree_ite (fun _ => ?_) fun _ => agree_fail_bind
      · exact agree_bind hu (patternElement_agrees hg scope hu) fun _ _ _ _ _ hv _ =>
          agree_pure hv.toAligned rfl
      · exact agree_bind ht (initializer_agrees hg scope.enclosed ht) fun _ _ _ _ _ hu _ =>
          agree_pure hu.toAligned rfl

omit hg in
theorem restLast_agrees (rests : List Bool) (trailing : Bool) :
    x.Agree (restLast rests trailing) (restLast rests trailing) s s' fun _ _ => True :=
  agree_ite (fun _ => agree_fail) fun _ => agree_pure h.toAligned trivial

/-- the elements of a pattern behind its opening bracket -/
theorem patternList_agrees {close : Token} {item item' : Reader Bool}
    (hitem : ∀ s s' l l', x.Mirror m s s' → x.Inside s s' l l' → x.Agree item item' s s' Eq) :
    x.Agree (listUpTo close item g.fuel) (listUpTo close item' g'.fuel) s s' Eq :=
  agree_listUpTo_eq hitem h (h.within.mono hg.fuel)

omit h in
theorem bindingPattern_agrees (h : x.Mirror (m + 1) s s') :
    x.Agree (g.bindingPattern (scope.moved x.shift)) (g'.bindingPattern scope) s s'
      fun _ _ => True := by
  have hname : x.Agree (do let _ ← variableName scope) (do let _ ← variableName scope) s s'
      fun _ _ => True :=
    agree_bind h (agree_variableName h scope) fun _ _ _ _ _ ht _ => agree_pure ht.toAligned trivial
  refine agree_peek h (fun k l l' _ hk => ?_) ?_
  · split
    · refine agree_advance h hk fun t t' hst ht => ?_
      have ht := h.less hst.advances ht
      refine agree_bind ht (patternList_agrees hg ht fun u u' l l' hu hi =>
        arrayPatternElement_agrees hg scope hu hi) ?_
      rintro ⟨rests, trailing⟩ _ u u' rfl hu _
      exact restLast_agrees hu rests trailing
    · refine agree_advance h hk fun t t' hst ht => ?_
      have ht := h.less hst.advances ht
      refine agree_bind ht (patternList_agrees hg ht fun u u' l l' hu hi =>
        objectPatternMember_agrees hg scope hu hi) ?_
      rintro ⟨rests, trailing⟩ _ u u' rfl hu _
      exact restLast_agrees hu rests trailing
    · exact hname
  · rintro _ (rfl | rfl) _ <;> exact hname

/-! ### Functions -/

theorem parameter_agrees :
    x.Agree (g.parameter (scope.moved x.shift)) (g'.parameter scope) s s' Eq := by
  refine agree_eat h (fun t t' _ ht => ?_) fun _ => ?_
  · exact agree_bind ht (hg.pattern scope ht) fun _ _ _ _ _ hu _ => agree_pure hu.toAligned rfl
  · exact agree_bind h (patternElement_agrees hg scope h) fun _ _ _ _ _ ht _ =>
      agree_pure ht.toAligned rfl

theorem parameters_agrees :
    x.Agree (g.parameters (scope.moved x.shift)) (g'.parameters scope) s s' Eq := by
  refine agree_expect h fun t t' _ ht => ?_
  refine agree_bind ht (patternList_agrees hg ht fun u u' l l' hu _ =>
    parameter_agrees hg scope hu) ?_
  rintro ⟨rests, trailing⟩ _ u u' rfl hu _
  exact agree_bind hu (restLast_agrees hu rests trailing) fun _ _ _ _ _ hv _ =>
    agree_pure hv.toAligned rfl

omit h in
theorem statements_agrees {k : Nat} (hk : k < m) (directives : Bool) (h : x.Mirror k s s')
    {n n' : Nat} (hn : x.Within n' s) :
    x.Agree (g.statements directives (scope.moved x.shift) n) (g'.statements directives scope n')
      s s' (List.Forall₂ Statement.Alike) := by
  induction n' generalizing n s s' directives scope with
  | zero => exact absurd hn h.not_within_zero
  | succ n' ih =>
    rcases n with _ | n
    · exact agree_fail
    rw [statements, statements]
    refine agree_eat h (fun t t' _ ht => agree_pure ht.toAligned .nil) fun _ => ?_
    refine agree_bind_of h (hg.advances .list _ s) (hg.statement .list scope hk h) ?_
    intro a a' t t' ha ht hst
    dsimp only
    rw [ha.isDirective, ha.isStrictDirective]
    let inner := { scope with strict := scope.strict || directives && isStrictDirective a' }
    refine agree_bind ht (ih inner _ ht (hn.less hst)) fun as as' u u' has hu _ => ?_
    exact agree_pure hu.toAligned (.cons ha has)

theorem functionBody_agrees :
    x.Agree (g.functionBody (scope.moved x.shift)) (g'.functionBody scope) s s'
      (List.Forall₂ Statement.Alike) := by
  refine agree_expect h fun t t' hst ht => ?_
  obtain ⟨k, rfl⟩ := h.exists_succ
  have ht := h.less hst.advances ht
  exact statements_agrees hg scope k.lt_succ_self true ht (ht.within.mono (by have := hg.fuel; omega))

theorem functionRest_agrees :
    x.Agree (g.functionRest (scope.moved x.shift)) (g'.functionRest scope) s s' Eq := by
  refine agree_bind h (parameters_agrees hg scope h) ?_
  rintro n _ t t' rfl ht _
  exact agree_bind ht (functionBody_agrees hg scope ht) fun _ _ _ _ _ hu _ =>
    agree_pure hu.toAligned rfl

theorem functionBehindKeyword_agrees (declared isAsync : Bool) :
    x.Agree (g.functionBehindKeyword declared isAsync (scope.moved x.shift))
      (g'.functionBehindKeyword declared isAsync scope) s s' fun _ _ => True := by
  have hrest : ∀ (isGenerator : Bool) {t t' : ReaderState}, x.Mirror m t t' →
      x.Agree (do let _ ← g.functionRest ((scope.moved x.shift).function isAsync isGenerator false))
        (do let _ ← g'.functionRest (scope.function isAsync isGenerator false)) t t'
        fun _ _ => True := by
    intro isGenerator t t' ht
    refine agree_bind ht (functionRest_agrees hg (scope.function isAsync isGenerator false) ht) ?_
    exact fun _ _ _ _ _ hu _ => agree_pure hu.toAligned trivial
  have hnamed : ∀ (isGenerator : Bool) {t t' : ReaderState}, x.Mirror m t t' →
      x.Agree
        (do if ← isAhead .leftParen then
              if declared then fail
            else
              let _ ← variableName (if declared then scope.moved x.shift
                else (scope.moved x.shift).function isAsync isGenerator false)
            let _ ← g.functionRest ((scope.moved x.shift).function isAsync isGenerator false))
        (do if ← isAhead .leftParen then
              if declared then fail
            else
              let _ ← variableName (if declared then scope
                else scope.function isAsync isGenerator false)
            let _ ← g'.functionRest (scope.function isAsync isGenerator false)) t t'
        fun _ _ => True := by
    intro isGenerator t t' ht
    refine agree_isAhead ht rfl fun b _ => agree_ite (fun _ => ?_) fun _ => ?_
    · exact agree_ite (fun _ => agree_fail_bind) fun _ => hrest isGenerator ht
    · cases declared
      · exact agree_bind ht (agree_variableName ht (scope.function isAsync isGenerator false))
          fun _ _ _ _ _ hu _ => hrest isGenerator hu
      · exact agree_bind ht (agree_variableName ht scope) fun _ _ _ _ _ hu _ =>
          hrest isGenerator hu
  exact agree_eat h (fun t t' _ ht => hnamed true ht) fun _ => hnamed false h

/-! ### Methods -/

omit hg in
theorem modifiers_agrees {l l' : Lexeme} (hi : x.Inside s s' l l') :
    x.Agree modifiers modifiers s s' Eq := by
  have hnone : ∀ a : Modifiers, x.Agree (pure a) (pure a) s s' Eq :=
    fun a => agree_pure h.toAligned rfl
  refine agree_peekSecond h hi fun o o' ho _ => ?_
  have hkeyed := ho.any (p := fun k _ => opensKey k) fun k b hk => by cases k <;> first | rfl | cases hk
  have hasync := ho.any (p := fun k b => !b && (opensKey k || k == .binary .times)) fun k b hk => by
    rcases Token.closesItem_iff.1 hk with rfl | rfl <;> simp [opensKey]
  dsimp only
  rw [hkeyed]
  refine agree_peek_inside hi fun k hk => ?_
  split
  · exact agree_ite (fun _ => agree_advance h hk fun t t' _ ht => agree_pure ht.toAligned rfl)
      fun _ => hnone _
  · exact agree_ite (fun _ => agree_advance h hk fun t t' _ ht => agree_pure ht.toAligned rfl)
      fun _ => hnone _
  · rw [hasync]
    refine agree_ite (fun _ => agree_advance h hk fun t t' _ ht => ?_) fun _ => hnone _
    exact agree_eat ht (fun u u' _ hu => agree_pure hu.toAligned rfl) fun _ =>
      agree_pure ht.toAligned rfl
  · exact agree_advance h hk fun t t' _ ht => agree_pure ht.toAligned rfl
  · exact hnone _

theorem method_agrees (modifiers : Modifiers) :
    x.Agree (g.method modifiers (scope.moved x.shift)) (g'.method modifiers scope) s s'
      fun _ _ => True := by
  let inner := scope.function modifiers.isAsync modifiers.isGenerator true
  refine agree_bind h (functionRest_agrees hg inner h) ?_
  rintro n _ t t' rfl ht _
  have hdone : x.Agree (pure ()) (pure ()) t t' fun _ _ => True := agree_pure ht.toAligned trivial
  split
  · exact agree_ite (fun _ => agree_fail) fun _ => hdone
  · exact agree_ite (fun _ => agree_fail) fun _ => hdone
  · exact hdone

/-! ### Classes -/

omit hg h in
theorem key_advances : (g.key scope).Ensures s fun _ t => s.Advances 1 t := by
  have htakes : ∀ {k : Token} {f : Unit → Reader Key}, s.tokenAhead = some k →
      (advance >>= f).Ensures s fun _ t => s.Advances 1 t := by
    intro k f hk
    rw [ensures_bind, ensures_advance hk]
    exact fun u hu => (ensures_advances _ u).mono fun _ t ht => hu.advances.trans ht
  rw [key, ensures_bind, ensures_peek]
  split
  · exact htakes ‹_›
  · exact htakes ‹_›
  · exact htakes ‹_›
  · exact htakes ‹_›
  · exact htakes ‹_›
  · rw [ensures_bind]
    exact (ensures_privateName s).mono fun _ t ht => ensures_pure.2 ht
  · exact ensures_fail

omit hg h in
theorem classMember_advances (isStatic : Bool) :
    (g.classMember isStatic scope).Ensures s fun _ t => s.Advances 1 t := by
  rw [classMember, ensures_bind, ensures_isAhead, ensures_ite]
  refine ⟨fun hk => ?_, fun _ => ?_⟩
  · rw [ensures_bind, ensures_advance (eq_of_beq (Bool.and_eq_true_iff.1 hk).2)]
    exact fun u hu => (ensures_advances _ u).mono fun _ t ht => hu.advances.trans ht
  · rw [ensures_bind]
    refine (ensures_advances _ s).mono fun a t ht => ?_
    rw [ensures_bind, ensures_position, ensures_bind]
    refine (key_advances scope).mono fun k u hu => ?_
    exact (ensures_advances _ u).mono fun _ v hv => ((ht.trans hu).trans hv).mono (by omega)

theorem classMember_agrees (hb : x.Begun s) (isStatic : Bool) :
    x.Agree (g.classMember isStatic (scope.moved x.shift)) (g'.classMember isStatic scope) s s' Eq := by
  let inner := { scope.function false false true with inFunction := false }
  refine agree_of_inside h (classMember_advances _ isStatic) fun l l' hi => ?_
  refine agree_isAhead h rfl fun b hblock => agree_ite (fun hb => ?_) fun _ => ?_
  · have hk := hblock.1 (Bool.and_eq_true_iff.1 hb).2
    refine agree_advance h hk fun t t' hst ht => ?_
    obtain ⟨k, rfl⟩ := h.exists_succ
    have ht := h.less hst.advances ht
    have hfuel : k ≤ g'.fuel := k.le_succ.trans hg.fuel
    refine agree_bind ht (statements_agrees hg inner k.lt_succ_self false ht (ht.within.mono hfuel)) ?_
    exact fun _ _ _ _ _ hu _ => agree_pure hu.toAligned rfl
  · refine agree_bind h (modifiers_agrees h hi) ?_
    rintro a _ t t' rfl ht hst
    refine agree_offset fun start start' => agree_bind ht (key_agrees hg scope ht) ?_
    rintro k _ u u' rfl hu htu
    have hkind : ∀ {v v' : ReaderState} (kind : MemberKind), x.Aligned v v' →
        x.Agree (if mayStand isStatic kind k then pure (isConstructor isStatic kind k) else failAt start)
          (if mayStand isStatic kind k then pure (isConstructor isStatic kind k) else failAt start')
          v v' Eq :=
      fun kind hv => agree_ite (fun _ => agree_pure hv rfl) fun _ => agree_failAt
    refine agree_isAhead hu rfl fun b _ => agree_ite (fun _ => ?_) fun _ =>
      agree_ite (fun _ => agree_fail_bind) fun _ => ?_
    · exact agree_bind hu (method_agrees hg scope hu a) fun _ _ v v' _ hv _ => hkind _ hv.toAligned
    · refine agree_bind hu (initializer_agrees hg inner hu) fun _ _ v v' _ hv huv => ?_
      have hbegun : x.Begun v := hb.behind ((hst.trans htu).trans huv)
      exact agree_bind hv (agree_semicolon hv hbegun) fun _ _ w w' _ hw _ => hkind _ hw.toAligned

theorem classMembers_agrees (hb : x.Begun s) (mayConstruct : Bool) {n n' : Nat}
    (hn : x.Within n' s) :
    x.Agree (g.classMembers (scope.moved x.shift) mayConstruct n)
      (g'.classMembers scope mayConstruct n') s s' fun _ _ => True := by
  induction n' generalizing n s s' mayConstruct with
  | zero => exact absurd hn h.not_within_zero
  | succ n' ih =>
    rcases n with _ | n
    · exact agree_fail
    rw [classMembers, classMembers]
    refine agree_ifEat h (fun t t' _ ht => agree_pure ht.toAligned trivial) fun _ => ?_
    refine agree_ifEat h (fun t t' hst ht => ?_) fun _ => ?_
    · exact ih ht (hb.behind hst.advances) mayConstruct (hn.less hst.advances)
    · -- one member and those behind it
      have hmember : ∀ (isStatic : Bool) (start start' : Nat) {t t' : ReaderState},
          x.Mirror m t t' → s.Advances 0 t →
          x.Agree
            (do let constructs ← g.classMember isStatic (scope.moved x.shift)
                if constructs && !mayConstruct then failAt start
                g.classMembers (scope.moved x.shift) (mayConstruct && !constructs) n)
            (do let constructs ← g'.classMember isStatic scope
                if constructs && !mayConstruct then failAt start'
                g'.classMembers scope (mayConstruct && !constructs) n') t t' fun _ _ => True := by
        intro isStatic start start' t t' ht hst
        refine agree_bind_of ht (classMember_advances _ isStatic)
          (classMember_agrees hg scope ht (hb.behind hst) isStatic) ?_
        rintro constructs _ u u' rfl hu htu
        have hsu := hst.trans htu
        exact agree_ite (fun _ => agree_failAt_bind) fun _ =>
          ih hu (hb.behind hsu) _ (hn.less (hsu.mono (by omega)))
      refine agree_of_inside h ?_ fun l l' hi => ?_
      · rw [ensures_bind, ensures_position, ensures_bind, ensures_peekSecond, ensures_bind,
          ensures_isAhead, ensures_ite]
        refine ⟨fun hk => ?_, fun _ => ?_⟩
        · rw [ensures_bind, ensures_advance (eq_of_beq (Bool.and_eq_true_iff.1 hk).1)]
          exact fun u hu => (ensures_advances _ u).mono fun _ t ht => hu.advances.trans ht
        · rw [ensures_bind]
          exact (classMember_advances _ _).mono fun _ t ht =>
            (ensures_advances _ t).mono fun _ u hu => ht.trans hu
      refine agree_offset fun start start' => agree_peekSecond h hi fun o o' ho _ => ?_
      refine agree_isAhead h rfl fun b hstatic => ?_
      dsimp only
      rw [ho.contains (by simp) (by simp [Token.closesItem_iff])]
      refine agree_ite (fun hb => ?_) fun _ => hmember _ _ _ h (.refl s)
      refine agree_advance h (hstatic.1 (Bool.and_eq_true_iff.1 hb).1) fun t t' hst ht => ?_
      exact hmember _ _ _ ht (hst.advances.mono (Nat.zero_le _))

theorem classBehindKeyword_agrees (hb : x.Begun s) (declared : Bool) :
    x.Agree (g.classBehindKeyword declared (scope.moved x.shift))
      (g'.classBehindKeyword declared scope) s s' fun _ _ => True := by
  let inner := { scope with strict := true }
  have hbody : ∀ {t t' : ReaderState}, x.Mirror m t t' → s.Advances 0 t →
      x.Agree
        (do expect .leftBrace
            g.classMembers (inner.moved x.shift) true g.fuel)
        (do expect .leftBrace
            g'.classMembers inner true g'.fuel) t t' fun _ _ => True := by
    intro t t' ht hst
    refine agree_expect ht fun u u' htu hu => ?_
    exact classMembers_agrees hg inner hu (hb.behind (hst.trans htu.advances)) true
      (hu.within.mono hg.fuel)
  have hrest : ∀ {t t' : ReaderState}, x.Mirror m t t' → s.Advances 0 t →
      x.Agree
        (do if ← eat (.word "extends") then
              let _ ← (← g.member true (inner.moved x.shift).enclosed).settle
            expect .leftBrace
            g.classMembers (inner.moved x.shift) true g.fuel)
        (do if ← eat (.word "extends") then
              let _ ← (← g'.member true inner.enclosed).settle
            expect .leftBrace
            g'.classMembers inner true g'.fuel) t t' fun _ _ => True := by
    intro t t' ht hst
    refine agree_ifEat ht (fun u u' htu hu => ?_) fun _ => hbody ht hst
    refine agree_bind hu (hg.member true inner.enclosed hu) fun p p' v v' hp hv huv => ?_
    refine agree_bind hv (agree_settle hv.toAligned hp) fun _ _ w w' _ hw hvw => ?_
    exact hbody hw (((hst.trans htu.advances).trans (huv.trans hvw)).mono (Nat.zero_le _))
  refine agree_peek h (fun k l l' hi hk => ?_) ?_
  · split
    · exact agree_ite (fun _ => agree_fail_bind) fun _ => hrest h (.refl s)
    · exact agree_bind h (agree_variableName h inner) fun _ _ t t' _ ht hst => hrest ht hst
    · exact agree_ite (fun _ => agree_fail_bind) fun _ => hrest h (.refl s)
  · rintro _ (rfl | rfl) _ <;> exact agree_ite (fun _ => agree_fail_bind) fun _ => hrest h (.refl s)

end PageQuery.Script.Grammar
