import PageQuery.Proofs.RereadExpressions

/-!
# Statements read twice

The rules for statements agree on an excerpt if those one level down do, so the rules of all levels
agree (`grammar_agrees`), wherever the excerpt has fewer tokens left than the one grammar has levels.
-/

namespace PageQuery.Script.Grammar

open Reader ReaderState Excerpt

variable {x : Excerpt} {m : Nat} {g g' : Grammar} (hg : x.Agrees m g g') (scope : Scope)
  {s s' : ReaderState} (h : x.Mirror m s s')

include hg h

/-! ### Declarations -/

/-- a variable or a pattern, its value, and what stands behind a pattern without one -/
theorem valued_agrees {P : Option Token → Bool} {F : Bool → Option Token → Reader Bool}
    (hP : ∀ k, k = .rightParen ∨ k = .comma → P (some k) = P none)
    (hin : ∀ b k {t t'}, x.Mirror m t t' → x.Agree (F b (some k)) (F b (some k)) t t' Eq)
    (hend : ∀ b k {t t'}, k = .rightParen ∨ k = .comma →
      x.Agree (F b (some k)) (F b none) t t' Eq) :
    x.Agree
      (peek >>= fun k => do
        g.pattern (scope.moved x.shift)
        let b ← g.initializer { scope.moved x.shift with arrowStart := none }
        if !b && P k then peek >>= F b else pure b)
      (peek >>= fun k => do
        g'.pattern scope
        let b ← g'.initializer { scope with arrowStart := none }
        if !b && P k then peek >>= F b else pure b) s s' Eq := by
  let inner := { scope with arrowStart := none }
  have hrest : ∀ isPattern : Bool,
      x.Agree
        (do g.pattern (scope.moved x.shift)
            let b ← g.initializer { scope.moved x.shift with arrowStart := none }
            if !b && isPattern then peek >>= F b else pure b)
        (do g'.pattern scope
            let b ← g'.initializer { scope with arrowStart := none }
            if !b && isPattern then peek >>= F b else pure b) s s' Eq := by
    intro isPattern
    refine agree_bind h (hg.pattern scope h) fun _ _ t t' _ ht _ => ?_
    refine agree_bind ht (initializer_agrees hg inner ht) ?_
    rintro b _ u u' rfl hu _
    refine agree_ite (fun _ => agree_peek hu (fun k _ _ _ _ => hin b k hu) ?_) fun _ => ?_
    · exact fun k hk _ => hend b k hk
    · exact agree_pure hu.toAligned rfl
  refine agree_peek h (fun k _ _ _ _ => hrest _) fun k hk _ => ?_
  rw [hP k hk]
  exact hrest _

theorem declarator_agrees (inLoopHead : Bool) :
    x.Agree (g.declarator inLoopHead (scope.moved x.shift)) (g'.declarator inLoopHead scope) s s'
      Eq := by
  refine valued_agrees hg scope h ?_ ?_ ?_
  · rintro _ (rfl | rfl) <;> rfl
  · intro b k t t' ht
    split
    · exact agree_pure ht.toAligned rfl
    · exact agree_pure ht.toAligned rfl
    · exact agree_fail_bind
  · rintro b _ t t' (rfl | rfl) <;> cases inLoopHead <;> exact agree_fail_bind

theorem declarators_agrees (inLoopHead : Bool) {n n' : Nat} (hn : x.Within n' s) :
    x.Agree (g.declarators inLoopHead (scope.moved x.shift) n)
      (g'.declarators inLoopHead scope n') s s' Eq := by
  induction n' generalizing n s s' with
  | zero => exact absurd hn h.not_within_zero
  | succ n' ih =>
    rcases n with _ | n
    · exact agree_fail
    rw [declarators, declarators]
    refine agree_bind h (declarator_agrees hg scope h inLoopHead) ?_
    rintro hasValue _ t t' rfl ht hst
    refine agree_ifEat ht (fun u u' htu hu => ?_) fun _ => agree_pure ht.toAligned rfl
    refine agree_bind hu (ih hu (hn.less ((hst.trans htu.advances).mono le_rfl))) ?_
    rintro rest _ v v' rfl hv _
    exact agree_pure hv.toAligned rfl

omit hg h in
/-- what the token ahead, and for `let` the one behind it, say about a declaration -/
def opensDeclaration (s : ReaderState) : Bool :=
  match s.tokenAhead with
  | some (.word "var") => true
  | some (.word "const") => true
  | some (.word "let") => s.after.lookAhead.1.any fun l => opensLet l.token
  | _ => false

omit hg h in
theorem declarationAhead_eq : declarationAhead = observe opensDeclaration := by
  have hrun : ∀ s : ReaderState, declarationAhead.run s = (observe opensDeclaration).run s := by
    intro s
    show (match s.tokenAhead with
      | some (.word "var") => pure true
      | some (.word "const") => pure true
      | some (.word "let") => do pure ((← peekSecond).any fun l => opensLet l.token)
      | _ => pure false : Reader Bool).run s = .ok (opensDeclaration s, s)
    unfold opensDeclaration
    split <;> rfl
  rcases hd : declarationAhead with ⟨run, _⟩
  rw [hd] at hrun
  obtain rfl : run = _ := funext hrun
  rfl

omit hg h in
theorem exists_word_of_opensDeclaration (h : opensDeclaration s = true) :
    ∃ w, s.tokenAhead = some (.word w) := by
  unfold opensDeclaration at h
  split at h
  · exact ⟨_, ‹_›⟩
  · exact ⟨_, ‹_›⟩
  · exact ⟨_, ‹_›⟩
  · cases h

omit hg in
theorem opensDeclaration_eq : opensDeclaration s' = opensDeclaration s := by
  unfold opensDeclaration
  rcases h.cases with ⟨l, l', hi⟩ | hend
  · have hsecond := (hi.seconds h).any (p := fun k _ => opensLet k) fun k b hk => by
      rcases Token.closesItem_iff.1 hk with rfl | rfl <;> rfl
    rw [hi.tokenAhead, hi.tokenAhead', hsecond]
  · obtain ⟨k, hk, hclose, hnone⟩ := hend.tokenAhead
    rw [hk, hnone]
    rcases Token.closesItem_iff.1 hclose with rfl | rfl <;> rfl

omit hg in
theorem agree_ifDeclarationAhead {α β : Type} {R : α → β → Prop} {r q : Reader α} {r' q' : Reader β}
    (hyes : ∀ w, s.tokenAhead = some (.word w) → x.Agree r r' s s' R) (hno : x.Agree q q' s s' R) :
    x.Agree (do if ← declarationAhead then r else q) (do if ← declarationAhead then r' else q')
      s s' R := by
  rw [declarationAhead_eq]
  show x.Agree (if opensDeclaration s then r else q) (if opensDeclaration s' then r' else q') s s' R
  rw [opensDeclaration_eq h]
  refine agree_ite (fun hd => ?_) fun _ => hno
  obtain ⟨w, hw⟩ := exists_word_of_opensDeclaration hd
  exact hyes w hw

/-! ### Parts -/

theorem condition_agrees :
    x.Agree (g.condition (scope.moved x.shift)) (g'.condition scope) s s' fun _ _ => True :=
  agree_expect h fun _ _ _ ht => agree_bind ht (expression_agrees hg scope.enclosed ht)
    fun _ _ _ _ _ hu _ => agree_expected hu

theorem block_agrees :
    x.Agree (g.block (scope.moved x.shift)) (g'.block scope) s s' fun _ _ => True := by
  refine agree_expect h fun t t' hst ht => ?_
  obtain ⟨k, rfl⟩ := h.exists_succ
  have ht := h.less hst.advances ht
  have hfuel : k ≤ g'.fuel := k.le_succ.trans hg.fuel
  exact agree_bind ht (statements_agrees hg scope k.lt_succ_self false ht (ht.within.mono hfuel))
    fun _ _ _ _ _ hu _ => agree_pure hu.toAligned trivial

omit h in
theorem loopBody_agrees {k : Nat} (hk : k < m) (h : x.Mirror k s s') :
    x.Agree (g.loopBody (scope.moved x.shift)) (g'.loopBody scope) s s' fun _ _ => True := by
  let inner := { scope with breakable := true, continuable := true }
  exact agree_bind h (hg.statement .body inner hk h) fun _ _ _ _ _ ht _ =>
    agree_pure ht.toAligned trivial

theorem loopRange_agrees :
    x.Agree (g.loopRange (scope.moved x.shift)) (g'.loopRange scope) s s' fun _ _ => True := by
  refine agree_ifEat h (fun t t' _ ht => ?_) fun _ => agree_expect h fun t t' _ ht => ?_
  · exact agree_bind ht (value_agrees hg scope ht) fun _ _ _ _ _ hu _ =>
      agree_pure hu.toAligned trivial
  · exact agree_bind ht (expression_agrees hg scope ht) fun _ _ _ _ _ hu _ =>
      agree_pure hu.toAligned trivial

omit hg in
theorem rangeAhead_agrees : x.Agree rangeAhead rangeAhead s s' Eq :=
  agree_isAhead h rfl fun _ _ => agree_isAhead h rfl fun _ _ => agree_pure h.toAligned rfl

theorem optionalExpression_agrees (close : Token) :
    x.Agree (g.optionalExpression close (scope.moved x.shift)) (g'.optionalExpression close scope)
      s s' fun _ _ => True := by
  refine agree_ifAhead h (fun hk => ?_) (fun l l' hi hk => agree_expected h) fun _ => ?_
  · exact ensures_expect.2 fun u hu => hu.advances
  · exact agree_bind h (expression_agrees hg scope h) fun _ _ _ _ _ ht _ => agree_expected ht

theorem loopTail_agrees :
    x.Agree (g.loopTail (scope.moved x.shift)) (g'.loopTail scope) s s' fun _ _ => True :=
  agree_expect h fun _ _ _ ht => agree_bind ht (optionalExpression_agrees hg scope ht .semicolon)
    fun _ _ _ _ _ hu _ => optionalExpression_agrees hg scope hu .rightParen

theorem loopHead_agrees :
    x.Agree (g.loopHead (scope.moved x.shift)) (g'.loopHead scope) s s' fun _ _ => True := by
  let first := { scope with inAllowed := false }
  refine agree_expect h fun t t' _ ht => ?_
  refine agree_isAhead ht rfl fun b _ => agree_ite (fun _ => loopTail_agrees hg scope ht) fun _ => ?_
  have hrange : ∀ {u u' : ReaderState}, x.Mirror m u u' →
      x.Agree (do g.loopRange (scope.moved x.shift); expect .rightParen)
        (do g'.loopRange scope; expect .rightParen) u u' fun _ _ => True :=
    fun hu => agree_bind hu (loopRange_agrees hg scope hu) fun _ _ _ _ _ hv _ => agree_expected hv
  refine agree_ifDeclarationAhead ht (fun w hw => ?_) ?_
  · refine agree_advance ht hw fun u u' _ hu => agree_offset fun start start' => ?_
    refine agree_bind hu (declarators_agrees hg first hu true (hu.within.mono hg.fuel)) ?_
    rintro valued _ v v' rfl hv _
    refine agree_bind hv (rangeAhead_agrees hv) ?_
    rintro c _ w w' rfl hw _
    refine agree_ite (fun _ => ?_) fun _ => loopTail_agrees hg scope hw
    refine agree_isAhead hw rfl fun d _ => agree_ite (fun _ => agree_failAt_bind) fun _ => ?_
    exact hrange hw
  · refine agree_bind ht (openExpression_agrees hg first ht) fun p p' u u' hp hu _ => ?_
    refine agree_bind hu (rangeAhead_agrees hu) ?_
    rintro c _ v v' rfl hv _
    rw [hp.role]
    refine agree_ite (fun _ => agree_ite (fun _ => hrange hv) fun _ => agree_failAt) fun _ => ?_
    exact agree_settle_bind hp (loopTail_agrees hg scope hv)

omit h in
theorem caseStatements_agrees {k : Nat} (hk : k < m) (h : x.Mirror k s s') {n n' : Nat}
    (hn : x.Within n' s) :
    x.Agree (g.caseStatements (scope.moved x.shift) n) (g'.caseStatements scope n') s s'
      fun _ _ => True := by
  induction n' generalizing n s s' with
  | zero => exact absurd hn h.not_within_zero
  | succ n' ih =>
    rcases n with _ | n
    · exact agree_fail
    rw [caseStatements, caseStatements]
    have hdone : x.Agree (pure ()) (pure ()) s s' fun _ _ => True := agree_pure h.toAligned trivial
    have hnext : x.Agree
        (do let _ ← g.statement .list (scope.moved x.shift)
            g.caseStatements (scope.moved x.shift) n)
        (do let _ ← g'.statement .list scope
            g'.caseStatements scope n') s s' fun _ _ => True :=
      agree_bind_of h (hg.advances .list _ s) (hg.statement .list scope hk h)
        fun _ _ t t' _ ht hst => ih ht (hn.less hst)
    refine agree_peek h (fun k l l' _ hk => ?_) ?_
    · split
      · exact hdone
      · exact hdone
      · exact hdone
      · exact hnext
    · rintro _ (rfl | rfl) _ <;> exact hnext

omit h in
theorem switchCases_agrees {k : Nat} (hk : k < m) (h : x.Mirror k s s') (mayDefault : Bool)
    {n n' : Nat} (hn : x.Within n' s) :
    x.Agree (g.switchCases (scope.moved x.shift) mayDefault n) (g'.switchCases scope mayDefault n')
      s s' fun _ _ => True := by
  induction n' generalizing n s s' mayDefault with
  | zero => exact absurd hn h.not_within_zero
  | succ n' ih =>
    rcases n with _ | n
    · exact agree_fail
    rw [switchCases, switchCases]
    -- the statements of a case and the cases behind it
    have hcase : ∀ (mayDefault : Bool) {t t' : ReaderState}, x.Mirror k t t' → s.Advances 0 t →
        x.Agree
          (do expect .colon
              g.caseStatements (scope.moved x.shift) g.fuel
              g.switchCases (scope.moved x.shift) mayDefault n)
          (do expect .colon
              g'.caseStatements scope g'.fuel
              g'.switchCases scope mayDefault n') t t' fun _ _ => True := by
      intro mayDefault t t' ht hst
      refine agree_expect ht fun u u' htu hu => ?_
      have hfuel : k ≤ g'.fuel := hk.le.trans hg.fuel
      refine agree_bind hu (caseStatements_agrees hg scope hk hu (hu.within.mono hfuel)) ?_
      exact fun _ _ v v' _ hv huv => ih hv mayDefault
        (hn.less (((hst.trans htu.advances).trans huv).mono (by omega)))
    refine agree_ifEat h (fun t t' _ ht => agree_pure ht.toAligned trivial) fun _ => ?_
    refine agree_eat h (fun t t' hst ht => ?_) fun _ => ?_
    · have hto := hst.advances.mono (Nat.zero_le _)
      exact agree_ite (fun _ => agree_fail_bind) fun _ => hcase _ ht hto
    · refine agree_expect h fun t t' hst ht => ?_
      have hexpr := expression_agrees hg scope (ht.mono hk.le)
      refine agree_bind ht hexpr fun _ _ u u' _ hu htu => ?_
      exact hcase _ hu ((hst.advances.trans htu).mono (Nat.zero_le _))

theorem tryRest_agrees :
    x.Agree (g.tryRest (scope.moved x.shift)) (g'.tryRest scope) s s' fun _ _ => True := by
  refine agree_bind h (block_agrees hg scope h) fun _ _ t t' _ ht _ => ?_
  have hfinal : ∀ (handled : Bool) {u u' : ReaderState}, x.Mirror m u u' →
      x.Agree
        (do if ← eat (.word "finally") then g.block (scope.moved x.shift)
            else if !handled then fail)
        (do if ← eat (.word "finally") then g'.block scope
            else if !handled then fail) u u' fun _ _ => True :=
    fun handled u u' hu => agree_ifEat hu (fun v v' _ hv => block_agrees hg scope hv)
      fun _ => agree_ite (fun _ => agree_fail) fun _ => agree_pure hu.toAligned trivial
  refine agree_eat ht (fun u u' _ hu => ?_) fun _ => hfinal false ht
  have hhandler : ∀ {v v' : ReaderState}, x.Mirror m v v' →
      x.Agree
        (do g.block (scope.moved x.shift)
            if ← eat (.word "finally") then g.block (scope.moved x.shift)
            else if !true then fail)
        (do g'.block scope
            if ← eat (.word "finally") then g'.block scope
            else if !true then fail) v v' fun _ _ => True :=
    fun hv => agree_bind hv (block_agrees hg scope hv) fun _ _ _ _ _ hw _ => hfinal true hw
  refine agree_ifEat hu (fun v v' _ hv => ?_) fun _ => hhandler hu
  refine agree_bind hv (hg.pattern scope hv) fun _ _ w w' _ hw _ => ?_
  exact agree_expect hw fun _ _ _ hy => hhandler hy

omit hg in
theorem jump_agrees (allowed : Bool) {w : String} (hk : s.tokenAhead = some (.word w)) :
    x.Agree (jump allowed (scope.moved x.shift)) (jump allowed scope) s s' fun _ _ => True := by
  refine agree_offset fun start start' => agree_advance h hk fun t t' hst ht => ?_
  have hb := h.begun hst.advances
  have hend : ∀ (c : Bool) {u u' : ReaderState}, x.Mirror m u u' → x.Begun u →
      x.Agree (do semicolon; if !c then failAt start) (do semicolon; if !c then failAt start') u u'
        fun _ _ => True :=
    fun c u u' hu hbu => agree_bind hu (agree_semicolon hu hbu) fun _ _ _ _ _ hv _ =>
      agree_ite (fun _ => agree_failAt) fun _ => agree_pure hv.toAligned trivial
  refine agree_peek ht (fun k l l' hi hk => ?_) ?_
  · split
    · refine agree_newlineAhead hi hb fun b => agree_ite (fun _ => hend _ ht hb) fun _ => ?_
      refine agree_advance ht hk fun u u' htu hu => ?_
      exact hend _ hu (hb.behind htu.advances)
    · exact hend _ ht hb
  · rintro _ (rfl | rfl) _ <;> exact hend _ ht hb

/-! ### Statements -/

omit hg h in
theorem takes_advances {α : Type} {k : Token} (hk : s.tokenAhead = some k) (f : Unit → Reader α) :
    (advance >>= f).Ensures s fun _ t => s.Advances 1 t := by
  rw [ensures_bind, ensures_advance hk]
  exact fun u hu => (ensures_advances _ u).mono fun _ t ht => hu.advances.trans ht

omit hg h in
theorem expressionStatement_advances (hg : g.ReadsPhrases) (place : Place) (s : ReaderState) :
    (g.expressionStatement place scope).Ensures s fun _ t => s.Advances 1 t := by
  simp only [expressionStatement, ensures_bind, ensures_peekSecond, ensures_peek]
  split
  · rw [ensures_bind, ensures_variableName]
    exact fun w t _ ht => (ensures_advances _ t).mono fun _ u hu => ht.advances.trans hu
  · rw [ensures_bind]
    exact (expression_reads hg scope s).mono fun p t hp =>
      (ensures_advances _ t).mono fun _ u hu => hp.advances.trans hu

theorem expressionStatement_agrees (place : Place) :
    x.Agree (g.expressionStatement place (scope.moved x.shift)) (g'.expressionStatement place scope)
      s s' Statement.Alike := by
  refine agree_of_inside h (expressionStatement_advances _ hg.reads place s) fun l l' hi => ?_
  have hexpression : x.Agree
      (do let p ← g.expression (scope.moved x.shift)
          semicolon
          pure (.expression p.expr))
      (do let p ← g'.expression scope
          semicolon
          pure (.expression p.expr)) s s' Statement.Alike := by
    refine agree_bind_of h (expression_reads hg.reads _ s) (expression_agrees hg scope h) ?_
    intro p p' t t' hp ht hread
    exact agree_bind ht (agree_semicolon ht (h.begun hread.advances)) fun _ _ u u' _ hu _ =>
      agree_pure hu.toAligned (.expression hp.expr)
  refine agree_peekSecond h hi fun o o' ho hsecond => agree_peek_inside hi fun k hk => ?_
  cases ho with
  | token hmoved _ =>
    dsimp only [Option.map_some]
    rw [← hmoved.token]
    split
    · rename_i label _ hcolon
      refine agree_bind_of h (ensures_variableName.2 fun w t _ ht => ht)
        (agree_variableName h scope) ?_
      rintro w _ t t' rfl ht hst
      obtain ⟨n, rfl⟩ := h.exists_succ
      have ht := h.less hst.advances ht
      have hk : t.tokenAhead = some .colon := by rw [tokenAhead, hst.ahead_eq, hsecond, ← hcolon]; rfl
      let inner := { scope with labels := label :: scope.labels }
      refine agree_advance ht hk fun u u' _ hu => ?_
      exact agree_bind hu (hg.statement _ inner n.lt_succ_self hu) fun _ _ v v' _ hv _ =>
        agree_pure hv.toAligned .other
    · exact hexpression
  | @finish l hclose =>
    -- no colon stands behind the excerpt
    dsimp only [Option.map_some, Option.map_none]
    split
    · rename_i hcolon
      rw [Option.some.inj hcolon] at hclose
      cases hclose
    · cases k <;> exact hexpression

omit hg h in
theorem jump_advances (allowed : Bool) {w : String} (hk : s.tokenAhead = some (.word w)) :
    (jump allowed scope).Ensures s fun _ t => s.Advances 1 t := by
  rw [jump, ensures_bind, ensures_position]
  exact takes_advances hk _

omit hg h in
theorem keywordStatement_advances (hg : g.ReadsPhrases) (place : Place) {w : String}
    (hk : s.tokenAhead = some (.word w)) :
    (g.keywordStatement w place scope).Ensures s fun r t => ∀ a ∈ r, s.Advances 1 t := by
  have htakes : ∀ f : Unit → Reader (Option Statement),
      (advance >>= f).Ensures s fun r t => ∀ a ∈ r, s.Advances 1 t :=
    fun f => (takes_advances hk f).mono fun _ _ ht _ _ => ht
  have hjump : ∀ allowed : Bool,
      (do jump allowed scope; pure (some .other) : Reader (Option Statement)).Ensures s
        fun r t => ∀ a ∈ r, s.Advances 1 t := by
    intro allowed
    rw [ensures_bind]
    exact (jump_advances scope allowed hk).mono fun _ t ht => ensures_pure.2 fun _ _ => ht
  by_cases himport : w = "import"
  · subst himport
    rw [keywordStatement_import, ensures_bind, ensures_peekSecond, ensures_ite, ensures_bind]
    refine ⟨fun _ => (expression_reads hg scope s).mono fun p t hp => ?_, fun _ => ensures_fail⟩
    exact (ensures_advances _ t).mono fun _ u hu _ _ => hp.advances.trans hu
  · -- every other statement takes its keyword first, or fails where it must not stand
    unfold keywordStatement
    dsimp only
    split <;> first
      | exact absurd rfl himport
      | exact htakes _
      | exact hjump _
      | exact ensures_bind.2 (ensures_position.2 (htakes _))
      | exact ensures_ite.2 ⟨fun _ => ensures_bind.2 ensures_fail, fun _ => htakes _⟩
      | exact ensures_pure.2 nofun

omit hg in
/-- a part of a statement that is its end -/
theorem agree_lastPart {r r' : Reader Unit} (hr : x.Agree r r' s s' fun _ _ => True) :
    x.Agree (do r; pure (some .other)) (do r'; pure (some .other)) s s'
      (Option.Rel Statement.Alike) :=
  agree_bind h hr fun _ _ _ _ _ ht _ => agree_pure ht.toAligned (.some .other)

omit hg in
/-- the end of a return statement -/
theorem agree_returning (hb : x.Begun s) {r r' : Option Expr} (hr : Option.Rel Expr.Alike r r')
    (start start' : Nat) :
    x.Agree
      (do semicolon
          if (scope.moved x.shift).inFunction then pure (some (.returning r)) else failAt start)
      (do semicolon
          if scope.inFunction then pure (some (.returning r')) else failAt start') s s'
      (Option.Rel Statement.Alike) :=
  agree_bind h (agree_semicolon h hb) fun _ _ _ _ _ ht _ =>
    agree_ite (fun _ => agree_pure ht.toAligned (.some (.returning hr))) fun _ => agree_failAt

omit hg in
/-- what a keyword is taken off the front of -/
theorem agree_behindKeyword {w : String} (hk : s.tokenAhead = some (.word w))
    {f f' : Unit → Reader (Option Statement)}
    (hf : ∀ {n t t'}, n < m → x.Begun t → x.Mirror n t t' →
      x.Agree (f ()) (f' ()) t t' (Option.Rel Statement.Alike)) :
    x.Agree (advance >>= f) (advance >>= f') s s' (Option.Rel Statement.Alike) := by
  obtain ⟨n, rfl⟩ := h.exists_succ
  exact agree_advance h hk fun t t' hst ht =>
    hf n.lt_succ_self (h.begun hst.advances) (h.less hst.advances ht)

omit h in
theorem agree_lastStatement {n : Nat} (hn : n < m) (h : x.Mirror n s s') (place : Place) :
    x.Agree (do let _ ← g.statement place (scope.moved x.shift); pure (some .other))
      (do let _ ← g'.statement place scope; pure (some .other)) s s'
      (Option.Rel Statement.Alike) :=
  agree_bind h (hg.statement place scope hn h) fun _ _ _ _ _ ht _ =>
    agree_pure ht.toAligned (.some .other)

theorem varStatement_agrees (place : Place) (hk : s.tokenAhead = some (.word "var")) :
    x.Agree (g.keywordStatement "var" place (scope.moved x.shift))
      (g'.keywordStatement "var" place scope) s s' (Option.Rel Statement.Alike) := by
  refine agree_behindKeyword h hk fun hn hb ht => ?_
  have ht := ht.mono hn.le
  refine agree_bind ht (declarators_agrees hg scope ht false (ht.within.mono hg.fuel)) ?_
  exact fun _ _ u u' _ hu htu => agree_lastPart hu (agree_semicolon hu (hb.behind htu))

theorem ifStatement_agrees (place : Place) (hk : s.tokenAhead = some (.word "if")) :
    x.Agree (g.keywordStatement "if" place (scope.moved x.shift))
      (g'.keywordStatement "if" place scope) s s' (Option.Rel Statement.Alike) := by
  refine agree_behindKeyword h hk fun hn _ ht => ?_
  refine agree_bind ht (condition_agrees hg scope (ht.mono hn.le)) fun _ _ u u' _ hu _ => ?_
  refine agree_bind hu (hg.statement .branch scope hn hu) fun _ _ v v' _ hv _ => ?_
  exact agree_ifEat hv (fun w w' _ hw => agree_lastStatement hg scope hn hw .branch) fun _ =>
    agree_pure hv.toAligned (.some .other)

theorem forStatement_agrees (place : Place) (hk : s.tokenAhead = some (.word "for")) :
    x.Agree (g.keywordStatement "for" place (scope.moved x.shift))
      (g'.keywordStatement "for" place scope) s s' (Option.Rel Statement.Alike) := by
  have hloop : ∀ {n t t'}, n < m → x.Mirror n t t' →
      x.Agree
        (do g.loopHead (scope.moved x.shift); g.loopBody (scope.moved x.shift); pure (some .other))
        (do g'.loopHead scope; g'.loopBody scope; pure (some .other)) t t'
        (Option.Rel Statement.Alike) := by
    intro n t t' hn ht
    refine agree_bind ht (loopHead_agrees hg scope (ht.mono hn.le)) fun _ _ u u' _ hu _ => ?_
    exact agree_lastPart (hu.mono hn.le) (loopBody_agrees hg scope hn hu)
  refine agree_behindKeyword h hk fun hn _ ht => agree_ite (fun _ => ?_) fun _ => hloop hn ht
  exact agree_eat ht (fun u u' _ hu => hloop hn hu) fun _ => hloop hn ht

theorem whileStatement_agrees (place : Place) (hk : s.tokenAhead = some (.word "while")) :
    x.Agree (g.keywordStatement "while" place (scope.moved x.shift))
      (g'.keywordStatement "while" place scope) s s' (Option.Rel Statement.Alike) := by
  refine agree_behindKeyword h hk fun hn _ ht => ?_
  refine agree_bind ht (condition_agrees hg scope (ht.mono hn.le)) fun _ _ u u' _ hu _ => ?_
  exact agree_lastPart (hu.mono hn.le) (loopBody_agrees hg scope hn hu)

theorem doStatement_agrees (place : Place) (hk : s.tokenAhead = some (.word "do")) :
    x.Agree (g.keywordStatement "do" place (scope.moved x.shift))
      (g'.keywordStatement "do" place scope) s s' (Option.Rel Statement.Alike) := by
  refine agree_behindKeyword h hk fun hn _ ht => ?_
  refine agree_bind ht (loopBody_agrees hg scope hn ht) fun _ _ u u' _ hu _ => ?_
  refine agree_expect (hu.mono hn.le) fun v v' _ hv => ?_
  refine agree_bind hv (condition_agrees hg scope hv) fun _ _ w w' _ hw _ => ?_
  exact agree_eat hw (fun y y' _ hy => agree_pure hy.toAligned (.some .other)) fun _ =>
    agree_pure hw.toAligned (.some .other)

/-- A value is left out before the same tokens in both readings, or the excerpt ends. -/
theorem returnStatement_agrees (place : Place) (hk : s.tokenAhead = some (.word "return")) :
    x.Agree (g.keywordStatement "return" place (scope.moved x.shift))
      (g'.keywordStatement "return" place scope) s s' (Option.Rel Statement.Alike) := by
  refine agree_offset fun start start' => agree_advance h hk fun t t' hst ht => ?_
  have hb := h.begun hst.advances
  have hbare := agree_returning scope ht hb .none start start'
  have hvalue : x.Agree
      (do let p ← g.expression (scope.moved x.shift)
          semicolon
          if (scope.moved x.shift).inFunction then pure (some (.returning (some p.expr)))
          else failAt start)
      (do let p ← g'.expression scope
          semicolon
          if scope.inFunction then pure (some (.returning (some p.expr))) else failAt start') t t'
      (Option.Rel Statement.Alike) :=
    agree_bind ht (expression_agrees hg scope ht) fun p p' u u' hp hu htu =>
      agree_returning scope hu (hb.behind htu) (.some hp.expr) start start'
  refine agree_peek ht (fun k l l' hi _ => agree_newlineAhead hi hb fun b => ?_) ?_
  · exact agree_ite (fun _ => hbare) fun _ => hvalue
  · -- the excerpt ends, and a value would be read behind it
    intro k hk hend
    have hleft : x.Agree
        (do if ← newlineAhead then
              semicolon
              if (scope.moved x.shift).inFunction then pure (some (.returning none))
              else failAt start
            else
              let p ← g.expression (scope.moved x.shift)
              semicolon
              if (scope.moved x.shift).inFunction then pure (some (.returning (some p.expr)))
              else failAt start)
        (do semicolon
            if scope.inFunction then pure (some (.returning none)) else failAt start') t t'
        (Option.Rel Statement.Alike) := by
      refine agree_newlineAhead_left fun b => ?_
      cases b
      · refine hend.agree (ensures_bind.2 ((expression_reads hg.reads _ t).mono fun p u hp => ?_))
        exact (ensures_advances _ u).mono fun _ v hv => hp.advances.trans hv
      · exact hbare
    rcases hk with rfl | rfl <;> exact hleft

theorem withStatement_agrees (place : Place) (hk : s.tokenAhead = some (.word "with")) :
    x.Agree (g.keywordStatement "with" place (scope.moved x.shift))
      (g'.keywordStatement "with" place scope) s s' (Option.Rel Statement.Alike) := by
  refine agree_ite (fun _ => agree_fail_bind) fun _ => ?_
  refine agree_behindKeyword h hk fun hn _ ht => ?_
  have hcondition := condition_agrees hg scope (ht.mono hn.le)
  exact agree_bind ht hcondition fun _ _ u u' _ hu _ => agree_lastStatement hg scope hn hu .body

theorem switchStatement_agrees (place : Place) (hk : s.tokenAhead = some (.word "switch")) :
    x.Agree (g.keywordStatement "switch" place (scope.moved x.shift))
      (g'.keywordStatement "switch" place scope) s s' (Option.Rel Statement.Alike) := by
  let inner := { scope with breakable := true }
  refine agree_behindKeyword h hk fun hn _ ht => ?_
  have hcondition := condition_agrees hg scope (ht.mono hn.le)
  refine agree_bind ht hcondition fun _ _ u u' _ hu _ => agree_expect hu fun v v' _ hv => ?_
  exact agree_lastPart (hv.mono hn.le)
    (switchCases_agrees hg inner hn hv true (hv.within.mono (hn.le.trans hg.fuel)))

theorem throwStatement_agrees (place : Place) (hk : s.tokenAhead = some (.word "throw")) :
    x.Agree (g.keywordStatement "throw" place (scope.moved x.shift))
      (g'.keywordStatement "throw" place scope) s s' (Option.Rel Statement.Alike) := by
  refine agree_behindKeyword h hk fun hn hb ht => agree_of_inside ht ?_ fun l l' hi => ?_
  · rw [ensures_bind, ensures_newlineAhead, ensures_ite, ensures_bind, ensures_bind]
    exact ⟨fun _ => ensures_fail, fun _ => (expression_reads hg.reads _ _).mono fun p u hp =>
      (ensures_advances _ u).mono fun _ v hv => hp.advances.trans hv⟩
  · have ht := ht.mono hn.le
    refine agree_newlineAhead hi hb fun b => agree_ite (fun _ => agree_fail_bind) fun _ => ?_
    exact agree_bind ht (expression_agrees hg scope ht) fun _ _ u u' _ hu htu =>
      agree_lastPart hu (agree_semicolon hu (hb.behind htu))

theorem tryStatement_agrees (place : Place) (hk : s.tokenAhead = some (.word "try")) :
    x.Agree (g.keywordStatement "try" place (scope.moved x.shift))
      (g'.keywordStatement "try" place scope) s s' (Option.Rel Statement.Alike) := by
  refine agree_behindKeyword h hk fun hn _ ht => ?_
  have ht := ht.mono hn.le
  exact agree_lastPart ht (tryRest_agrees hg scope ht)

omit hg in
theorem debuggerStatement_agrees (place : Place) (hk : s.tokenAhead = some (.word "debugger")) :
    x.Agree (g.keywordStatement "debugger" place (scope.moved x.shift))
      (g'.keywordStatement "debugger" place scope) s s' (Option.Rel Statement.Alike) := by
  refine agree_behindKeyword h hk fun hn hb ht => ?_
  have ht := ht.mono hn.le
  exact agree_lastPart ht (agree_semicolon ht hb)

theorem importStatement_agrees (place : Place) (hk : s.tokenAhead = some (.word "import")) :
    x.Agree (g.keywordStatement "import" place (scope.moved x.shift))
      (g'.keywordStatement "import" place scope) s s' (Option.Rel Statement.Alike) := by
  obtain ⟨l, l', hi⟩ := h.inside hk rfl
  refine agree_peekSecond h hi fun o o' ho _ => ?_
  rw [ho.any (p := fun k _ => k == .leftParen || k == .dot) fun k b hclose => by
    rcases Token.closesItem_iff.1 hclose with rfl | rfl <;> rfl]
  refine agree_ite (fun _ => ?_) fun _ => agree_fail
  refine agree_bind h (expression_agrees hg scope h) fun p p' t t' hp ht _ => ?_
  exact agree_eat ht (fun u u' _ hu => agree_pure hu.toAligned (.some (.expression hp.expr)))
    fun _ => agree_pure ht.toAligned (.some (.expression hp.expr))

theorem functionStatement_agrees (place : Place) (hk : s.tokenAhead = some (.word "function")) :
    x.Agree (g.keywordStatement "function" place (scope.moved x.shift))
      (g'.keywordStatement "function" place scope) s s' (Option.Rel Statement.Alike) := by
  refine agree_ite (fun _ => agree_fail_bind) fun _ => ?_
  refine agree_behindKeyword h hk fun hn _ ht => ?_
  have ht := ht.mono hn.le
  exact agree_lastPart ht (functionBehindKeyword_agrees hg scope ht true false)

theorem classStatement_agrees (place : Place) (hk : s.tokenAhead = some (.word "class")) :
    x.Agree (g.keywordStatement "class" place (scope.moved x.shift))
      (g'.keywordStatement "class" place scope) s s' (Option.Rel Statement.Alike) := by
  refine agree_ite (fun _ => agree_fail_bind) fun _ => ?_
  refine agree_behindKeyword h hk fun hn hb ht => ?_
  have ht := ht.mono hn.le
  exact agree_lastPart ht (classBehindKeyword_agrees hg scope ht hb true)

theorem keywordStatement_agrees (place : Place) {w : String} (hk : s.tokenAhead = some (.word w)) :
    x.Agree (g.keywordStatement w place (scope.moved x.shift)) (g'.keywordStatement w place scope)
      s s' (Option.Rel Statement.Alike) := by
  obtain hw | hnone := mem_statementKeywords_or w
  · simp only [statementKeywords, List.mem_cons, List.not_mem_nil, or_false] at hw
    rcases hw with rfl | rfl | rfl | rfl | rfl | rfl | rfl | rfl | rfl | rfl | rfl | rfl | rfl | rfl |
      rfl | rfl
    · exact varStatement_agrees hg scope h place hk
    · exact ifStatement_agrees hg scope h place hk
    · exact forStatement_agrees hg scope h place hk
    · exact whileStatement_agrees hg scope h place hk
    · exact doStatement_agrees hg scope h place hk
    · exact agree_lastPart h (jump_agrees scope h _ hk)
    · exact agree_lastPart h (jump_agrees scope h _ hk)
    · exact returnStatement_agrees hg scope h place hk
    · exact withStatement_agrees hg scope h place hk
    · exact switchStatement_agrees hg scope h place hk
    · exact throwStatement_agrees hg scope h place hk
    · exact tryStatement_agrees hg scope h place hk
    · exact debuggerStatement_agrees scope h place hk
    · exact importStatement_agrees hg scope h place hk
    · exact functionStatement_agrees hg scope h place hk
    · exact classStatement_agrees hg scope h place hk
  · rw [hnone, hnone]
    exact agree_pure h.toAligned .none

theorem declaration_agrees (place : Place) :
    x.Agree (g.declaration place (scope.moved x.shift)) (g'.declaration place scope) s s' Eq := by
  refine agree_ifDeclarationAhead h (fun w hw => ?_) ?_
  · refine agree_ite (fun _ => agree_fail_bind) fun _ => ?_
    refine agree_advance h hw fun t t' hst ht => ?_
    have hb := h.begun hst.advances
    refine agree_bind ht (declarators_agrees hg scope ht false (ht.within.mono hg.fuel)) ?_
    intro _ _ u u' _ hu htu
    exact agree_bind hu (agree_semicolon hu (hb.behind htu)) fun _ _ v v' _ hv _ =>
      agree_pure hv.toAligned rfl
  · refine agree_isAhead h rfl fun c hc => ?_
    have hdone : x.Agree (pure false) (pure false) s s' Eq := agree_pure h.toAligned rfl
    rcases h.cases with ⟨l, l', hi⟩ | hend
    · refine agree_peekSecond h hi fun o o' ho hsecond => ?_
      rw [← ho.any (p := fun k b => k == .word "function" && !b) fun k b hk => by
        rcases Token.closesItem_iff.1 hk with rfl | rfl <;> rfl]
      refine agree_ite (fun hb => ?_) fun _ => hdone
      obtain ⟨hasync, hfunction⟩ := Bool.and_eq_true_iff.1 hb
      obtain ⟨l, rfl, hl⟩ := (Option.any_eq_true _ _).1 hfunction
      refine agree_ite (fun _ => agree_fail_bind) fun _ => ?_
      refine agree_advance h (hc.1 hasync) fun t t' hst ht => ?_
      have hk : t.tokenAhead = some (.word "function") := by
        rw [tokenAhead, hst.ahead_eq, hsecond, Option.map_some,
          eq_of_beq (Bool.and_eq_true_iff.1 hl).1]
      refine agree_advance ht hk fun u u' _ hu => ?_
      refine agree_bind hu (functionBehindKeyword_agrees hg scope hu true true) ?_
      exact fun _ _ v v' _ hv _ => agree_pure hv.toAligned rfl
    · obtain ⟨k, hk, hclose, -⟩ := hend.tokenAhead
      cases c with
      | false => exact hdone
      | true =>
        rw [Option.some.inj (hk.symm.trans (hc.1 rfl))] at hclose
        cases hclose

omit hg h in
theorem declaration_advances (place : Place) (s : ReaderState) :
    (g.declaration place scope).Ensures s fun b t => b = true → s.Advances 1 t := by
  have htakes : ∀ {k : Token} {f : Unit → Reader Bool}, s.tokenAhead = some k →
      (advance >>= f).Ensures s fun b t => b = true → s.Advances 1 t :=
    fun hk => (takes_advances hk _).mono fun _ _ ht _ => ht
  rw [declaration, declarationAhead_eq, ensures_bind, ensures_observe, ensures_ite]
  refine ⟨fun hd => ?_, fun _ => ?_⟩
  · obtain ⟨w, hw⟩ := exists_word_of_opensDeclaration hd
    exact ensures_ite.2 ⟨fun _ => ensures_bind.2 ensures_fail, fun _ => htakes hw⟩
  · rw [ensures_bind, ensures_isAhead, ensures_bind, ensures_peekSecond, ensures_ite]
    refine ⟨fun hb => ?_, fun _ => ensures_pure.2 nofun⟩
    exact ensures_ite.2 ⟨fun _ => ensures_bind.2 ensures_fail,
      fun _ => htakes (eq_of_beq (Bool.and_eq_true_iff.1 hb).1)⟩

omit hg h in
theorem anyStatement_advances (hg : g.ReadsPhrases) (place : Place) (s : ReaderState) :
    (g.anyStatement place scope).Ensures s fun _ t => s.Advances 1 t := by
  simp only [anyStatement, ensures_bind, ensures_peek]
  split
  · rw [ensures_bind, block, ensures_bind, ensures_expect]
    exact fun u hu => (ensures_advances _ u).mono fun _ t ht => ensures_pure.2 (hu.advances.trans ht)
  · exact takes_advances ‹_› _
  · rename_i w hw
    rw [ensures_bind]
    refine ((keywordStatement_advances _ hg place hw).and (ensures_advances _ s)).mono ?_
    rintro (_ | a) t ⟨hst, hzero⟩
    · rw [ensures_bind]
      refine ((declaration_advances _ place t).and (ensures_advances _ t)).mono ?_
      rintro b u ⟨hu, hzero'⟩
      refine ensures_ite.2 ⟨fun hb => ensures_pure.2 (hzero.trans (hu hb)), fun _ => ?_⟩
      exact (expressionStatement_advances _ hg place u).mono fun _ v hv => (hzero.trans hzero').trans hv
    · exact ensures_pure.2 (hst a rfl)
  · exact expressionStatement_advances _ hg place s

theorem anyStatement_agrees (place : Place) :
    x.Agree (g.anyStatement place (scope.moved x.shift)) (g'.anyStatement place scope) s s'
      Statement.Alike := by
  let inner := scope.enclosed
  have hexpression := expressionStatement_agrees hg inner h place
  refine agree_peek h (fun k l l' hi hk => ?_) ?_
  · split
    · exact agree_bind h (block_agrees hg inner h) fun _ _ t t' _ ht _ =>
        agree_pure ht.toAligned .other
    · exact agree_advance h hk fun t t' _ ht => agree_pure ht.toAligned .other
    · refine agree_bind h (keywordStatement_agrees hg inner h place (hk.trans ‹_›)) ?_
      intro r r' t t' hr ht _
      cases hr with
      | some ha => exact agree_pure ht.toAligned ha
      | none =>
        refine agree_bind ht (declaration_agrees hg inner ht place) ?_
        rintro b _ u u' rfl hu _
        exact agree_ite (fun _ => agree_pure hu.toAligned .other) fun _ =>
          expressionStatement_agrees hg inner hu place
    · exact hexpression
  · rintro _ (rfl | rfl) _ <;> exact hexpression

end PageQuery.Script.Grammar

namespace PageQuery.Script.Excerpt

open Grammar Reader

theorem statement_advances (n : Nat) (place : Place) (scope : Scope) (s : ReaderState) :
    ((grammar n).statement place scope).Ensures s fun _ t => s.Advances 1 t := by
  cases n with
  | zero => exact ensures_fail
  | succ n => exact anyStatement_advances scope (grammar_readsPhrases n) place s

/-- **The rules agree.**  They do wherever the excerpt has fewer tokens left than the grammar that
reads it by itself has levels. -/
theorem grammar_agrees (x : Excerpt) (n k m : Nat) (hm : m ≤ k) :
    x.Agrees m (grammar n) (grammar k) := by
  induction m generalizing n k with
  | zero =>
    have hnone : ∀ {s s' : ReaderState}, ¬ x.Mirror 0 s s' := fun h => h.not_within_zero h.within
    exact {
      reads := grammar_readsPhrases n
      fuel := Nat.zero_le _
      assignment := fun _ _ _ h => (hnone h).elim
      unary := fun _ _ _ h => (hnone h).elim
      member := fun _ _ _ _ h => (hnone h).elim
      pattern := fun _ _ _ h => (hnone h).elim
      advances := statement_advances n
      statement := fun _ _ _ _ hlt => (Nat.not_lt_zero _ hlt).elim }
  | succ m ih =>
    obtain ⟨k, rfl⟩ : ∃ j, k = j + 1 := ⟨k - 1, by omega⟩
    rcases n with _ | n
    · exact {
        reads := grammar_readsPhrases 0
        fuel := hm
        assignment := fun _ _ _ _ => agree_fail
        unary := fun _ _ _ _ => agree_fail
        member := fun _ _ _ _ _ => agree_fail
        pattern := fun _ _ _ _ => agree_fail
        advances := statement_advances 0
        statement := fun _ _ _ _ _ _ => agree_fail }
    · have hg := ih n k (Nat.le_of_succ_le_succ hm)
      exact {
        reads := grammar_readsPhrases (n + 1)
        fuel := hm
        assignment := fun scope _ _ h => assignmentExpression_agrees hg scope h
        unary := fun scope _ _ h => unaryExpression_agrees hg scope h
        member := fun calls scope _ _ h => memberExpression_agrees hg scope h calls
        pattern := fun scope _ _ h => bindingPattern_agrees hg scope h
        advances := statement_advances (n + 1)
        statement := fun place scope _ _ hlt h =>
          anyStatement_agrees hg scope (h.mono (Nat.le_of_lt_succ hlt)) place }

end PageQuery.Script.Excerpt
