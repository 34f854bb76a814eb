import PageQuery.Proofs.Running
import PageQuery.Proofs.Walk
import PageQuery.Proofs.Words

/-!
# Where expressions are read

`Phrase.ReadFrom p scope s t`: the rule that gave the phrase `p` read it from the state `s` to the
state `t`, so its extent is that of the text between them, and a phrase that is one free name is the
variable of this name.  Every rule of the grammar reads what it gives (`grammar_readsPhrases`);
there is one lemma for each rule, and the induction on the levels is made once.

`readSource_holdsArguments`: each argument of the calls of a query was read over its extent from
right behind an opening parenthesis, a comma or an ellipsis, up to a comma or a closing parenthesis.
-/

namespace PageQuery.Script

open Chain (links objectLinks)

/-- the token is a word with no meaning of its own in a script: it can be nothing but a name -/
def Token.isFree : Token → Bool
  | .word w => !isKeyword w && !reservedNames.contains w && w != "async"
  | _ => false

/-- an item of a list ends before the token -/
def Token.closesItem : Token → Bool
  | .rightParen => true
  | .comma => true
  | _ => false

theorem Token.closesItem_iff {k : Token} : k.closesItem = true ↔ k = .rightParen ∨ k = .comma := by
  cases k <;> simp [closesItem]

namespace ReaderState

/-- the last token read is one behind which an item begins -/
def Opened (s : ReaderState) : Prop := ∃ l ∈ s.taken.head?, l.token.opensItem = true

/-- the token ahead is one that an item ends before -/
def EndsItem (s : ReaderState) : Prop := ∃ k ∈ s.tokenAhead, k.closesItem = true

theorem Takes.opened {s t : ReaderState} {k : Token} (h : s.Takes k t) (hk : k.opensItem = true) :
    t.Opened := by
  obtain ⟨l, -, rfl, -, rfl⟩ := h
  exact ⟨l, rfl, hk⟩

theorem Takes.endsItem {s t : ReaderState} {k : Token} (h : s.Takes k t)
    (hk : k.closesItem = true) : s.EndsItem := ⟨k, h.tokenAhead_eq, hk⟩

/-- an expression that is read from one state to the other, and its extent.  If it is one word that
can be nothing but a name, the expression is that variable. -/
structure IsRead (s t : ReaderState) (x : Extent) (e : Expr) : Prop where
  advances : s.Advances 1 t
  extent : x = ⟨s.position, t.stop⟩
  names : ∀ w, s.tokenAhead = some (.word w) → (Token.word w).isFree = true →
    ¬ s.Advances 2 t → e.IsVariable w

/-- The expression makes up an item between two states.  It was read from the one to the other, or it
is made of several expressions, the first one of which was read up to a comma. -/
structure IsItem (scope : Scope) (s t : ReaderState) (e : Expr) : Prop where
  ends : t.EndsItem
  read : ∃ n p u, ((grammar n).assignment scope).run s = .ok (p, u) ∧
    (u = t ∧ p.unsettled = none ∧ p.expr.unparen = e.unparen ∨
      u.tokenAhead = some .comma ∧ u.Advances 1 t ∧ ∃ es, e.unparen = .other es)

/-- between the states the expression is read over the extent, right behind an opening token -/
def Holds (scope : Scope) (s t : ReaderState) (x : Extent) (e : Expr) : Prop :=
  ∃ u v, s.Advances 0 u ∧ v.Advances 0 t ∧ u.Opened ∧ u.IsRead v x e ∧ u.IsItem scope v e

/-- between the states the arguments of the calls on the way inwards are read -/
def HoldsArguments (scope : Scope) (s t : ReaderState) (e : Expr) : Prop :=
  ∀ l ∈ links e ++ objectLinks e, ∀ a ∈ l.args, s.Holds scope t a.extent a.value

/-- what holds of a phrase that is read from one state to the other -/
structure Spans (scope : Scope) (s t : ReaderState) (extent core : Extent) (e : Expr) : Prop where
  read : s.IsRead t extent e
  core : core = extent ∨ s.Holds scope t core e
  arguments : s.HoldsArguments scope t e

section

variable {scope : Scope} {s t u v : ReaderState} {x core : Extent} {e : Expr} {k : Token}
  {first m n : Nat}

theorem Holds.mono (h : u.Holds scope v x e) (hsu : s.Advances m u) (hvt : v.Advances n t) :
    s.Holds scope t x e := by
  obtain ⟨a, b, ha, hb, ho, hr⟩ := h
  exact ⟨a, b, (hsu.trans ha).mono (Nat.zero_le _), (hb.trans hvt).mono (Nat.zero_le _), ho, hr⟩

theorem HoldsArguments.mono (h : u.HoldsArguments scope v e) (hsu : s.Advances m u)
    (hvt : v.Advances n t) : s.HoldsArguments scope t e :=
  fun l hl a ha => (h l hl a ha).mono hsu hvt

theorem holdsArguments_of_nil (h : links e = []) (h' : objectLinks e = []) :
    s.HoldsArguments scope t e := by
  simp [HoldsArguments, h, h']

theorem holdsArguments_paren :
    s.HoldsArguments scope t (.paren e) ↔ s.HoldsArguments scope t e := Iff.rfl

theorem holdsArguments_call {callee : Option Expr} {args : List (Argument Expr)}
    (hcallee : ∀ c ∈ callee, s.HoldsArguments scope t c)
    (hargs : ∀ a ∈ args, s.Holds scope t a.extent a.value) :
    s.HoldsArguments scope t (.call first callee args) := by
  intro l hl
  have hl : l ∈ links (.call first callee args) := by simpa [objectLinks] using hl
  cases callee with
  | none =>
    rw [List.mem_singleton.1 hl]
    exact hargs
  | some c =>
    rcases List.mem_cons.1 hl with rfl | hl
    · exact hargs
    · exact hcallee c rfl l (List.mem_append_right _ hl)

theorem holdsArguments_field {w : String} (h : s.HoldsArguments scope t e) :
    s.HoldsArguments scope t (.field e w) :=
  fun l hl => h l (List.mem_append_left _ hl)

theorem holdsArguments_index {k : Expr} (h : s.HoldsArguments scope t e) :
    s.HoldsArguments scope t (.index e k) := by
  intro l hl
  have hl : l ∈ if k.stringValue?.isSome then links e else [] := hl
  split at hl
  · exact h l (List.mem_append_left _ hl)
  · cases hl

theorem IsItem.paren (h : s.IsItem scope t e) : s.IsItem scope t (.paren e) := ⟨h.ends, h.read⟩

theorem Holds.paren (h : s.Holds scope t x e) : s.Holds scope t x (.paren e) := by
  obtain ⟨u, v, hu, hv, ho, ⟨hadv, hx, hnames⟩, hitem⟩ := h
  exact ⟨u, v, hu, hv, ho, ⟨hadv, hx, fun w hw hf hno => .paren (hnames w hw hf hno)⟩, hitem.paren⟩

theorem Spans.holds (h : s.Spans scope t x core e) (ho : s.Opened) (hitem : s.IsItem scope t e) :
    s.Holds scope t core e := by
  rcases h.core with hc | hc
  · exact ⟨s, t, .refl s, .refl t, ho, hc ▸ h.read, hitem⟩
  · exact hc

theorem Spans.start (h : s.Spans scope t x core e) : x.start = s.position := by rw [h.read.extent]

theorem Spans.advances (h : s.Spans scope t x core e) : s.Advances 1 t := h.read.advances

/-- a phrase of two tokens or more -/
theorem spans_of_long (hfirst : first = s.position) (h : s.Advances 2 t)
    (hargs : s.HoldsArguments scope t e) :
    s.Spans scope t ⟨first, t.stop⟩ ⟨first, t.stop⟩ e where
  read := ⟨h.mono (Nat.le_succ 1), by rw [hfirst], fun _ _ _ hno => absurd h hno⟩
  core := .inl rfl
  arguments := hargs

/-- a phrase that begins with a token that is no free name -/
theorem spans_of_bound (hk : s.tokenAhead = some k) (hfree : k.isFree = false)
    (h : s.Advances 1 t) (hargs : s.HoldsArguments scope t e) :
    s.Spans scope t ⟨s.position, t.stop⟩ ⟨s.position, t.stop⟩ e where
  read := ⟨h, rfl, fun w hw hf => by
    obtain rfl : k = .word w := Option.some.inj (hk.symm.trans hw)
    rw [hf] at hfree
    cases hfree⟩
  core := .inl rfl
  arguments := hargs

theorem spans_of_takes (hu : s.Takes k u) (hfree : k.isFree = false) (ht : u.Advances n t)
    (hargs : s.HoldsArguments scope t e) :
    s.Spans scope t ⟨s.position, t.stop⟩ ⟨s.position, t.stop⟩ e :=
  spans_of_bound hu.tokenAhead_eq hfree ((hu.advances.trans ht).mono (Nat.le_add_right _ _)) hargs

end

end ReaderState

/-- the phrase was read from one state to the other -/
abbrev Phrase.ReadFrom (p : Phrase) (scope : Scope) (s t : ReaderState) : Prop :=
  s.Spans scope t p.extent p.core p.expr

namespace Grammar

open Reader ReaderState

@[simp] theorem ensures_phraseFrom {start : Nat} {e : Expr} {role : Role} {s : ReaderState}
    {Q : Phrase → ReaderState → Prop} :
    (phraseFrom start e role).Ensures s Q ↔
      Q { expr := e, extent := ⟨start, s.stop⟩, role := role } s := by
  simp [phraseFrom]

@[simp] theorem ensures_settle {p : Phrase} {s : ReaderState} {Q : Phrase → ReaderState → Prop} :
    p.settle.Ensures s Q ↔ (p.unsettled = none → Q p s) := by
  unfold Phrase.settle
  cases p.unsettled <;> simp

theorem ensures_variableName {scope : Scope} {s : ReaderState} {Q : String → ReaderState → Prop} :
    (variableName scope).Ensures s Q ↔
      ∀ w t, scope.canName w = true → s.Takes (.word w) t → Q w t := by
  rw [variableName, ensures_bind, ensures_peek]
  split
  · rename_i w hw
    rw [ensures_ite]
    constructor
    · rintro ⟨h, -⟩ w' t hcan ht
      obtain rfl : w = w' := by simpa using hw.symm.trans ht.tokenAhead_eq
      have hadvance := h hcan
      simp only [ensures_bind, ensures_advance hw, ensures_pure] at hadvance
      exact hadvance t ht
    · refine fun h => ⟨fun hcan => ?_, fun _ => ensures_fail⟩
      simp only [ensures_bind, ensures_advance hw, ensures_pure]
      exact fun t ht => h w t hcan ht
  · rename_i hne
    simp only [ensures_fail, true_iff]
    exact fun w t _ ht => absurd ht.tokenAhead_eq (hne w)

theorem ensures_arrowAhead {s : ReaderState} {Q : Bool → ReaderState → Prop} :
    arrowAhead.Ensures s Q ↔ Q (s.tokenAhead == some .arrow && !s.ahead.any (·.newline)) s := by
  simp only [arrowAhead, ensures_bind, ensures_isAhead, ensures_ite, ensures_newlineAhead,
    ensures_pure]
  cases s.tokenAhead == some .arrow <;> simp

theorem ensures_mapM_loop {α β : Type} {f : α → Reader β} {h : α → β} {P : α → Prop}
    {s : ReaderState} {as : List α}
    (hf : ∀ a ∈ as, (f a).Ensures s fun b t => b = h a ∧ t = s ∧ P a) (acc : List β) :
    (List.mapM.loop f as acc).Ensures s fun bs t =>
      bs = acc.reverse ++ as.map h ∧ t = s ∧ ∀ a ∈ as, P a := by
  induction as generalizing acc with
  | nil => simp [List.mapM.loop]
  | cons a as ih =>
    rw [List.mapM.loop, ensures_bind]
    refine (hf a List.mem_cons_self).mono ?_
    rintro _ _ ⟨rfl, rfl, ha⟩
    refine (ih (fun b hb => hf b (List.mem_cons_of_mem _ hb)) (h a :: acc)).mono ?_
    rintro bs t ⟨rfl, rfl, has⟩
    exact ⟨by simp, rfl, List.forall_mem_cons.2 ⟨ha, has⟩⟩

/-! ### Lists -/

/-- items that are read one by one, each right behind an opening token up to a closing one -/
inductive Items {α : Type} (R : ReaderState → α → ReaderState → Prop) :
    ReaderState → List α → ReaderState → Prop
  | nil {s t : ReaderState} : s.Advances 0 t → Items R s [] t
  | cons {s t u v : ReaderState} {a : α} {as : List α} {k : Token} : s.Opened → R s a u →
    s.Advances 0 u → u.Takes k v → k.closesItem = true → Items R v as t → Items R s (a :: as) t

theorem Items.advances {α : Type} {R : ReaderState → α → ReaderState → Prop} {s t : ReaderState}
    {as : List α} (h : Items R s as t) : s.Advances 0 t := by
  induction h with
  | nil h => exact h
  | cons _ _ hsu huv _ _ ih => exact ((hsu.trans huv.advances).trans ih).mono (Nat.zero_le _)

theorem Items.of_mem {α : Type} {R : ReaderState → α → ReaderState → Prop} {s t : ReaderState}
    {as : List α} (h : Items R s as t) :
    ∀ a ∈ as, ∃ u v, s.Advances 0 u ∧ v.Advances 0 t ∧ u.Opened ∧ R u a v := by
  induction h with
  | nil _ => simp
  | @cons s t u v a as k ho hR hsu huv _ h ih =>
    refine List.forall_mem_cons.2 ⟨⟨s, u, .refl s, ?_, ho, hR⟩, fun b hb => ?_⟩
    · exact (huv.advances.trans h.advances).mono (Nat.zero_le _)
    · obtain ⟨u', v', hu', hv', ho', hR'⟩ := ih b hb
      exact ⟨u', v', ((hsu.trans huv.advances).trans hu').mono (Nat.zero_le _), hv', ho', hR'⟩

theorem Items.opened {α : Type} {R : ReaderState → α → ReaderState → Prop} {s t : ReaderState}
    {as : List α} {a : α} (h : Items R s as t) (ha : a ∈ as) : s.Opened := by
  cases h with
  | nil _ => cases ha
  | cons ho _ _ _ _ _ => exact ho

theorem listUpTo_reads {α : Type} {item : Reader α} {R : ReaderState → α → ReaderState → Prop}
    (hitem : ∀ s, s.Opened → item.Ensures s fun a t => t.EndsItem → R s a t) (n : Nat)
    {s : ReaderState} (ho : s.Opened) :
    (listUpTo .rightParen item n).Ensures s fun r t => Items R s r.1 t := by
  induction n generalizing s with
  | zero => simp [listUpTo]
  | succ n ih =>
    simp only [listUpTo, ensures_bind, ensures_eat, if_true, Bool.false_eq_true, if_false,
      ensures_pure, ensures_expect]
    refine ⟨fun u hu => .nil (hu.advances.mono (Nat.zero_le _)), fun _ => ?_⟩
    refine ((hitem s ho).and (ensures_advances item s)).mono ?_
    rintro a u ⟨ha, hsu⟩
    constructor
    · intro v hv
      refine (ih (hv.opened rfl)).mono ?_
      rintro ⟨as, trailing⟩ t has
      exact Items.cons ho (ha (hv.endsItem rfl)) hsu hv rfl has
    · intro _ v hv
      exact Items.cons ho (ha (hv.endsItem rfl)) hsu hv rfl (.nil (.refl v))

/-! ### Names and arrow functions -/

section

variable {g : Grammar} (scope : Scope) (s : ReaderState)

/-- the rest of an arrow function that begins where the state `s` stands -/
theorem arrowFunction_reads {u : ReaderState} (hsu : s.Advances 1 u) (isAsync : Bool)
    (parameters : List (Option String)) :
    (g.arrowFunction s.position isAsync parameters scope).Ensures u fun p t =>
      p.ReadFrom scope.enclosed s t := by
  have hspans : ∀ {v t : ReaderState} {result : Option Expr}, u.Takes .arrow v → v.Advances 0 t →
      s.Spans scope.enclosed t ⟨s.position, t.stop⟩ ⟨s.position, t.stop⟩
        (.arrow isAsync parameters result) :=
    fun hv ht => spans_of_long rfl (((hsu.trans hv.advances).trans ht).mono le_rfl)
      (holdsArguments_of_nil rfl rfl)
  simp only [arrowFunction, ensures_bind, ensures_expect, ensures_isAhead, ensures_ite,
    ensures_phraseFrom, ensures_pure]
  refine fun v hv => ⟨fun _ => ?_, fun _ => ?_⟩
  · exact (ensures_advances _ v).mono fun body t ht => hspans hv ht
  · exact (ensures_advances _ v).mono fun p t ht => hspans hv ht

theorem arrowOf_reads {u : ReaderState} (hsu : s.Advances 1 u) (isAsync : Bool)
    (items : List (Bool × Phrase)) (trailing : Bool) :
    (g.arrowOf s.position isAsync items trailing scope).Ensures u fun p t =>
      p.ReadFrom scope.enclosed s t := by
  simp only [arrowOf, ensures_bind, ensures_ite, ensures_pure, ensures_failAt, implies_true,
    and_true]
  exact (arrowFunction_reads scope s hsu isAsync _).mono fun p t hp _ => hp

theorem nameOrArrow_reads :
    (g.nameOrArrow s.position false scope).Ensures s fun p t => p.ReadFrom scope.enclosed s t := by
  simp only [nameOrArrow, ensures_bind, ensures_variableName, ensures_arrowAhead, ensures_ite,
    ensures_phraseFrom, ensures_pure]
  intro w t _ ht
  refine ⟨fun _ => arrowFunction_reads scope s ht.advances false _, fun _ => ⟨by simp, fun _ => ?_⟩⟩
  exact {
    read := ⟨ht.advances, rfl, fun w' hw' _ _ => by
      obtain rfl : w = w' := by simpa using ht.tokenAhead_eq.symm.trans hw'
      exact .identifier w⟩
    core := .inl rfl
    arguments := holdsArguments_of_nil rfl rfl }

/-- an asynchronous arrow function of one name that begins where the state `s` stands -/
theorem asyncArrow_reads {u : ReaderState} (hsu : s.Advances 1 u) :
    (g.nameOrArrow s.position true scope).Ensures u fun p t => p.ReadFrom scope.enclosed s t := by
  simp only [nameOrArrow, ensures_bind, ensures_variableName, ensures_arrowAhead, ensures_ite,
    ensures_phraseFrom, ensures_pure]
  intro w t _ ht
  refine ⟨fun _ => ?_, fun _ => ⟨fun _ => ensures_fail, fun h => absurd trivial h⟩⟩
  exact arrowFunction_reads scope s ((hsu.trans ht.advances).mono (Nat.le_succ 1)) true _

end

/-! ### Expressions with commas -/

/-- the rules that a grammar of some level has for expressions read what they give -/
structure ReadsPhrases (g : Grammar) : Prop where
  level : ∃ n, g = grammar n
  assignment : ∀ scope s, (g.assignment scope).Ensures s fun p t => p.ReadFrom scope.enclosed s t
  unary : ∀ scope s, (g.unary scope).Ensures s fun p t => p.ReadFrom scope.enclosed s t

theorem sequenceTail_advances {g : Grammar} {scope : Scope} {s : ReaderState}
    (h : s.tokenAhead = some .comma) (n : Nat) :
    (g.sequenceTail scope n).Ensures s fun _ t => s.Advances 1 t := by
  cases n with
  | zero => simp [sequenceTail]
  | succ n =>
    rw [sequenceTail, ensures_bind, ensures_eat]
    refine ⟨fun u hu => ?_, fun hno => absurd h hno⟩
    exact (ensures_advances _ u).mono fun _ t ht => hu.advances.trans ht

section

variable {g : Grammar} (hg : g.ReadsPhrases) (scope : Scope) (s : ReaderState)

include hg

theorem openExpression_reads :
    (g.openExpression scope).Ensures s fun p t => p.ReadFrom scope.enclosed s t := by
  simp only [openExpression, ensures_bind, ensures_isAhead, ensures_ite, ensures_settle,
    ensures_phraseFrom, ensures_pure]
  refine (hg.assignment scope s).mono fun p t hp => ⟨fun hcomma _ => ?_, fun _ => hp⟩
  refine (sequenceTail_advances (eq_of_beq hcomma) g.fuel).mono fun ps u hu => ?_
  exact spans_of_long hp.start (hp.advances.trans hu) (holdsArguments_of_nil rfl rfl)

theorem expression_reads : (g.expression scope).Ensures s fun p t => p.ReadFrom scope.enclosed s t := by
  simp only [expression, ensures_bind, ensures_settle]
  exact (openExpression_reads hg scope s).mono fun p t hp _ => hp

end

/-! ### Arguments and parentheses -/

/-- what is known of an expression that is read up to the end of an item -/
structure ReadsItem (scope : Scope) (p : Phrase) (s t : ReaderState) : Prop where
  phrase : p.ReadFrom scope s t
  run : ∃ n, ((grammar n).assignment scope).run s = .ok (p, t)
  ends : t.EndsItem

theorem ReadsItem.holds {scope : Scope} {p : Phrase} {s t : ReaderState} (h : ReadsItem scope p s t)
    (ho : s.Opened) (hp : p.unsettled = none) : s.Holds scope t p.core p.expr := by
  obtain ⟨n, hrun⟩ := h.run
  exact h.phrase.holds ho ⟨h.ends, n, p, t, hrun, .inl ⟨rfl, hp, rfl⟩⟩

/-- what is known of an item in parentheses -/
def ItemRead (scope : Scope) (s : ReaderState) (i : Bool × Phrase) (t : ReaderState) : Prop :=
  ∃ u, s.Advances 0 u ∧ u.Opened ∧ ReadsItem scope i.2 u t

theorem ItemRead.holds {scope : Scope} {s t : ReaderState} {i : Bool × Phrase}
    (h : ItemRead scope s i t) (hi : i.2.unsettled = none) :
    s.Holds scope t i.2.core i.2.expr := by
  obtain ⟨u, hu, ho, hread⟩ := h
  exact (hread.holds ho hi).mono hu (.refl t)

/-- several expressions in parentheses are read from the first one to the last one -/
theorem holds_sequence {scope : Scope} {s t : ReaderState} {i j : Bool × Phrase}
    {is : List (Bool × Phrase)} {es : List Expr} (h : Items (ItemRead scope) s (i :: is) t)
    (hj : j ∈ is) :
    s.Holds scope t ⟨i.2.extent.start, j.2.extent.stop⟩ (.paren (.other es)) := by
  cases h with
  | @cons _ _ b c _ _ k _ hi _ hbc hclose his =>
    have hk : k = .comma := by
      have hopens : k.opensItem = true := by
        obtain ⟨l, -, rfl, -, rfl⟩ := hbc
        obtain ⟨l', hl', hopens⟩ := his.opened hj
        cases hl'
        exact hopens
      rcases Token.closesItem_iff.1 hclose with rfl | rfl
      · cases hopens
      · rfl
    obtain ⟨a, hsa, ho, hi⟩ := hi
    obtain ⟨a', b', hca', hb't, -, a'', ha', -, hj⟩ := his.of_mem j hj
    have hbb' : b.Advances 1 b' :=
      (((hbc.advances.trans hca').trans ha').trans hj.phrase.advances).mono (by omega)
    have hlong : a.Advances 2 b' := hi.phrase.advances.trans hbb'
    have hspans : a.Spans scope b' ⟨a.position, b'.stop⟩ _ (.paren (.other es)) :=
      spans_of_long rfl hlong (holdsArguments_of_nil rfl rfl)
    obtain ⟨n, hrun⟩ := hi.run
    refine ⟨a, b', hsa, hb't, ho, ?_, hj.ends, n, _, b, hrun, .inr ⟨?_, hbb', es, rfl⟩⟩
    · rw [hi.phrase.start, hj.phrase.read.extent]
      exact hspans.read
    · rw [hbc.tokenAhead_eq, hk]

section

variable {g : Grammar} (hg : g.ReadsPhrases) (scope : Scope) (s : ReaderState)

include hg

theorem readsItem : (g.assignment scope.enclosed).Ensures s fun p t =>
    t.EndsItem → ReadsItem scope.enclosed p s t := by
  obtain ⟨n, rfl⟩ := hg.level
  exact fun p t hrun hends => ⟨hg.assignment scope.enclosed s p t hrun, ⟨n, hrun⟩, hends⟩

theorem callArgument_reads (ho : s.Opened) :
    (g.callArgument scope).Ensures s fun a t =>
      t.EndsItem → s.Holds scope.enclosed t a.extent a.value := by
  simp only [callArgument, value, ensures_bind, ensures_eat, ensures_settle, ensures_pure,
    Phrase.argument]
  refine ⟨fun u hu => ?_, fun _ => ?_⟩
  · exact (readsItem hg scope u).mono fun p t hp hsettled hends =>
      ((hp hends).holds (hu.opened rfl) hsettled).mono hu.advances (.refl t)
  · exact (readsItem hg scope s).mono fun p t hp hsettled hends => (hp hends).holds ho hsettled

theorem callArguments_reads {s : ReaderState} (ho : s.Opened) :
    (g.callArguments scope).Ensures s fun as t =>
      ∀ a ∈ as, s.Holds scope.enclosed t a.extent a.value := by
  simp only [callArguments, ensures_bind, ensures_pure]
  refine (listUpTo_reads (fun u hu => callArgument_reads hg scope u hu) g.fuel ho).mono ?_
  intro r t h a ha
  obtain ⟨u, v, hu, hv, -, hR⟩ := h.of_mem a ha
  exact hR.mono hu hv

theorem items_reads {s : ReaderState} (ho : s.Opened) :
    (listUpTo .rightParen (g.parenthesizedItem scope) g.fuel).Ensures s fun r t =>
      Items (ItemRead scope.enclosed) s r.1 t := by
  refine listUpTo_reads (fun s ho => ?_) g.fuel ho
  simp only [parenthesizedItem, ensures_bind, ensures_eat, ensures_pure]
  refine ⟨fun u hu => ?_, fun _ => ?_⟩
  · exact (readsItem hg scope u).mono fun p t hp hends =>
      ⟨u, hu.advances.mono (Nat.zero_le _), hu.opened rfl, hp hends⟩
  · exact (readsItem hg scope s).mono fun p t hp hends => ⟨s, .refl s, ho, hp hends⟩

theorem parenthesized_reads :
    (g.parenthesized s.position scope).Ensures s fun p t => p.ReadFrom scope.enclosed s t := by
  simp only [parenthesized, ensures_bind, ensures_expect]
  intro u hu
  refine (items_reads hg scope (hu.opened rfl)).mono ?_
  rintro ⟨items, trailing⟩ t hitems
  have hst : s.Advances 1 t := hu.advances.trans hitems.advances
  simp only [ensures_bind, ensures_arrowAhead, ensures_ite, ensures_failAt, implies_true, true_and]
  refine ⟨fun _ => arrowOf_reads scope s hst false items trailing, fun _ _ => ?_⟩
  refine (ensures_mapM_loop (h := (·.2)) (P := (·.2.unsettled = none)) (fun i _ => by simp) []).mono ?_
  rintro _ _ ⟨rfl, rfl, hsettled⟩
  rcases items with _ | ⟨i, _ | ⟨j, is⟩⟩
  · exact ensures_failAt
  · -- one expression, whose core is that of the phrase
    obtain ⟨a, b, hua, hbt, -, hi⟩ := hitems.of_mem i List.mem_cons_self
    have hholds := hi.holds (hsettled i List.mem_cons_self)
    obtain ⟨a', ha', -, hi⟩ := hi
    have hsa := hu.advances.trans hua
    have harguments := hi.phrase.arguments.mono (hsa.trans ha') hbt
    simp only [List.reverse_nil, List.nil_append, List.map_cons, List.map_nil, ensures_bind,
      ensures_phraseFrom, ensures_pure]
    exact {
      read := (spans_of_bound hu.tokenAhead_eq rfl hst (holdsArguments_paren.2 harguments)).read
      core := .inr (hholds.paren.mono hsa hbt)
      arguments := harguments }
  · -- several expressions, whose core goes from the first one to the last one
    obtain ⟨k, hk, hlast⟩ : ∃ k ∈ j :: is, k.2 = ((j :: is).map (·.2)).getLast?.getD i.2 := by
      refine ⟨(j :: is).getLast (by simp), List.getLast_mem _, ?_⟩
      rw [List.getLast?_map, List.getLast?_eq_getLast_of_ne_nil (by simp)]
      rfl
    simp only [List.reverse_nil, List.nil_append, List.map_cons, ensures_bind, ensures_phraseFrom,
      ensures_pure]
    have hargs : ∀ es v, s.HoldsArguments scope.enclosed v (.paren (.other es)) :=
      fun _ _ => holdsArguments_of_nil rfl rfl
    exact {
      read := (spans_of_bound hu.tokenAhead_eq rfl hst (hargs _ _)).read
      core := .inr (hlast ▸ (holds_sequence hitems hk).mono hu.advances (.refl _))
      arguments := hargs _ _ }

/-- a call of something named `async`, or an asynchronous arrow function, behind that word -/
theorem asyncParenthesized_reads {u : ReaderState} (hu : s.Takes (.word "async") u) :
    (g.asyncParenthesized s.position scope).Ensures u fun p t => p.ReadFrom scope.enclosed s t := by
  simp only [asyncParenthesized, ensures_bind, ensures_expect]
  intro v hv
  refine (items_reads hg scope (hv.opened rfl)).mono ?_
  rintro ⟨items, trailing⟩ t hitems
  have hsv := hu.advances.trans hv.advances
  have hst : s.Advances 2 t := hsv.trans hitems.advances
  simp only [ensures_bind, ensures_arrowAhead, ensures_ite]
  refine ⟨fun _ => arrowOf_reads scope s (hst.mono (Nat.le_succ 1)) true items trailing,
    fun _ => ?_⟩
  refine (ensures_mapM_loop (h := fun i => i.2.argument i.1) (P := (·.2.unsettled = none))
    (fun i _ => by simp) []).mono ?_
  rintro _ _ ⟨rfl, rfl, hsettled⟩
  rw [ensures_phraseFrom]
  refine spans_of_long rfl hst (holdsArguments_call ?_ ?_)
  · rintro _ ⟨⟩
    exact holdsArguments_of_nil rfl rfl
  · intro a ha
    obtain ⟨i, hi, rfl⟩ := List.mem_map.1 ha
    obtain ⟨b, c, hb, hc, -, hR⟩ := hitems.of_mem i hi
    exact (hR.holds (hsettled i hi)).mono (hsv.trans hb) hc

/-! ### Primary expressions -/

theorem asyncPhrase_reads (hk : s.tokenAhead = some (.word "async")) :
    (g.asyncPhrase s.position scope).Ensures s fun p t => p.ReadFrom scope.enclosed s t := by
  simp only [asyncPhrase, ensures_bind, ensures_peekSecond]
  split
  · exact nameOrArrow_reads scope s
  · rename_i second _
    rw [ensures_ite]
    refine ⟨fun _ => nameOrArrow_reads scope s, fun _ => ?_⟩
    split
    · -- a function
      simp only [ensures_bind, ensures_advance hk]
      refine fun u hu => (ensures_advances advance u).mono fun _ v hv => ?_
      refine (ensures_advances _ v).mono fun _ t ht => ?_
      rw [ensures_phraseFrom]
      exact spans_of_takes hu rfl (hv.trans ht) (holdsArguments_of_nil rfl rfl)
    · simp only [ensures_ite, ensures_bind, ensures_advance hk]
      exact ⟨fun _ u hu => asyncParenthesized_reads hg scope s hu,
        fun _ => nameOrArrow_reads scope s⟩
    · simp only [ensures_ite, ensures_bind, ensures_advance hk]
      exact ⟨fun _ u hu => asyncArrow_reads scope s hu.advances,
        fun _ => nameOrArrow_reads scope s⟩
    · exact nameOrArrow_reads scope s

omit hg in
/-- a token that is an expression of its own -/
theorem literal_reads {k : Token} (hk : s.tokenAhead = some k) (hfree : k.isFree = false) {e : Expr}
    (hlinks : links e = []) (hobject : objectLinks e = []) :
    (do advance; phraseFrom s.position e .other : Reader Phrase).Ensures s
      fun p t => p.ReadFrom scope.enclosed s t := by
  simp only [ensures_bind, ensures_advance hk, ensures_phraseFrom]
  exact fun t ht => spans_of_bound hk hfree ht.advances (holdsArguments_of_nil hlinks hobject)

omit hg in
/-- what a keyword begins -/
theorem keyword_reads {k : Token} (hk : s.tokenAhead = some k) (hfree : k.isFree = false) {e : Expr}
    (hlinks : links e = []) (hobject : objectLinks e = []) (r : Reader Unit) :
    (do advance; r; phraseFrom s.position e .other : Reader Phrase).Ensures s
      fun p t => p.ReadFrom scope.enclosed s t := by
  simp only [ensures_bind, ensures_advance hk, ensures_phraseFrom]
  refine fun u hu => (ensures_advances r u).mono fun _ t ht => ?_
  exact spans_of_takes hu hfree ht (holdsArguments_of_nil hlinks hobject)

omit hg in
theorem arrayLiteral_reads (hk : s.tokenAhead = some .leftBracket) :
    (do advance; g.arrayLiteral s.position scope : Reader Phrase).Ensures s
      fun p t => p.ReadFrom scope.enclosed s t := by
  simp only [arrayLiteral, ensures_bind, ensures_advance hk]
  refine fun u hu => (ensures_advances _ u).mono ?_
  rintro ⟨es, trailing⟩ t ht
  simp only [ensures_phraseFrom, ensures_pure]
  exact spans_of_takes hu rfl ht (holdsArguments_of_nil rfl rfl)

omit hg in
theorem objectLiteral_reads (hk : s.tokenAhead = some .leftBrace) :
    (do advance; g.objectLiteral s.position scope : Reader Phrase).Ensures s
      fun p t => p.ReadFrom scope.enclosed s t := by
  simp only [objectLiteral, ensures_bind, ensures_advance hk]
  refine fun u hu => (ensures_advances _ u).mono ?_
  rintro ⟨ms, trailing⟩ t ht
  simp only [ensures_phraseFrom, ensures_pure]
  exact spans_of_takes hu rfl ht (holdsArguments_of_nil rfl rfl)

omit hg in
theorem templateLiteral_reads (hk : s.tokenAhead = some .backquote) :
    (do advance; g.templateLiteral s.position scope : Reader Phrase).Ensures s
      fun p t => p.ReadFrom scope.enclosed s t := by
  simp only [templateLiteral, ensures_bind, ensures_advance hk]
  refine fun u hu => (ensures_advances _ u).mono ?_
  rintro ⟨ts, es⟩ t ht
  dsimp only
  split
  · rw [ensures_phraseFrom]
    exact spans_of_takes hu rfl ht (holdsArguments_of_nil rfl rfl)
  · exact ensures_failAt

omit hg in
theorem regex_reads {k : Token} (hk : s.tokenAhead = some k) (hfree : k.isFree = false) :
    (do regex; phraseFrom s.position .regex .other : Reader Phrase).Ensures s
      fun p t => p.ReadFrom scope.enclosed s t := by
  simp only [ensures_bind, ensures_phraseFrom]
  exact (ensures_regex s).mono fun _ t ht =>
    spans_of_bound hk hfree ht (holdsArguments_of_nil rfl rfl)

theorem primary_reads : (g.primary scope).Ensures s fun p t => p.ReadFrom scope.enclosed s t := by
  simp only [primary, ensures_bind, ensures_position, ensures_peek]
  split
  · exact literal_reads scope s ‹_› rfl rfl rfl
  · exact literal_reads scope s ‹_› rfl rfl rfl
  · exact literal_reads scope s ‹_› rfl rfl rfl
  · exact literal_reads scope s ‹_› rfl rfl rfl
  · exact literal_reads scope s ‹_› rfl rfl rfl
  · exact literal_reads scope s ‹_› rfl rfl rfl
  · exact literal_reads scope s ‹_› rfl rfl rfl
  · exact keyword_reads scope s ‹_› rfl rfl rfl _
  · exact keyword_reads scope s ‹_› rfl rfl rfl _
  · exact asyncPhrase_reads hg scope s ‹_›
  · exact nameOrArrow_reads scope s
  · exact arrayLiteral_reads scope s ‹_›
  · exact objectLiteral_reads scope s ‹_›
  · exact parenthesized_reads hg scope s
  · exact templateLiteral_reads scope s ‹_›
  · exact regex_reads scope s ‹_› rfl
  · exact regex_reads scope s ‹_› rfl
  · rw [ensures_bind]
    refine (ensures_privateName s).mono fun _ t ht => ?_
    rw [ensures_phraseFrom]
    exact spans_of_bound ‹_› rfl ht (holdsArguments_of_nil rfl rfl)
  · exact ensures_fail

end

/-! ### Accesses and calls -/

section

variable {s u v : ReaderState} {scope : Scope} {base : Phrase}
  (hbase : base.ReadFrom scope.enclosed s u) (huv : u.Advances 1 v) (opening : Bool)

include hbase huv

theorem link_reads {t : ReaderState} (hvt : v.Advances 0 t) {e : Expr}
    (hargs : s.HoldsArguments scope.enclosed t e) (isCall : Bool) :
    (link base opening e isCall).Ensures t fun p t => p.ReadFrom scope.enclosed s t := by
  have hst : s.Advances 2 t := (hbase.advances.trans huv).trans hvt
  simp only [link, ensures_ite, ensures_phraseFrom]
  exact ⟨fun _ => spans_of_long hbase.start hst (holdsArguments_of_nil rfl rfl),
    fun _ => spans_of_long hbase.start hst hargs⟩

/-- the arguments of the calls before the link -/
theorem base_holdsArguments {t : ReaderState} (hvt : v.Advances 0 t) :
    s.HoldsArguments scope.enclosed t base.expr :=
  hbase.arguments.mono (.refl s) (huv.trans hvt)

theorem memberName_reads :
    (memberName base opening).Ensures v fun p t => p.ReadFrom scope.enclosed s t := by
  simp only [memberName, ensures_bind, ensures_isAhead, ensures_ite]
  refine ⟨fun _ => ?_, fun _ => ?_⟩
  · exact (ensures_advances _ v).mono fun _ t ht =>
      link_reads hbase huv opening ht (holdsArguments_of_nil rfl rfl) false
  · exact (ensures_advances _ v).mono fun w t ht => link_reads hbase huv opening ht
      (holdsArguments_field (base_holdsArguments hbase huv ht)) false

variable {g : Grammar}

theorem memberIndex_reads :
    (g.memberIndex base opening scope).Ensures v fun p t => p.ReadFrom scope.enclosed s t := by
  simp only [memberIndex, ensures_bind, ensures_expect]
  refine (ensures_advances _ v).mono fun k a ha b hb => ?_
  have hvb : v.Advances 0 b := (ha.trans hb.advances).mono (Nat.zero_le _)
  exact link_reads hbase huv opening hvb
    (holdsArguments_index (base_holdsArguments hbase huv hvb)) false

theorem callOf_reads (hg : g.ReadsPhrases) (ho : v.Opened) :
    (g.callOf base opening scope).Ensures v fun p t => p.ReadFrom scope.enclosed s t := by
  simp only [callOf, ensures_bind]
  have harguments := (callArguments_reads hg scope ho).and (ensures_advances _ v)
  refine harguments.mono ?_
  rintro as t ⟨has, ht⟩
  refine link_reads hbase huv opening ht (holdsArguments_call ?_ ?_) true
  · rintro _ ⟨⟩
    exact base_holdsArguments hbase huv ht
  · exact fun a ha => (has a ha).mono (hbase.advances.trans huv) (.refl t)

theorem optionalLink_reads (hg : g.ReadsPhrases) :
    (g.optionalLink base scope).Ensures v fun p t => p.ReadFrom scope.enclosed s t := by
  simp only [optionalLink, ensures_bind, ensures_eat, if_true, Bool.false_eq_true, if_false]
  have hstep : ∀ {w : ReaderState} {k : Token}, v.Takes k w → u.Advances 1 w :=
    fun hw => (huv.trans hw.advances).mono (Nat.le_succ 1)
  refine ⟨fun w hw => memberIndex_reads hbase (hstep hw) true, fun _ => ⟨fun w hw => ?_,
    fun _ => memberName_reads hbase huv true⟩⟩
  exact callOf_reads hbase (hstep hw) true hg (hw.opened rfl)

end

section

variable {g : Grammar} (hg : g.ReadsPhrases) (scope : Scope) (s : ReaderState)

include hg

theorem suffixes_reads (calls : Bool) (n : Nat) {p : Phrase} {u : ReaderState}
    (hp : p.ReadFrom scope.enclosed s u) :
    (g.suffixes calls scope n p).Ensures u fun q t => q.ReadFrom scope.enclosed s t := by
  induction n generalizing p u with
  | zero => exact ensures_fail
  | succ n ih =>
    rw [suffixes, ensures_bind, ensures_peek]
    split
    · rename_i hk
      simp only [ensures_bind, ensures_settle, ensures_advance hk]
      exact fun _ v hv => (memberName_reads hp hv.advances false).mono fun q t hq => ih hq
    · rename_i hk
      simp only [ensures_bind, ensures_settle, ensures_advance hk]
      exact fun _ v hv => (memberIndex_reads hp hv.advances false).mono fun q t hq => ih hq
    · rename_i hk
      simp only [ensures_ite, ensures_bind, ensures_settle, ensures_advance hk, ensures_pure]
      refine ⟨fun _ _ v hv => ?_, fun _ => hp⟩
      exact (callOf_reads hp hv.advances false hg (hv.opened rfl)).mono fun q t hq => ih hq
    · rename_i hk
      simp only [ensures_bind, ensures_settle, ensures_ite, ensures_advance hk]
      refine fun _ => ⟨fun _ => ensures_fail, fun _ v hv => (ensures_advances _ v).mono ?_⟩
      rintro ⟨ts, es⟩ t ht
      rw [ensures_phraseFrom]
      exact ih (spans_of_long hp.start ((hp.advances.trans hv.advances).trans ht)
        (holdsArguments_of_nil rfl rfl))
    · rename_i hk
      simp only [ensures_bind, ensures_peekSecond, ensures_ite, ensures_settle, ensures_advance hk,
        ensures_pure]
      refine ⟨fun _ _ => ⟨fun _ => ensures_fail, fun _ v hv => ?_⟩, fun _ => hp⟩
      refine (ensures_advances _ v).mono fun _ w hw => ?_
      exact (optionalLink_reads hp (hv.advances.trans hw) hg).mono fun q t hq => ih hq
    · exact ensures_pure.2 hp

/-! ### What keywords begin -/

omit hg in
theorem newExpression_reads (hk : s.tokenAhead = some (.word "new")) :
    (g.newExpression scope).Ensures s fun p t => p.ReadFrom scope.enclosed s t := by
  have hspans : ∀ {u t : ReaderState} {n : Nat} {es : List Expr}, s.Takes (.word "new") u →
      u.Advances n t →
      s.Spans scope.enclosed t ⟨s.position, t.stop⟩ ⟨s.position, t.stop⟩ (.other es) :=
    fun hu ht => spans_of_takes hu rfl ht (holdsArguments_of_nil rfl rfl)
  rw [newExpression, ensures_bind, ensures_position, ensures_bind, ensures_advance hk]
  intro u hu
  rw [ensures_ifEat]
  refine ⟨fun v hv => ?_, fun _ => ?_⟩
  · simp only [ensures_bind, ensures_expect, ensures_ite, ensures_phraseFrom]
    exact fun t ht => ⟨fun _ => hspans hu (hv.advances.trans ht.advances), fun _ => ensures_failAt⟩
  · rw [ensures_ifAhead]
    refine ⟨fun _ => ensures_fail, fun _ => ?_⟩
    simp only [ensures_bind, ensures_settle]
    refine (ensures_advances _ u).mono fun p v hv _ => ?_
    rw [← ensures_bind, ensures_ifEat]
    simp only [ensures_bind, ensures_pure, ensures_phraseFrom]
    refine ⟨fun w hw => (ensures_advances _ w).mono fun as t ht => ?_, fun _ => hspans hu hv⟩
    exact hspans hu ((hv.trans hw.advances).trans ht)

theorem superExpression_reads (hk : s.tokenAhead = some (.word "super")) :
    (g.superExpression scope).Ensures s fun p t => p.ReadFrom scope.enclosed s t := by
  have hspans : ∀ {u t : ReaderState} {n : Nat} {es : List Expr}, s.Takes (.word "super") u →
      u.Advances n t →
      s.Spans scope.enclosed t ⟨s.position, t.stop⟩ ⟨s.position, t.stop⟩ (.other es) :=
    fun hu ht => spans_of_takes hu rfl ht (holdsArguments_of_nil rfl rfl)
  rw [superExpression, ensures_bind, ensures_position, ensures_bind, ensures_advance hk]
  intro u hu
  rw [ensures_ifEat]
  refine ⟨fun v hv => ?_, fun _ => ?_⟩
  · simp only [ensures_bind, ensures_phraseFrom]
    refine ((callArguments_reads hg scope (hv.opened rfl)).and (ensures_advances _ v)).mono ?_
    rintro as t ⟨has, ht⟩
    have hsv := hu.advances.trans hv.advances
    exact spans_of_long rfl (hsv.trans ht)
      (holdsArguments_call (by simp) fun a ha => (has a ha).mono hsv (.refl t))
  · rw [ensures_ifEat]
    simp only [ensures_bind, ensures_pure, ensures_expect, ensures_ite, ensures_phraseFrom]
    refine ⟨fun v hv => ?_, fun _ v hv => ?_⟩
    · exact (ensures_advances _ v).mono fun w t ht =>
        ⟨fun _ => hspans hu (hv.advances.trans ht), fun _ => ensures_fail⟩
    · refine (ensures_advances _ v).mono fun k w hw t ht => ⟨fun _ => ?_, fun _ => ensures_fail⟩
      exact hspans hu ((hv.advances.trans hw).trans ht.advances)

theorem importCall_reads (hk : s.tokenAhead = some (.word "import")) :
    (g.importCall scope).Ensures s fun p t => p.ReadFrom scope.enclosed s t := by
  rw [importCall, ensures_bind, ensures_position, ensures_bind, ensures_advance hk]
  intro u hu
  rw [ensures_ifEat]
  refine ⟨fun v hv => ?_, fun _ => ?_⟩
  · simp only [ensures_bind, ensures_ite]
    exact (ensures_advances _ v).mono fun w t _ => ⟨fun _ => ensures_failAt, fun _ => ensures_fail⟩
  · simp only [ensures_bind, ensures_position, ensures_expect]
    intro v hv
    refine (listUpTo_reads (fun w hw => callArgument_reads hg scope w hw) g.fuel
      (hv.opened rfl)).mono ?_
    rintro ⟨as, trailing⟩ t has
    simp only [ensures_ite, ensures_failAt, ensures_phraseFrom, implies_true, true_and]
    have hsv := hu.advances.trans hv.advances
    refine fun _ => spans_of_long rfl (hsv.trans has.advances) (holdsArguments_call (by simp) ?_)
    intro a ha
    obtain ⟨b, c, hb, hc, -, hR⟩ := has.of_mem a ha
    exact hR.mono (hsv.trans hb) hc

theorem memberExpression_reads (calls : Bool) :
    (g.memberExpression calls scope).Ensures s fun p t => p.ReadFrom scope.enclosed s t := by
  have hsuffixes : ∀ (p : Phrase) u, p.ReadFrom scope.enclosed s u →
      (if p.isArrow then pure p else g.suffixes calls scope g.fuel p).Ensures u
        fun q t => q.ReadFrom scope.enclosed s t := by
    intro p u hp
    rw [ensures_ite]
    exact ⟨fun _ => ensures_pure.2 hp, fun _ => suffixes_reads hg scope s calls g.fuel hp⟩
  simp only [memberExpression, ensures_bind, ensures_peek]
  split
  · rw [ensures_bind]
    exact (newExpression_reads scope s ‹_›).mono hsuffixes
  · rw [ensures_bind]
    exact (superExpression_reads hg scope s ‹_›).mono hsuffixes
  · rw [ensures_bind]
    exact (importCall_reads hg scope s ‹_›).mono hsuffixes
  · rw [ensures_bind]
    exact (primary_reads hg scope s).mono hsuffixes

/-! ### Operators -/

theorem postfixed_reads : (g.postfixed scope).Ensures s fun p t => p.ReadFrom scope.enclosed s t := by
  simp only [postfixed, ensures_bind, ensures_newlineAhead, ensures_isAhead, ensures_ite,
    ensures_pure]
  refine (memberExpression_reads hg scope s true).mono fun p u hp =>
    ⟨fun _ => hp, fun _ => ⟨fun hk => ⟨fun _ => ?_, fun _ => ensures_failAt⟩, fun _ => hp⟩⟩
  obtain ⟨k, hk⟩ : ∃ k, u.tokenAhead = some k := by
    rcases Bool.or_eq_true_iff.1 hk with hk | hk
    · exact ⟨_, eq_of_beq hk⟩
    · exact ⟨_, eq_of_beq hk⟩
  rw [ensures_advance hk]
  intro t ht
  rw [ensures_phraseFrom]
  exact spans_of_long hp.start (hp.advances.trans ht.advances) (holdsArguments_of_nil rfl rfl)

theorem unaryExpression_reads :
    (g.unaryExpression scope).Ensures s fun p t => p.ReadFrom scope.enclosed s t := by
  have hspans : ∀ {inner : Scope} {k : Token} {u t : ReaderState} {p : Phrase} {e : Expr},
      s.Takes k u → p.ReadFrom inner u t → links e = [] → objectLinks e = [] →
        s.Spans scope.enclosed t ⟨s.position, t.stop⟩ ⟨s.position, t.stop⟩ e :=
    fun hu hp hlinks hobject =>
      spans_of_long rfl (hu.advances.trans hp.advances) (holdsArguments_of_nil hlinks hobject)
  simp only [unaryExpression, ensures_bind, ensures_position, ensures_peek]
  split
  · simp only [ensures_bind, ensures_advance ‹_›, ensures_ite, ensures_phraseFrom]
    exact fun u hu => (hg.unary _ u).mono fun p t hp =>
      ⟨fun _ => hspans hu hp rfl rfl, fun _ => ensures_failAt⟩
  · simp only [ensures_bind, ensures_advance ‹_›, ensures_ite, ensures_phraseFrom]
    exact fun u hu => (hg.unary _ u).mono fun p t hp =>
      ⟨fun _ => hspans hu hp rfl rfl, fun _ => ensures_failAt⟩
  · simp only [ensures_bind, ensures_advance ‹_›, ensures_ite, ensures_phraseFrom, ensures_settle,
      ensures_peekSecond, ensures_pure]
    refine ⟨fun _ u hu => ?_, fun _ => ⟨fun _ u hu => ?_, fun _ u hu => ?_⟩⟩
    · exact (hg.unary _ u).mono fun p t hp _ => hspans hu hp rfl rfl
    · exact spans_of_bound hu.tokenAhead_eq rfl hu.advances (holdsArguments_of_nil rfl rfl)
    · exact (ensures_advances _ u).mono fun _ _ _ => ensures_failAt
  · split
    · simp only [ensures_bind, ensures_advance ‹_›, ensures_settle, ensures_ite, ensures_phraseFrom,
        ensures_pure]
      refine fun u hu => (hg.unary _ u).mono fun p t hp _ => ⟨fun _ => ?_, fun _ => ?_⟩
      · exact ensures_failAt
      · exact hspans hu hp rfl rfl
    · exact postfixed_reads hg scope s
  · exact ensures_fail

omit hg in
theorem joined_reads {l r : Phrase} {op : BinaryOp} {u v w : ReaderState}
    (hl : l.ReadFrom scope.enclosed s u) (huv : u.Advances 1 v)
    (hr : r.ReadFrom scope.enclosed v w) :
    (joined op l r).Ensures w fun p t => p.ReadFrom scope.enclosed s t := by
  simp only [joined, ensures_ite, ensures_failAt, ensures_phraseFrom, implies_true, true_and]
  have hsw := (hl.advances.trans huv).trans hr.advances
  exact fun _ => spans_of_long hl.start (hsw.mono (Nat.le_succ 2)) (holdsArguments_of_nil rfl rfl)

theorem binaryTail_reads (n least : Nat) {p : Phrase} {u : ReaderState}
    (hp : p.ReadFrom scope.enclosed s u) :
    (g.binaryTail scope n least p).Ensures u fun q t => q.ReadFrom scope.enclosed s t := by
  induction n generalizing s least p u with
  | zero => exact ensures_fail
  | succ n ih =>
    rw [binaryTail, ensures_bind, ensures_peek]
    split
    · exact ensures_pure.2 hp
    · rename_i op hop
      obtain ⟨k, hk, -⟩ := Option.bind_eq_some_iff.1 hop
      simp only [ensures_bind, ensures_ite, ensures_pure, ensures_settle, ensures_advance hk]
      refine ⟨fun _ => hp, fun _ _ v hv => ⟨fun _ => ensures_fail, fun _ => ?_⟩⟩
      refine (unaryExpression_reads hg _ v).mono fun first w hfirst => ?_
      refine (ih v _ hfirst).mono fun right x hright _ => ?_
      exact (joined_reads scope s hp hv.advances hright).mono fun q y hq => ih s least hq

theorem conditional_reads :
    (g.conditional scope).Ensures s fun p t => p.ReadFrom scope.enclosed s t := by
  simp only [conditional, ensures_bind, ensures_ite, ensures_pure]
  refine (unaryExpression_reads hg scope s).mono fun p u hp => ⟨fun _ => hp, fun _ => ?_⟩
  refine (binaryTail_reads hg scope s g.fuel 0 hp).mono fun q v hq => ?_
  refine ensures_isAhead.2 ⟨fun hk => ?_, fun _ => hq⟩
  simp only [ensures_settle, ensures_advance (eq_of_beq hk), ensures_expect, ensures_phraseFrom]
  refine fun _ w hw => (ensures_advances _ w).mono fun a x hx y hy => ?_
  refine (ensures_advances _ y).mono fun b t ht => ?_
  have hst := (((hq.advances.trans hw.advances).trans hx).trans hy.advances).trans ht
  exact spans_of_long hq.start (hst.mono (Nat.le_succ 2)) (holdsArguments_of_nil rfl rfl)

omit hg in
theorem yieldExpression_reads (hk : s.tokenAhead = some (.word "yield")) :
    (g.yieldExpression scope).Ensures s fun p t => p.ReadFrom scope.enclosed s t := by
  simp only [yieldExpression, ensures_bind, ensures_position, ensures_advance hk,
    ensures_newlineAhead, ensures_peek, ensures_ite, ensures_phraseFrom]
  refine fun u hu => ⟨fun _ => ?_, fun _ => ?_⟩
  · exact spans_of_bound hk rfl hu.advances (holdsArguments_of_nil rfl rfl)
  · refine (ensures_advances _ u).mono fun _ v hv => (ensures_advances _ v).mono fun p t ht => ?_
    exact spans_of_takes hu rfl (hv.trans ht) (holdsArguments_of_nil rfl rfl)

theorem assignmentExpression_reads :
    (g.assignmentExpression scope).Ensures s fun p t => p.ReadFrom scope.enclosed s t := by
  simp only [assignmentExpression, ensures_bind, ensures_position, ensures_isAhead, ensures_ite]
  refine ⟨fun h => ?_, fun _ => ?_⟩
  · exact yieldExpression_reads _ s (eq_of_beq (Bool.and_eq_true_iff.1 h).2)
  · refine (conditional_reads hg _ s).mono fun p u hp => ⟨fun _ => ensures_pure.2 hp, fun _ => ?_⟩
    rw [ensures_peek]
    split
    · simp only [ensures_ite, ensures_bind, ensures_advance ‹_›, ensures_phraseFrom, ensures_pure]
      refine ⟨fun _ v hv => (ensures_advances _ v).mono fun q t ht => ?_, fun _ => ensures_failAt⟩
      have hst := (hp.advances.trans hv.advances).trans ht
      exact spans_of_long rfl hst (holdsArguments_of_nil rfl rfl)
    · exact ensures_pure.2 hp

end

/-! ### The grammar -/

theorem grammar_readsPhrases (n : Nat) : (grammar n).ReadsPhrases := by
  induction n with
  | zero => exact ⟨⟨0, rfl⟩, fun _ _ => ensures_fail, fun _ _ => ensures_fail⟩
  | succ n ih => exact ⟨⟨n + 1, rfl⟩, assignmentExpression_reads ih, unaryExpression_reads ih⟩

/-! ### Statements -/

/-- the words that tell which statement they begin -/
def statementKeywords : List String := [
  "var", "if", "for", "while", "do", "continue", "break", "return", "with", "switch", "throw", "try",
  "debugger", "import", "function", "class"]

/-- The statement behind `import` is a call of it. -/
theorem keywordStatement_import (g : Grammar) (place : Place) (scope : Scope) :
    g.keywordStatement "import" place scope = (do
      if (← peekSecond).any fun l => l.token == .leftParen || l.token == .dot then
        let p ← g.expression scope
        let _ ← eat .semicolon
        pure (some (.expression p.expr))
      else fail) :=
  rfl

/-- any other word tells none -/
theorem mem_statementKeywords_or (w : String) :
    w ∈ statementKeywords ∨
      ∀ {g : Grammar} {place : Place} {scope : Scope},
        g.keywordStatement w place scope = pure none := by
  refine or_iff_not_imp_left.2 fun hw g place scope => ?_
  unfold keywordStatement
  dsimp only
  split <;> first | exact absurd (by decide) hw | rfl

/-- the arguments of the statement, if it is an expression, are read between the states -/
def StatementRead (scope : Scope) (s : ReaderState) (st : Statement) (t : ReaderState) : Prop :=
  ∀ e, st = .expression e → s.HoldsArguments scope t e

section

variable {g : Grammar} (hg : g.ReadsPhrases) (place : Place) (scope : Scope) (s : ReaderState)

include hg

theorem expressionStatement_reads :
    (g.expressionStatement place scope).Ensures s (StatementRead scope.enclosed s) := by
  simp only [expressionStatement, ensures_bind, ensures_peekSecond, ensures_peek]
  split
  · simp [StatementRead]
  · simp only [ensures_bind, ensures_pure]
    refine (expression_reads hg scope s).mono fun p t hp => (ensures_advances _ t).mono ?_
    rintro _ u htu _ ⟨⟩
    exact hp.arguments.mono (.refl s) htu

/-- Of the statements that their first word tells, only a call of `import` is an expression. -/
theorem keywordStatement_reads (w : String) :
    (g.keywordStatement w place scope).Ensures s fun r t =>
      ∀ st ∈ r, StatementRead scope.enclosed s st t := by
  by_cases himport : w = "import"
  · subst himport
    simp only [keywordStatement_import, ensures_bind, ensures_peekSecond, ensures_ite, ensures_pure]
    refine ⟨fun _ => ?_, fun _ => ensures_fail⟩
    refine (expression_reads hg scope s).mono fun p t hp => (ensures_advances _ t).mono ?_
    rintro _ u htu _ ⟨⟩ _ ⟨⟩
    exact hp.arguments.mono (.refl s) htu
  · unfold keywordStatement
    dsimp only
    split <;> first | exact absurd rfl himport | simp [StatementRead]

theorem anyStatement_reads :
    (g.anyStatement place scope).Ensures s (StatementRead scope.enclosed s) := by
  simp only [anyStatement, ensures_bind, ensures_peek]
  split
  · simp [StatementRead]
  · simp [StatementRead]
  · rename_i w hw
    rw [ensures_bind]
    refine ((keywordStatement_reads hg place _ s w).and (ensures_advances _ s)).mono ?_
    rintro (_ | st) t ⟨hst, ht⟩
    · simp only [ensures_bind, ensures_ite, ensures_pure]
      refine (ensures_advances _ t).mono fun _ u hu => ⟨fun _ => by rintro _ ⟨⟩, fun _ => ?_⟩
      refine (expressionStatement_reads hg place _ u).mono fun st v hst e he => ?_
      exact (hst e he).mono (ht.trans hu) (.refl v)
    · exact ensures_pure.2 (hst st rfl)
  · exact expressionStatement_reads hg place _ s

end

end Grammar

open Grammar Reader ReaderState

theorem scriptStatements_reads {g : Grammar}
    (hg : ∀ scope s, (g.statement .list scope).Ensures s (StatementRead scope.enclosed s))
    (directives : Bool) (scope : Scope) (n : Nat) (s : ReaderState) :
    (scriptStatements g directives scope n).Ensures s fun ss t =>
      ∀ e, ss = [.expression e] → s.HoldsArguments scope.enclosed t e := by
  cases n with
  | zero => exact ensures_fail
  | succ n =>
    simp only [scriptStatements, ensures_bind, ensures_peek, ensures_ite, ensures_pure]
    refine ⟨fun _ => by rintro _ ⟨⟩, fun _ => (hg scope s).mono fun st t hst => ?_⟩
    refine (ensures_advances _ t).mono fun ss u htu e he => ?_
    exact (hst e (List.cons.inj he).1).mono (.refl s) htu

theorem script_reads (n : Nat) (s : ReaderState) :
    (script n).Ensures s fun ss t => ∀ e, ss = [.expression e] → s.HoldsArguments {} t e := by
  have hstatement : ∀ scope s, ((grammar n).statement .list scope).Ensures s
      (StatementRead scope.enclosed s) := by
    cases n with
    | zero => exact fun _ _ => ensures_fail
    | succ n => exact fun scope s => anyStatement_reads (grammar_readsPhrases n) .list scope s
  rw [script, ensures_bind]
  refine (ensures_advances _ s).mono fun _ t ht => ?_
  exact (scriptStatements_reads hstatement true {} n t).mono fun ss u hss e he =>
    (hss e he).mono ht (.refl u)

/-- **Where arguments are read.**  The arguments of the calls of a query are read from the text,
between its start and the state that all of its tokens are read up to. -/
theorem readSource_holdsArguments {text : String} {s : Source} (h : readSource text = .ok s) :
    ∃ t, (ReaderState.load (Cursor.ofText text.toList) 0 []).HoldsArguments {} t s.expr ∧
      t.taken.reverse = s.tokens := by
  obtain ⟨-, hread, -⟩ := readSource_eq_ok h
  have hreads := script_reads (enoughLevels (Cursor.ofText text.toList).chars)
    (.load (Cursor.ofText text.toList) 0 [])
  unfold readStatements at hread
  dsimp only at hread
  generalize script (enoughLevels (Cursor.ofText text.toList).chars) = r at hread hreads
  rcases hrun : r.run (.load (Cursor.ofText text.toList) 0 []) with o | ⟨ss, t⟩
  · rw [hrun] at hread
    cases hread
  · rw [hrun] at hread
    have hread := Except.ok.inj hread
    exact ⟨t, hreads ss t hrun _ (congrArg Prod.fst hread), congrArg Prod.snd hread⟩

end PageQuery.Script
