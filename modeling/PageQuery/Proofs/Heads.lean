import PageQuery.Proofs.Phrases
import PageQuery.Proofs.Placement

/-!
# What expressions begin with

`s.AtOperand`: the token ahead is one that an operand begins with.  Every rule for expressions reads
from such a state only; `BeginsWith` says this and what can stand behind the first token, and
`AtArrow` what an arrow function begins with.  There is one lemma for each rule, as in the module on
phrases, and one induction on the levels of the grammar.
-/

namespace PageQuery.Script

/-- an operand can begin with the token; a slash apart, which begins a regular expression -/
def Token.opensOperand : Token → Bool
  | .string _ => true
  | .number _ => true
  | .bigint => true
  | .word _ => true
  | .leftParen => true
  | .leftBracket => true
  | .leftBrace => true
  | .backquote => true
  | .hash => true
  | .bang => true
  | .tilde => true
  | .increment => true
  | .decrement => true
  | .binary .plus => true
  | .binary .minus => true
  | _ => false

/-- an operand can begin with the token, whatever stands behind it -/
def Token.opensAlone : Token → Bool
  | .decrement => false
  | .hash => false
  | k => k.opensOperand

theorem Token.opensOperand_of_opensAlone {k : Token} (h : k.opensAlone = true) :
    k.opensOperand = true := by
  cases k <;> first | rfl | exact h

/-- an arrow function, parentheses around it aside -/
def Expr.isArrow (e : Expr) : Bool :=
  match e.unparen with
  | .arrow _ _ _ => true
  | _ => false

namespace ReaderState

variable {s t : ReaderState} {k : Token} {e e' : Expr}

/-- an operand can begin at the token ahead, or a regular expression -/
def AtOperand (s : ReaderState) : Prop :=
  ∃ k ∈ s.tokenAhead, k.opensOperand = true ∨
    (k = .binary .divide ∨ k = .assign false) ∧ s.before.gap.chars.head? = some '/'

/-- the token behind the token ahead -/
def tokenBehind (s : ReaderState) : Option Token := s.after.lookAhead.1.map (·.token)

/-- The first tokens of an arrow function are ahead: its parameters in parentheses, the name of its
parameter and an arrow, or `async` and one of these. -/
inductive AtArrow (s : ReaderState) : Prop
  | parens : s.tokenAhead = some .leftParen → AtArrow s
  | name {w : String} : s.tokenAhead = some (.word w) → isReserved w = false →
    s.tokenBehind = some .arrow → AtArrow s
  | asyncParens : s.tokenAhead = some (.word "async") → s.tokenBehind = some .leftParen → AtArrow s
  | asyncName {w : String} : s.tokenAhead = some (.word "async") →
    s.tokenBehind = some (.word w) → isReserved w = false → AtArrow s

/-- the first tokens of the expression are ahead -/
structure BeginsWith (s : ReaderState) (e : Expr) : Prop where
  operand : s.AtOperand
  decrement : ∀ t, s.Takes .decrement t → t.AtOperand
  hash : ∀ t, s.Takes .hash t → ∃ w, t.tokenAhead = some (.word w)
  arrow : e.isArrow = true → s.AtArrow

/-- a first token that settles how the expression begins -/
theorem beginsWith_of (hk : s.tokenAhead = some k) (hopens : k.opensAlone = true)
    (harrow : e.isArrow = true → s.AtArrow) : s.BeginsWith e where
  operand := ⟨k, hk, .inl (Token.opensOperand_of_opensAlone hopens)⟩
  decrement _ ht := by
    rw [Option.some.inj (hk.symm.trans ht.tokenAhead_eq)] at hopens
    cases hopens
  hash _ ht := by
    rw [Option.some.inj (hk.symm.trans ht.tokenAhead_eq)] at hopens
    cases hopens
  arrow := harrow

theorem BeginsWith.of_eq_or (h : s.BeginsWith e) (he : e' = e ∨ e'.isArrow = false) :
    s.BeginsWith e' where
  operand := h.operand
  decrement := h.decrement
  hash := h.hash
  arrow ha := by
    obtain rfl | hno := he
    · exact h.arrow ha
    · rw [hno] at ha
      cases ha

theorem Takes.unique {u : ReaderState} (h : s.Takes k t) (h' : s.Takes k u) : t = u := by
  obtain ⟨l, hl, -, -, rfl⟩ := h
  obtain ⟨l', hl', -, -, rfl⟩ := h'
  rw [Option.some.inj (hl.symm.trans hl')]

theorem Takes.tokenAhead_eq_behind (h : s.Takes k t) : t.tokenAhead = s.tokenBehind := by
  obtain ⟨l, -, -, -, rfl⟩ := h
  rfl

end ReaderState

namespace Grammar

open Reader ReaderState

/-- whatever the rule gives is no arrow function -/
def NoArrow (r : Reader Phrase) : Prop := ∀ s, r.Ensures s fun p _ => p.expr.isArrow = false

section

variable {α : Type}

theorem noArrow_fail : NoArrow fail := fun _ => ensures_fail

theorem noArrow_failAt {o : Nat} : NoArrow (failAt o) := fun _ => ensures_failAt

theorem noArrow_bind {r : Reader α} {f : α → Reader Phrase} (h : ∀ a, NoArrow (f a)) :
    NoArrow (r >>= f) :=
  fun s => ensures_bind.2 ((ensures_advances r s).mono fun a t _ => h a t)

theorem noArrow_ite {c : Prop} [Decidable c] {r q : Reader Phrase} (hr : NoArrow r)
    (hq : NoArrow q) : NoArrow (if c then r else q) := by
  split
  · exact hr
  · exact hq

theorem noArrow_phraseFrom {start : Nat} {e : Expr} {role : Role} (he : e.isArrow = false) :
    NoArrow (phraseFrom start e role) := fun _ => ensures_phraseFrom.2 he

end

/-- the rules for operands begin with what their results begin with -/
structure Begins (g : Grammar) : Prop where
  assignment : ∀ scope s, (g.assignment scope).Ensures s fun p _ => s.BeginsWith p.expr
  unary : ∀ scope s, (g.unary scope).Ensures s fun p _ => s.BeginsWith p.expr

/-! ### Primary expressions -/

section

variable {g : Grammar} (scope : Scope) (s : ReaderState)

theorem not_isReserved_of_canName {scope : Scope} {w : String} (h : scope.canName w = true) :
    isReserved w = false := by
  simp only [Scope.canName, Bool.and_eq_true, Bool.not_eq_true'] at h
  exact h.1.1.1

/-- a rule that begins with a token that tells what it begins with -/
theorem begins_of {k : Token} (hk : s.tokenAhead = some k) (hopens : k.opensAlone = true)
    {r : Reader Phrase} (harrow : NoArrow r ∨ s.AtArrow) :
    r.Ensures s fun p _ => s.BeginsWith p.expr := by
  obtain hno | hat := harrow
  · refine (hno s).mono fun p _ hp => beginsWith_of hk hopens fun ha => ?_
    rw [hp] at ha
    cases ha
  · exact fun p _ _ => beginsWith_of hk hopens fun _ => hat

theorem nameOrArrow_begins :
    (g.nameOrArrow s.position false scope).Ensures s fun p _ => s.BeginsWith p.expr := by
  simp only [nameOrArrow, ensures_bind, ensures_variableName, ensures_arrowAhead, ensures_ite,
    ensures_phraseFrom, ensures_pure]
  intro w t hw ht
  have hk := ht.tokenAhead_eq
  refine ⟨fun h p _ _ => ?_, fun _ => ⟨by simp, fun _ => ?_⟩⟩
  · have hbehind : s.tokenBehind = some .arrow := by
      simp only [Bool.and_eq_true, beq_iff_eq] at h
      rw [← ht.tokenAhead_eq_behind, h.2.1]
    exact beginsWith_of hk rfl fun _ =>
      .name hk (not_isReserved_of_canName hw) hbehind
  · exact beginsWith_of hk rfl fun ha => absurd ha Bool.false_ne_true

theorem asyncPhrase_begins (hk : s.tokenAhead = some (.word "async")) :
    (g.asyncPhrase s.position scope).Ensures s fun p _ => s.BeginsWith p.expr := by
  have hname := nameOrArrow_begins (g := g) scope s
  have hbehind : ∀ {l : Lexeme} {k : Token}, s.after.lookAhead.1 = some l → l.token = k →
      s.tokenBehind = some k := fun hl htoken => by rw [tokenBehind, hl, Option.map_some, htoken]
  simp only [asyncPhrase, ensures_bind, ensures_peekSecond]
  split
  · exact hname
  · rename_i second hsecond
    rw [ensures_ite]
    refine ⟨fun _ => hname, fun _ => ?_⟩
    split
    · refine begins_of s hk rfl (.inl ?_)
      exact noArrow_bind fun _ => noArrow_bind fun _ => noArrow_bind fun _ =>
        noArrow_phraseFrom rfl
    · rename_i htoken
      rw [ensures_ite]
      refine ⟨fun _ => ?_, fun _ => hname⟩
      exact begins_of s hk rfl (.inr (.asyncParens hk (hbehind hsecond htoken)))
    · rename_i w htoken
      rw [ensures_ite]
      refine ⟨fun h => ?_, fun _ => hname⟩
      have hw := not_isReserved_of_canName (Bool.and_eq_true_iff.1 h).2
      exact begins_of s hk rfl (.inr (.asyncName hk (hbehind hsecond htoken) hw))
    · exact hname

/-- A literal that is one token. -/
theorem literal_noArrow {start : Nat} {e : Expr} (he : e.isArrow = false) :
    NoArrow (do advance; phraseFrom start e .other) :=
  noArrow_bind fun _ => noArrow_phraseFrom he

theorem ensures_regex_slash (s : ReaderState) :
    regex.Ensures s fun _ _ => s.before.gap.chars.head? = some '/' := by
  intro _ t hrun
  simp only [regex] at hrun
  split at hrun
  · rename_i l c hr
    obtain ⟨_, _, _, -, hgap, -⟩ := regexAhead_eq_ok hr
    rw [hgap, List.head?_cons]
  · cases hrun

theorem regex_begins {k : Token} (hk : s.tokenAhead = some k)
    (hslash : k = .binary .divide ∨ k = .assign false) :
    (do regex; phraseFrom s.position .regex .other : Reader Phrase).Ensures s
      fun p _ => s.BeginsWith p.expr := by
  have hno : ∀ {t : ReaderState} {k' : Token},
      s.Takes k' t → k' = .binary .divide ∨ k' = .assign false :=
    fun ht => Option.some.inj (hk.symm.trans ht.tokenAhead_eq) ▸ hslash
  simp only [ensures_bind, ensures_phraseFrom]
  refine (ensures_regex_slash s).mono fun _ _ hgap =>
    ⟨⟨k, hk, .inr ⟨hslash, hgap⟩⟩, ?_, ?_, fun ha => absurd ha Bool.false_ne_true⟩
  · exact fun _ ht => absurd (hno ht) (by decide)
  · exact fun _ ht => absurd (hno ht) (by decide)

/-- Behind a number sign stands a word. -/
theorem privateName_begins :
    (do let _ ← privateName; phraseFrom s.position (.other []) .other : Reader Phrase).Ensures s
      fun p _ => s.BeginsWith p.expr := by
  simp only [privateName, anyWord, ensures_bind, ensures_expect, ensures_lastStop, ensures_position,
    ensures_ite, ensures_fail, implies_true, and_true, ensures_peek, ensures_phraseFrom]
  intro u hu _
  split
  · rename_i w hw
    have hk := hu.tokenAhead_eq
    have hword : ∀ t, s.Takes .hash t → ∃ w, t.tokenAhead = some (.word w) := fun t ht =>
      ⟨w, by rw [ht.tokenAhead_eq_behind, ← hu.tokenAhead_eq_behind, hw]⟩
    refine fun _ _ _ => ⟨⟨_, hk, .inl rfl⟩, fun t ht => ?_, hword,
      fun ha => absurd ha Bool.false_ne_true⟩
    cases hk.symm.trans ht.tokenAhead_eq
  · exact ensures_fail

theorem arrayLiteral_noArrow (start : Nat) : NoArrow (g.arrayLiteral start scope) :=
  noArrow_bind fun _ _ => ensures_bind.2 <| ensures_phraseFrom.2 <| ensures_pure.2 rfl

theorem objectLiteral_noArrow (start : Nat) : NoArrow (g.objectLiteral start scope) :=
  noArrow_bind fun _ _ => ensures_bind.2 <| ensures_phraseFrom.2 <| ensures_pure.2 rfl

theorem templateLiteral_noArrow (start : Nat) : NoArrow (g.templateLiteral start scope) := by
  refine noArrow_bind fun r => ?_
  dsimp only
  split
  · exact noArrow_phraseFrom rfl
  · exact noArrow_failAt

theorem primary_begins : (g.primary scope).Ensures s fun p _ => s.BeginsWith p.expr := by
  simp only [primary, ensures_bind, ensures_position, ensures_peek]
  split
  · exact begins_of s ‹_› rfl (.inl (literal_noArrow rfl))
  · exact begins_of s ‹_› rfl (.inl (literal_noArrow rfl))
  · exact begins_of s ‹_› rfl (.inl (literal_noArrow rfl))
  · exact begins_of s ‹_› rfl (.inl (literal_noArrow rfl))
  · exact begins_of s ‹_› rfl (.inl (literal_noArrow rfl))
  · exact begins_of s ‹_› rfl (.inl (literal_noArrow rfl))
  · exact begins_of s ‹_› rfl (.inl (literal_noArrow rfl))
  · exact begins_of s ‹_› rfl
      (.inl (noArrow_bind fun _ => noArrow_bind fun _ => noArrow_phraseFrom rfl))
  · exact begins_of s ‹_› rfl
      (.inl (noArrow_bind fun _ => noArrow_bind fun _ => noArrow_phraseFrom rfl))
  · exact asyncPhrase_begins scope s ‹_›
  · exact nameOrArrow_begins scope s
  · exact begins_of s ‹_› rfl (.inl (noArrow_bind fun _ => arrayLiteral_noArrow scope _))
  · exact begins_of s ‹_› rfl (.inl (noArrow_bind fun _ => objectLiteral_noArrow scope _))
  · exact begins_of s ‹_› rfl (.inr (.parens ‹_›))
  · exact begins_of s ‹_› rfl (.inl (noArrow_bind fun _ => templateLiteral_noArrow scope _))
  · exact regex_begins s ‹_› (.inl rfl)
  · exact regex_begins s ‹_› (.inr rfl)
  · exact privateName_begins s
  · exact ensures_fail

end

/-! ### Accesses and calls -/

/-- the phrase comes out unchanged, or as no arrow function -/
def KeepsArrow (p : Phrase) (r : Reader Phrase) : Prop :=
  ∀ s, r.Ensures s fun q _ => q.expr = p.expr ∨ q.expr.isArrow = false

section

variable {α : Type} {p q : Phrase}

theorem keepsArrow_pure : KeepsArrow p (pure p) := fun _ => ensures_pure.2 (.inl rfl)

theorem NoArrow.keepsArrow {r : Reader Phrase} (h : NoArrow r) : KeepsArrow p r :=
  fun s => (h s).mono fun _ _ hq => .inr hq

theorem keepsArrow_bind {r : Reader α} {f : α → Reader Phrase} (h : ∀ a, KeepsArrow p (f a)) :
    KeepsArrow p (r >>= f) :=
  fun s => ensures_bind.2 ((ensures_advances r s).mono fun a t _ => h a t)

theorem keepsArrow_ite {c : Prop} [Decidable c] {r r' : Reader Phrase} (h : KeepsArrow p r)
    (h' : KeepsArrow p r') : KeepsArrow p (if c then r else r') := by
  split
  · exact h
  · exact h'

theorem KeepsArrow.bind {r : Reader Phrase} {f : Phrase → Reader Phrase} (h : KeepsArrow p r)
    (hf : ∀ q, KeepsArrow q (f q)) : KeepsArrow p (r >>= f) := fun s =>
  ensures_bind.2 ((h s).mono fun q t hq => (hf q t).mono fun q' _ hq' => by
    obtain heq | hno := hq'
    · rw [heq]
      exact hq
    · exact .inr hno)

/-- what keeps a phrase that is no arrow function gives none -/
theorem NoArrow.bind {r : Reader Phrase} {f : Phrase → Reader Phrase} (h : NoArrow r)
    (hf : ∀ q, KeepsArrow q (f q)) : NoArrow (r >>= f) := fun s =>
  ensures_bind.2 ((h s).mono fun q t hq => (hf q t).mono fun q' _ hq' => by
    obtain heq | hno := hq'
    · rw [heq, hq]
    · exact hno)

end

section

variable {g : Grammar} (scope : Scope) (base : Phrase) (opening : Bool)

theorem link_noArrow {e : Expr} (he : e.isArrow = false) (isCall : Bool) :
    NoArrow (link base opening e isCall) :=
  noArrow_ite (noArrow_phraseFrom rfl) (noArrow_phraseFrom he)

theorem memberName_noArrow : NoArrow (memberName base opening) :=
  noArrow_bind fun _ => noArrow_ite (noArrow_bind fun _ => link_noArrow base opening rfl false)
    (noArrow_bind fun _ => link_noArrow base opening rfl false)

theorem memberIndex_noArrow : NoArrow (g.memberIndex base opening scope) :=
  noArrow_bind fun _ => noArrow_bind fun _ => link_noArrow base opening rfl false

theorem callOf_noArrow : NoArrow (g.callOf base opening scope) :=
  noArrow_bind fun _ => link_noArrow base opening rfl true

theorem optionalLink_noArrow : NoArrow (g.optionalLink base scope) :=
  noArrow_bind fun _ => noArrow_ite (memberIndex_noArrow scope base true)
    (noArrow_bind fun _ => noArrow_ite (callOf_noArrow scope base true)
      (memberName_noArrow base true))

theorem suffixes_keepsArrow (calls : Bool) (n : Nat) (p : Phrase) :
    KeepsArrow p (g.suffixes calls scope n p) := by
  induction n generalizing p with
  | zero => exact noArrow_fail.keepsArrow
  | succ n ih =>
    rw [suffixes]
    refine keepsArrow_bind fun k => ?_
    split
    · exact (noArrow_bind fun q => noArrow_bind fun _ =>
        (memberName_noArrow q false).bind ih).keepsArrow
    · exact (noArrow_bind fun q => noArrow_bind fun _ =>
        (memberIndex_noArrow scope q false).bind ih).keepsArrow
    · refine keepsArrow_ite ?_ keepsArrow_pure
      exact (noArrow_bind fun q => noArrow_bind fun _ =>
        (callOf_noArrow scope q false).bind ih).keepsArrow
    · refine (noArrow_bind fun q => noArrow_ite noArrow_fail ?_).keepsArrow
      exact noArrow_bind fun _ => noArrow_bind fun r => (noArrow_phraseFrom rfl).bind ih
    · refine keepsArrow_bind fun _ => keepsArrow_ite ?_ keepsArrow_pure
      refine (noArrow_bind fun q => noArrow_ite noArrow_fail ?_).keepsArrow
      exact noArrow_bind fun _ => noArrow_bind fun _ => (optionalLink_noArrow scope q).bind ih
    · exact keepsArrow_pure

theorem newExpression_noArrow : NoArrow (g.newExpression scope) := by
  refine noArrow_bind fun _ => noArrow_bind fun _ => noArrow_bind fun _ => noArrow_ite ?_ ?_
  · exact noArrow_bind fun _ => noArrow_ite (noArrow_phraseFrom rfl) noArrow_failAt
  · refine noArrow_bind fun _ => noArrow_ite noArrow_fail ?_
    have hcall : ∀ start (es : List Expr), NoArrow (phraseFrom start (.other es) .other) :=
      fun _ _ => noArrow_phraseFrom rfl
    exact noArrow_bind fun _ => noArrow_bind fun _ => noArrow_bind fun _ =>
      noArrow_ite (noArrow_bind fun _ => hcall _ _) (noArrow_bind fun _ => hcall _ _)

theorem superExpression_noArrow : NoArrow (g.superExpression scope) := by
  refine noArrow_bind fun _ => noArrow_bind fun _ => noArrow_bind fun _ => noArrow_ite ?_ ?_
  · exact noArrow_bind fun _ => noArrow_phraseFrom rfl
  · have hfield : ∀ start (es : List Expr),
        NoArrow (if scope.superField then phraseFrom start (.other es) .target else fail) :=
      fun _ _ => noArrow_ite (noArrow_phraseFrom rfl) noArrow_fail
    refine noArrow_bind fun _ => noArrow_ite ?_ ?_
    · exact noArrow_bind fun _ => noArrow_bind fun _ => hfield _ _
    · exact noArrow_bind fun _ => noArrow_bind fun _ => noArrow_bind fun _ =>
        noArrow_bind fun _ => hfield _ _

theorem importCall_noArrow : NoArrow (g.importCall scope) := by
  refine noArrow_bind fun _ => noArrow_bind fun _ => noArrow_bind fun _ => noArrow_ite ?_ ?_
  · exact noArrow_bind fun _ => noArrow_ite noArrow_failAt noArrow_fail
  · exact noArrow_bind fun _ => noArrow_bind fun _ => noArrow_bind fun _ =>
      noArrow_ite noArrow_failAt (noArrow_phraseFrom rfl)

end

section

variable {g : Grammar} (scope : Scope) (s : ReaderState)

/-- What goes on from a phrase that is kept or no arrow function begins as the phrase does. -/
theorem BeginsWith.bind {s t : ReaderState} {r : Reader Phrase} {f : Phrase → Reader Phrase}
    (h : r.Ensures t fun p _ => s.BeginsWith p.expr) (hf : ∀ p, KeepsArrow p (f p)) :
    (r >>= f).Ensures t fun p _ => s.BeginsWith p.expr :=
  ensures_bind.2 (h.mono fun p t hp => (hf p t).mono fun _ _ hq => hp.of_eq_or hq)

theorem memberExpression_begins (calls : Bool) :
    (g.memberExpression calls scope).Ensures s fun p _ => s.BeginsWith p.expr := by
  have hsuffixes : ∀ p : Phrase,
      KeepsArrow p (if p.isArrow then pure p else g.suffixes calls scope g.fuel p) :=
    fun p => keepsArrow_ite keepsArrow_pure (suffixes_keepsArrow scope calls g.fuel p)
  simp only [memberExpression, ensures_bind, ensures_peek]
  split
  · exact BeginsWith.bind (begins_of s ‹_› rfl (.inl (newExpression_noArrow scope))) hsuffixes
  · exact BeginsWith.bind (begins_of s ‹_› rfl (.inl (superExpression_noArrow scope))) hsuffixes
  · exact BeginsWith.bind (begins_of s ‹_› rfl (.inl (importCall_noArrow scope))) hsuffixes
  · exact BeginsWith.bind (primary_begins scope s) hsuffixes

/-! ### Operators -/

theorem postfixed_begins : (g.postfixed scope).Ensures s fun p _ => s.BeginsWith p.expr := by
  refine BeginsWith.bind (memberExpression_begins scope s true) fun p => ?_
  refine keepsArrow_bind fun _ => keepsArrow_ite keepsArrow_pure ?_
  refine keepsArrow_bind fun _ => keepsArrow_bind fun _ => keepsArrow_ite ?_ keepsArrow_pure
  exact (noArrow_ite (noArrow_bind fun _ => noArrow_phraseFrom rfl) noArrow_failAt).keepsArrow

theorem opensAlone_of_unaryOp? {k : Token} {op : UnaryOp} (h : unaryOp? k = some op) :
    k.opensAlone = true := by
  unfold unaryOp? at h
  split at h <;> first | rfl | cases h

theorem noArrow_whole {start : Nat} {e : Expr} {role : Role} {f : Phrase → Phrase}
    (he : e.isArrow = false) (hf : ∀ p, (f p).expr = p.expr) :
    NoArrow (do let p ← phraseFrom start e role; pure (f p)) :=
  fun _ => ensures_bind.2 <| ensures_phraseFrom.2 <| ensures_pure.2 <| by rw [hf]; exact he

theorem decrement_begins (hg : g.Begins) (hk : s.tokenAhead = some .decrement) {inner : Scope}
    {f : Phrase → Reader Phrase} (hf : ∀ p, NoArrow (f p)) :
    (do advance; f (← g.unary inner) : Reader Phrase).Ensures s fun p _ => s.BeginsWith p.expr := by
  simp only [ensures_bind, ensures_advance hk]
  refine fun u hu => (hg.unary inner u).mono fun p t hp => (hf p t).mono fun q _ hq =>
    ⟨⟨_, hk, .inl rfl⟩, fun v hv => ?_, fun v hv => ?_, fun ha => ?_⟩
  · rw [hv.unique hu]
    exact hp.operand
  · cases hk.symm.trans hv.tokenAhead_eq
  · rw [hq] at ha
    cases ha

variable (hg : g.Begins)

include hg

theorem unaryExpression_begins :
    (g.unaryExpression scope).Ensures s fun p _ => s.BeginsWith p.expr := by
  have hother : ∀ start (p : Phrase), NoArrow
      (if p.role == .target then phraseFrom start (.other [p.expr]) .other
        else failAt p.extent.start) :=
    fun _ _ => noArrow_ite (noArrow_phraseFrom rfl) noArrow_failAt
  simp only [unaryExpression, ensures_bind, ensures_position, ensures_peek]
  split
  · exact begins_of s ‹_› rfl (.inl (noArrow_bind fun _ => noArrow_bind fun p => hother _ p))
  · exact decrement_begins s hg ‹_› fun p => hother _ p
  · refine begins_of s ‹_› rfl (.inl (noArrow_ite ?_ (noArrow_bind fun _ => noArrow_ite ?_ ?_)))
    · exact noArrow_bind fun _ => noArrow_bind fun _ => noArrow_bind fun _ =>
        noArrow_whole rfl fun _ => rfl
    · exact noArrow_bind fun _ => noArrow_whole rfl fun _ => rfl
    · exact noArrow_bind fun _ => noArrow_bind fun _ => noArrow_failAt
  · split
    · rename_i hop
      refine begins_of s ‹_› (opensAlone_of_unaryOp? hop) (.inl ?_)
      refine noArrow_bind fun _ => noArrow_bind fun _ => noArrow_bind fun _ => noArrow_ite ?_ ?_
      · exact noArrow_failAt
      · exact noArrow_whole rfl fun _ => rfl
    · exact postfixed_begins scope s
  · exact ensures_fail

omit hg in
theorem joined_noArrow (op : BinaryOp) (l r : Phrase) : NoArrow (joined op l r) :=
  noArrow_ite noArrow_failAt (noArrow_phraseFrom rfl)

omit hg in
theorem binaryTail_keepsArrow (n least : Nat) (p : Phrase) :
    KeepsArrow p (g.binaryTail scope n least p) := by
  induction n generalizing least p with
  | zero => exact noArrow_fail.keepsArrow
  | succ n ih =>
    rw [binaryTail]
    refine keepsArrow_bind fun k => ?_
    split
    · exact keepsArrow_pure
    · refine keepsArrow_ite keepsArrow_pure (NoArrow.keepsArrow ?_)
      refine noArrow_bind fun left => noArrow_bind fun _ => noArrow_ite noArrow_fail ?_
      exact noArrow_bind fun first => noArrow_bind fun right => noArrow_bind fun right =>
        (joined_noArrow _ left right).bind fun q => ih least q

theorem conditional_begins :
    (g.conditional scope).Ensures s fun p _ => s.BeginsWith p.expr := by
  refine BeginsWith.bind (unaryExpression_begins scope s hg) fun p => ?_
  refine keepsArrow_ite keepsArrow_pure ?_
  refine (binaryTail_keepsArrow scope g.fuel 0 p).bind fun q => ?_
  refine keepsArrow_bind fun _ => keepsArrow_ite (NoArrow.keepsArrow ?_) keepsArrow_pure
  exact noArrow_bind fun _ => noArrow_bind fun _ => noArrow_bind fun _ => noArrow_bind fun _ =>
    noArrow_bind fun _ => noArrow_phraseFrom rfl

omit hg in
theorem yieldExpression_noArrow : NoArrow (g.yieldExpression scope) := by
  refine noArrow_bind fun _ => noArrow_bind fun _ => noArrow_bind fun _ => noArrow_bind fun _ => ?_
  refine noArrow_ite (noArrow_phraseFrom rfl) ?_
  exact noArrow_bind fun _ => noArrow_bind fun _ => noArrow_phraseFrom rfl

theorem assignmentExpression_begins :
    (g.assignmentExpression scope).Ensures s fun p _ => s.BeginsWith p.expr := by
  rw [assignmentExpression, ensures_bind, ensures_position]
  dsimp only
  rw [ensures_bind, ensures_isAhead, ensures_ite]
  refine ⟨fun h => ?_, fun _ => ?_⟩
  · have hk := eq_of_beq (Bool.and_eq_true_iff.1 h).2
    exact begins_of s hk rfl (.inl (yieldExpression_noArrow _))
  · refine BeginsWith.bind (conditional_begins _ s hg) fun p => ?_
    refine keepsArrow_ite keepsArrow_pure (keepsArrow_bind fun k => ?_)
    split
    · refine (noArrow_ite ?_ noArrow_failAt).keepsArrow
      exact noArrow_bind fun _ => noArrow_bind fun _ => noArrow_whole rfl fun _ => rfl
    · exact keepsArrow_pure

end

/-- **First tokens.**  At every level the rules for operands begin with what their results begin
with. -/
theorem grammar_begins (n : Nat) : (grammar n).Begins := by
  induction n with
  | zero => exact ⟨fun _ _ => ensures_fail, fun _ _ => ensures_fail⟩
  | succ n ih =>
    exact ⟨fun scope s => assignmentExpression_begins scope s ih,
      fun scope s => unaryExpression_begins scope s ih⟩

end Grammar

end PageQuery.Script
