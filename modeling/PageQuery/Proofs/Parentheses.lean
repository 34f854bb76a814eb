import PageQuery.Proofs.Extraction
import PageQuery.Proofs.Callbacks

/-!
# Expressions that differ in parentheses

Two scripts whose expressions have the same core differ in parentheses and in where things stand.
Their chains are made of the same calls, with arguments that are `Alike`; only the source of an
argument, cut from the text, can differ.  That source is read in three places, the
`Link.textArguments`, and nowhere else.

* `together_ofLinks`: two runs of links whose calls are related make chains whose calls are related.
* `answer?_congr`: chains of calls that match are lowered to the same query.
* `chain_of_same_core`: what follows for two scripts.
-/

namespace PageQuery

open Script Script.Expr

theorem Condition.ofTagExpr?_core (e : Expr) : ofTagExpr? e.core = ofTagExpr? e := by
  induction e using unparen.induct with
  | case1 e ih => rw [core_paren, ih, ofTagExpr?]
  | case2 e h =>
    cases e with
    | paren e => exact absurd rfl (h e)
    | call start callee args => rw [core_call, ofTagExpr?, ofTagExpr?, tagMembership?_core]
    | _ => rfl

/-! ### Arguments -/

namespace Script.Expr

/-- the expression is a string, a template without substitutions or a number, so its value gives the
text of an argument -/
def IsLiteral (e : Expr) : Prop := (∃ t, e.IsText t) ∨ ∃ x, e.IsNumber x

theorem isLiteral_paren (e : Expr) : (paren e).IsLiteral ↔ e.IsLiteral := by
  simp only [IsLiteral, isText_paren, isNumber_paren]

/-- the text that the value of a literal gives -/
def givenText? (e : Expr) : Option String :=
  match e.unparen with
  | .string t => some t
  | .template [t] [] => some t
  | .number x => some (Number.scriptText x)
  | _ => none

theorem givenText?_core (e : Expr) : e.core.givenText? = e.givenText? := by
  unfold givenText?
  rw [unparen_core, ← core_unparen]
  have hne := unparen_ne_paren e
  generalize e.unparen = i at hne
  cases i with
  | paren i => exact absurd rfl (hne i)
  | template chunks es => rcases chunks with _ | ⟨t, _ | ⟨u, chunks⟩⟩ <;> cases es <;> rfl
  | _ => rfl

theorem givenText?_eq_some {e : Expr} {t : String} :
    e.givenText? = some t ↔ e.IsText t ∨ ∃ x, e.IsNumber x ∧ Number.scriptText x = t := by
  refine Iff.trans ?_ <| unparen_iff (e := e)
    (P := fun e => e.IsText t ∨ ∃ x, e.IsNumber x ∧ Number.scriptText x = t)
    fun e => by simp only [isText_paren, isNumber_paren]
  rw [givenText?]
  constructor
  · intro h
    split at h
    · rename_i u hu
      exact Option.some.inj h ▸ hu ▸ .inl (.string u)
    · rename_i u hu
      exact Option.some.inj h ▸ hu ▸ .inl (.template u)
    · rename_i x hx
      exact .inr ⟨x, hx ▸ .number x, Option.some.inj h⟩
    · cases h
  · have hne := unparen_ne_paren e
    generalize e.unparen = i at hne
    rintro (h | ⟨x, h, rfl⟩)
    · cases h with
      | string t => rfl
      | template t => rfl
      | paren _ => exact absurd rfl (hne _)
    · cases h with
      | number x => rfl
      | paren _ => exact absurd rfl (hne _)

theorem isSome_givenText?_iff {e : Expr} : e.givenText?.isSome = true ↔ e.IsLiteral := by
  simp only [Option.isSome_iff_exists, givenText?_eq_some, IsLiteral]
  constructor
  · rintro ⟨t, h | ⟨x, h, -⟩⟩
    · exact .inl ⟨t, h⟩
    · exact .inr ⟨x, h⟩
  · rintro (⟨t, h⟩ | ⟨x, h⟩)
    · exact ⟨t, .inl h⟩
    · exact ⟨_, .inr ⟨x, h, rfl⟩⟩

theorem isSubstituted_core {e : Expr} : e.core.IsSubstituted ↔ e.IsSubstituted := by
  unfold IsSubstituted
  rw [unparen_core, ← core_unparen]
  have hne := unparen_ne_paren e
  generalize e.unparen = i at hne
  cases i with
  | paren i => exact absurd rfl (hne i)
  | template chunks es =>
    have hnil : coreAll es = [] ↔ es = [] := by rw [coreAll_eq, List.map_eq_nil_iff]
    simp only [core, template.injEq]
    constructor
    · rintro ⟨_, _, ⟨rfl, rfl⟩, h⟩
      exact ⟨_, _, ⟨rfl, rfl⟩, fun t ht he => h t ht (hnil.2 he)⟩
    · rintro ⟨_, _, ⟨rfl, rfl⟩, h⟩
      exact ⟨_, _, ⟨rfl, rfl⟩, fun t ht he => h t ht (hnil.1 he)⟩
  | _ => simp [core]

end Script.Expr

/-- two arguments with the same expression, parentheses and places aside, and for a literal with the
same text -/
def Arg.Alike (a b : Arg) : Prop :=
  ∃ e f, a.node = some e ∧ b.node = some f ∧ e.core = f.core ∧ (e.IsLiteral → a.text = b.text)

/-- two calls of one method with arguments that are alike -/
structure MethodCall.Alike (m n : MethodCall) : Prop where
  method : m.method = n.method
  args : List.Forall₂ Arg.Alike m.args n.args

namespace Chain

/-- what a chain keeps of an argument that has a text -/
def argGiven (s : Source) (a : Argument Expr) : Arg :=
  ⟨a.value.givenText?.getD (s.slice a.extent), some a.value.unparen⟩

theorem argOf_eq_ok {s : Source} {a : Argument Expr} {b : Arg} :
    argOf s a = .ok b ↔ ¬ a.value.IsSubstituted ∧ b = argGiven s a := by
  by_cases hs : a.value.IsSubstituted
  · rw [argOf_eq_error.2 ⟨rfl, hs⟩]
    simp [hs]
  · have hok : argOf s a = .ok (argGiven s a) := by
      cases h : argOf s a with
      | error e => exact absurd (argOf_eq_error.1 h).2 hs
      | ok b =>
        unfold argOf at h
        unfold argGiven givenText?
        dsimp only at h
        split at h <;> cases h <;> simp_all
    rw [hok]
    simp [hs, eq_comm]

theorem mapM_argOf_eq_ok {s : Source} {args : List (Argument Expr)} {as : List Arg} :
    args.mapM (argOf s) = .ok as ↔
      (∀ a ∈ args, ¬ a.value.IsSubstituted) ∧ as = args.map (argGiven s) := by
  rw [mapM_eq_ok]
  simp only [argOf_eq_ok]
  induction args generalizing as with
  | nil => simp
  | cons a args ih => simp [List.forall₂_cons_left_iff, ih]; grind

/-! ### Links -/

/-- the link with the cores of its arguments, its place aside -/
def Link.core (l : Link) : Link := ⟨0, l.method, l.args.map Argument.core⟩

mutual
theorem links_core : ∀ e : Expr, links e.core = (links e).map Link.core
  | .paren e => links_core e
  | .call start (some callee) args => by
    have hmethod : callee.core.member?.map (·.2) = callee.member?.map (·.2) := by
      rw [member?_core, Option.map_map]
      rfl
    simp only [core_call, Option.map_some, links, objectLinks_core callee, hmethod]
    rfl
  | .call start none args => by
    simp only [core_call, Option.map_none, links]
    rfl
  | .identifier _ | .string _ | .number _ | .bool _ | .null | .bigint | .regex | .template _ _
  | .array _ | .object | .function | .arrow _ _ _ | .field _ _ | .index _ _ | .privateField _
  | .optional _ | .unary _ _ | .binary _ _ _ | .other _ => rfl
theorem objectLinks_core : ∀ e : Expr, objectLinks e.core = (objectLinks e).map Link.core
  | .paren e => objectLinks_core e
  | .field o n => links_core o
  | .index o k => by
    simp only [core_index, objectLinks, stringValue?_core]
    split
    · exact links_core o
    · rfl
  | .identifier _ | .string _ | .number _ | .bool _ | .null | .bigint | .regex | .template _ _
  | .array _ | .object | .function | .arrow _ _ _ | .call _ _ _ | .privateField _
  | .optional _ | .unary _ _ | .binary _ _ _ | .other _ => rfl
end

/-- the arguments of a call that are read as a text: the first one of the root method and of a limit,
and the second one of a sort -/
def Link.textArguments (d : Dialect) (l : Link) : List (Argument Expr) :=
  if l.method = some d.root then l.args.take 1
  else if l.method = some "limit" then l.args.take 1
  else if l.method = some "sort" then (l.args.drop 1).take 1
  else []

/-- the source of the pages that the arguments of the root method give -/
def sourceGiven (s : Source) (args : List (Argument Expr)) : String :=
  ((args.map (argGiven s)).head?.map (·.text)).getD ""

/-- Two links that fail alike, and otherwise give calls related by `R`, or sources related by `S` if they
are links of the root method. -/
structure Link.Related (s s' : Source) (d : Dialect) (R : MethodCall → MethodCall → Prop)
    (S : String → String → Prop) (l l' : Link) : Prop where
  method : l.method = l'.method
  fails : (∃ a ∈ l.args, a.value.IsSubstituted) ↔ ∃ a ∈ l'.args, a.value.IsSubstituted
  root : l.method = some d.root → S (sourceGiven s l.args) (sourceGiven s' l'.args)
  call : ∀ m, l.method = some m → m ≠ d.root →
    R ⟨m, l.args.map (argGiven s)⟩ ⟨m, l'.args.map (argGiven s')⟩

/-- **Chains of related links.**  Links that are related one by one make chains whose calls are
related one by one, or no chain at all. -/
theorem together_ofLinks {s s' : Source} {d : Dialect} {R : MethodCall → MethodCall → Prop}
    {S : String → String → Prop} (hempty : S "" "") {ls ls' : List Link}
    (h : List.Forall₂ (Link.Related s s' d R S) ls ls') {after after' : List MethodCall}
    (hafter : List.Forall₂ R after after') :
    Together (fun c c' => S c.source c'.source ∧ List.Forall₂ R c.calls c'.calls)
      (ofLinks s d after ls) (ofLinks s' d after' ls') := by
  induction h generalizing after after' with
  | nil => exact .ok ⟨hempty, hafter⟩
  | @cons l l' ls ls' hl hls ih =>
    obtain ⟨start, method, args⟩ := l
    obtain ⟨start', method', args'⟩ := l'
    obtain ⟨rfl, hfails, hsource, hcall⟩ := hl
    cases method with
    | none => exact .error
    | some m =>
      have hargs : Together (fun _ _ => True) (args.mapM (argOf s)) (args'.mapM (argOf s')) := by
        refine .of_error_iff ?_
        simp only [mapM_argOf_eq_error, exists_eq_left]
        exact hfails
      refine hargs.bind fun as as' has has' _ => ?_
      obtain ⟨-, rfl⟩ := mapM_argOf_eq_ok.1 has
      obtain ⟨-, rfl⟩ := mapM_argOf_eq_ok.1 has'
      by_cases hroot : m = d.root
      · have hnil : ls.isEmpty = ls'.isEmpty := by
          cases hls <;> rfl
        simp only [hroot, beq_self_eq_true, if_true, hnil]
        split
        · exact .ok ⟨hsource (congrArg some hroot), hafter⟩
        · exact .error
      · have hne : (m == d.root) = false := beq_false_of_ne hroot
        simp only [hne]
        exact ih (.cons (hcall m rfl hroot) hafter)

/-! ### Links with the same core -/

section

variable {s s' : Source} {d : Dialect} {a a' : Argument Expr} {l l' : Link}

theorem core_value (h : a.core = a'.core) : a.value.core = a'.value.core :=
  congrArg Argument.value h

theorem argGiven_matches (h : a.core = a'.core) : (argGiven s a).Matches (argGiven s' a') := by
  have hexpr : (argGiven s a).expr.toOption.map Expr.core =
      (argGiven s' a').expr.toOption.map Expr.core := by
    show some a.value.unparen.core = some a'.value.unparen.core
    rw [core_unparen, core_unparen, core_value h]
  constructor
  · rw [Arg.condition?_eq, Arg.condition?_eq, hexpr]
  · rw [Arg.path?_eq, Arg.path?_eq, hexpr]

theorem argGiven_text (h : a.core = a'.core) (ha : a.value.IsLiteral) :
    (argGiven s a).text = (argGiven s' a').text := by
  have htext : a.value.givenText? = a'.value.givenText? := by
    rw [← givenText?_core, core_value h, givenText?_core]
  obtain ⟨t, ht⟩ := Option.isSome_iff_exists.1 (isSome_givenText?_iff.2 ha)
  simp only [argGiven, ← htext, ht, Option.getD_some]

theorem argGiven_alike (h : a.core = a'.core) : (argGiven s a).Alike (argGiven s' a') := by
  refine ⟨_, _, rfl, rfl, ?_, fun hl => argGiven_text h ?_⟩
  · rw [core_unparen, core_unparen, core_value h]
  · exact (unparen_iff (P := IsLiteral) isLiteral_paren a.value).1 hl

theorem method_of_core (h : l.core = l'.core) : l.method = l'.method := by
  show l.core.method = l'.core.method
  rw [h]

theorem forall₂_core (h : l.core = l'.core) :
    List.Forall₂ (fun a a' => a.core = a'.core) l.args l'.args := by
  have hargs : l.args.map Argument.core = l'.args.map Argument.core := congrArg Link.args h
  rwa [← List.forall₂_eq_eq_eq, List.forall₂_map_left_iff, List.forall₂_map_right_iff] at hargs

theorem substituted_iff_of_core (h : l.core = l'.core) :
    (∃ a ∈ l.args, a.value.IsSubstituted) ↔ ∃ a ∈ l'.args, a.value.IsSubstituted := by
  have hcore : ∀ l : Link, (∃ a ∈ l.args, a.value.IsSubstituted) ↔
      ∃ a ∈ l.core.args, a.value.IsSubstituted := by
    intro l
    simp [Link.core, Argument.core, isSubstituted_core]
  rw [hcore, h, ← hcore]

/-- Links with the same core give calls that are alike, and the same source if it is a literal. -/
theorem related_alike {P : Prop} (h : l.core = l'.core)
    (hroot : P → l.method = some d.root → ∀ a ∈ l.args.head?, a.value.IsLiteral) :
    Link.Related s s' d MethodCall.Alike (fun t t' => P → t = t') l l' where
  method := method_of_core h
  fails := substituted_iff_of_core h
  root := by
    intro hm hp
    have hliteral := hroot hp hm
    have hargs := forall₂_core h
    revert hargs hliteral
    unfold sourceGiven
    generalize l.args = args
    generalize l'.args = args'
    intro hliteral hargs
    cases hargs with
    | nil => rfl
    | cons ha _ => exact argGiven_text ha (hliteral _ rfl)
  call := fun m _ _ => by
    refine ⟨rfl, ?_⟩
    rw [List.forall₂_map_left_iff, List.forall₂_map_right_iff]
    exact (forall₂_core h).imp fun _ _ => argGiven_alike

/-- the text of the argument at a place, which both calls have or neither -/
theorem text_of_forall₂ {args args' : List (Argument Expr)} {n : Nat}
    (h : List.Forall₂ (fun a a' => (argGiven s a).text = (argGiven s' a').text)
      ((args.drop n).take 1) ((args'.drop n).take 1)) :
    (args.map (argGiven s))[n]?.map (·.text) = (args'.map (argGiven s'))[n]?.map (·.text) := by
  have hhead : ∀ {as as' : List (Argument Expr)},
      List.Forall₂ (fun a a' => (argGiven s a).text = (argGiven s' a').text) as as' →
      as.head?.map (fun a => (argGiven s a).text) = as'.head?.map fun a => (argGiven s' a).text := by
    intro as as' h
    cases h with
    | nil => rfl
    | cons ha _ => exact congrArg some ha
  have hn := hhead h
  simp only [List.head?_take, List.head?_drop, Nat.one_ne_zero, if_false] at hn
  rw [List.getElem?_map, List.getElem?_map, Option.map_map, Option.map_map]
  exact hn

/-- Links with the same core match if what is read of their arguments as a text is the same. -/
theorem related_matches (h : l.core = l'.core)
    (htext : List.Forall₂ (fun a a' => (argGiven s a).text = (argGiven s' a').text)
      (l.textArguments d) (l'.textArguments d)) :
    Link.Related s s' d MethodCall.Matches Eq l l' where
  method := method_of_core h
  fails := substituted_iff_of_core h
  root := by
    intro hroot
    have hroot' : l'.method = some d.root := (method_of_core h).symm.trans hroot
    rw [Link.textArguments, Link.textArguments, if_pos hroot, if_pos hroot'] at htext
    have hfirst := text_of_forall₂ (n := 0) htext
    rw [sourceGiven, sourceGiven, List.head?_eq_getElem?, List.head?_eq_getElem?, hfirst]
  call := by
    intro m hm hroot
    have hm' : l'.method = some m := (method_of_core h).symm.trans hm
    have hne : some m ≠ some d.root := fun he => hroot (Option.some.inj he)
    simp only [Link.textArguments, hm, hm', if_neg hne] at htext
    refine ⟨rfl, ?_, ?_, ?_, ?_⟩
    · simpa using (forall₂_core h).length_eq
    · have hargs := forall₂_core h
      revert hargs
      generalize l.args = args
      generalize l'.args = args'
      intro hargs _ a ha b hb
      cases hargs with
      | nil => cases ha
      | cons hab _ =>
        cases ha
        cases hb
        exact argGiven_matches hab
    · intro hlimit
      rw [if_pos (congrArg some hlimit), if_pos (congrArg some hlimit)] at htext
      exact text_of_forall₂ (n := 0) htext
    · rintro rfl
      exact text_of_forall₂ (n := 1) htext

end

/-! ### Chains -/

theorem together_ofSource {s s' : Source} {d : Dialect} {R : MethodCall → MethodCall → Prop}
    {S : String → String → Prop} (hempty : S "" "")
    (h : List.Forall₂ (Link.Related s s' d R S) (links s.expr) (links s'.expr)) :
    Together (fun c c' => S c.source c'.source ∧ List.Forall₂ R c.calls c'.calls)
      (ofSource s d) (ofSource s' d) := by
  unfold ofSource
  revert h
  generalize links s.expr = ls
  generalize links s'.expr = ls'
  intro h
  cases h with
  | nil => exact .error
  | cons hl hls => exact together_ofLinks hempty (.cons hl hls) .nil

theorem links_of_core {e e' : Expr} (h : e.core = e'.core) :
    List.Forall₂ (fun l l' => l.core = l'.core) (links e) (links e') := by
  have hlinks : (links e).map Link.core = (links e').map Link.core := by
    rw [← links_core, h, links_core]
  rwa [← List.forall₂_eq_eq_eq, List.forall₂_map_left_iff, List.forall₂_map_right_iff] at hlinks

/-- the arguments that are read as a text are literals, which give the same text wherever they are -/
theorem textArguments_of_core {s s' : Source} {d : Dialect} {l l' : Link} (h : l.core = l'.core)
    (hl : ∀ a ∈ l.textArguments d, a.value.IsLiteral) :
    List.Forall₂ (fun a a' => (argGiven s a).text = (argGiven s' a').text)
      (l.textArguments d) (l'.textArguments d) := by
  have hsame : List.Forall₂ (fun a a' => a.core = a'.core)
      (l.textArguments d) (l'.textArguments d) := by
    have hargs := forall₂_core h
    unfold Link.textArguments
    rw [method_of_core h]
    split
    · exact List.forall₂_take 1 hargs
    · split
      · exact List.forall₂_take 1 hargs
      · split
        · exact List.forall₂_take 1 (List.forall₂_drop 1 hargs)
        · exact .nil
  exact ((List.forall₂_and_left _ _).2 ⟨hl, hsame⟩).imp fun _ _ ha => argGiven_text ha.2 ha.1

end Chain

/-! ### Queries -/

namespace Translation

theorem toOption_mapM_of_forall₂ {α β ε : Type} {f : α → Except ε β} {xs ys : List α}
    (h : List.Forall₂ (fun x y => (f x).toOption = (f y).toOption) xs ys) :
    (xs.mapM f).toOption = (ys.mapM f).toOption := by
  induction h with
  | nil => rfl
  | cons hx _ ih => simp only [List.mapM_cons, toOption_bind, hx, ih]

/-- Chains from one source whose calls match are lowered to the same query. -/
theorem answer?_congr {c c' : Chain} (hsource : c.source = c'.source)
    (h : List.Forall₂ MethodCall.Matches c.calls c'.calls) (d : Dialect) :
    answer? c d = answer? c' d := by
  have hclauses : (c.calls.mapM Clause.ofCall).toOption = (c'.calls.mapM Clause.ofCall).toOption :=
    toOption_mapM_of_forall₂ (h.imp fun _ _ => clauseOf_congr)
  unfold answer? ofChain
  rw [toOption_bind, toOption_bind, hclauses, hsource, Option.map_bind, Option.map_bind]
  rfl

/-- what the chain that an expression is is lowered to -/
def ofSource? (s : Source) (d : Dialect) : Option (String × Clauses × List String) :=
  (Chain.ofSource s d).toOption.bind fun c => answer? c d

theorem ofSource?_congr {s s' : Source} {d : Dialect}
    (h : List.Forall₂ (Chain.Link.Related s s' d MethodCall.Matches Eq)
      (Chain.links s.expr) (Chain.links s'.expr)) :
    ofSource? s d = ofSource? s' d :=
  (Chain.together_ofSource rfl h).toOption_bind_eq fun _ _ _ _ hc => answer?_congr hc.1 hc.2 d

/-- **Parentheses do not matter.**  Let two scripts have expressions that are the same but for
parentheses and places.  Both are chains of the same calls with arguments that are alike, and from the
same source if it is a literal, or neither is a chain.  If the arguments that are read as a text are
literals, both are lowered to the same query, or neither is.  And the expressions state the same
condition, and are the same operand and path. -/
theorem answer_of_same_core (s s' : Source) (d : Dialect) (h : s.expr.core = s'.expr.core) :
    Together (fun c c' => ((∀ l ∈ Chain.links s.expr, l.method = some d.root →
          ∀ a ∈ l.args.head?, a.value.IsLiteral) → c.source = c'.source) ∧
        List.Forall₂ MethodCall.Alike c.calls c'.calls)
      (Chain.ofSource s d) (Chain.ofSource s' d) ∧
    ((∀ l ∈ Chain.links s.expr, ∀ a ∈ l.textArguments d, a.value.IsLiteral) →
      ofSource? s d = ofSource? s' d) ∧
    Condition.ofTagExpr? s.expr = Condition.ofTagExpr? s'.expr ∧
    ∀ p, Condition.ofExpr p s.expr = Condition.ofExpr p s'.expr ∧
      Condition.operandOf p s.expr = Condition.operandOf p s'.expr ∧
      s.expr.path? p = s'.expr.path? p := by
  have hlinks := Chain.links_of_core h
  refine ⟨?_, fun hliteral => ?_, ?_, fun p => ⟨?_, ?_, ?_⟩⟩
  · have hmem := (List.forall₂_and_left _ _).2
      ⟨fun l (hl : l ∈ Chain.links s.expr) => hl, hlinks⟩
    have hrelated : List.Forall₂ (Chain.Link.Related s s' d MethodCall.Alike fun t t' =>
        (∀ l ∈ Chain.links s.expr, l.method = some d.root →
          ∀ a ∈ l.args.head?, a.value.IsLiteral) → t = t')
        (Chain.links s.expr) (Chain.links s'.expr) :=
      hmem.imp fun l _ hl => Chain.related_alike hl.2 fun hroot => hroot l hl.1
    exact Chain.together_ofSource (fun _ => rfl) hrelated
  · have hmem := (List.forall₂_and_left _ _).2 ⟨hliteral, hlinks⟩
    refine ofSource?_congr (hmem.imp fun _ _ hl => ?_)
    exact Chain.related_matches hl.2 (Chain.textArguments_of_core hl.2 hl.1)
  · rw [← Condition.ofTagExpr?_core, h, Condition.ofTagExpr?_core]
  · rw [← Condition.ofExpr_core, h, Condition.ofExpr_core]
  · rw [← Condition.operandOf_core, h, Condition.operandOf_core]
  · rw [← path?_core, h, path?_core]

/-- parentheses around an object, a callee, an argument, a callback and the body of one -/
theorem wrappedChain_same_answer :
    let plain : Expr := .call 0 (some (.field (.call 0 (some (.field (.identifier "dv") "pages"))
      [⟨false, ⟨9, 13⟩, .string "#a"⟩]) "where"))
      [⟨false, ⟨21, 29⟩, .arrow false [some "p"] (some (.field (.identifier "p") "a"))⟩]
    let wrapped : Expr := .call 0 (some (.field (.paren (.call 1
      (some (.paren (.field (.paren (.identifier "dv")) "pages")))
      [⟨false, ⟨16, 20⟩, .paren (.string "#a")⟩])) "where"))
      [⟨false, ⟨31, 41⟩, .paren (.arrow false [some "p"]
        (some (.paren (.field (.identifier "p") "a"))))⟩]
    ofSource? ⟨"((dv).pages)((\"#a\")).where((p => (p.a)))", wrapped, []⟩ {} =
        ofSource? ⟨"dv.pages(\"#a\").where(p => p.a)", plain, []⟩ {} ∧
      (ofSource? ⟨"dv.pages(\"#a\").where(p => p.a)", plain, []⟩ {}).map (·.1) =
        some "LIST WHERE contains(file.tags, \"#a\") AND a" := by
  intro plain wrapped
  have hcore : wrapped.core = plain.core := rfl
  have hliteral : ∀ l ∈ Chain.links wrapped, ∀ a ∈ l.textArguments {}, a.value.IsLiteral := by
    intro l hl a ha
    have htag : (paren (.string "#a")).IsLiteral := Or.inl ⟨"#a", .paren (.string "#a")⟩
    simp only [wrapped, Chain.links, Chain.objectLinks, member?, Option.map_some, List.mem_cons,
      List.not_mem_nil, or_false] at hl
    rcases hl with rfl | rfl
    · simp [Chain.Link.textArguments] at ha
    · simp [Chain.Link.textArguments] at ha
      exact ha ▸ htag
  exact ⟨(answer_of_same_core ⟨_, wrapped, []⟩ ⟨_, plain, []⟩ {} hcore).2.1 hliteral,
    by decide +kernel⟩

end Translation

end PageQuery
