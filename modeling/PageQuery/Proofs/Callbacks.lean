import PageQuery.Query.Translation
import PageQuery.Proofs.Core
import PageQuery.Proofs.Collect

/-!
# What calls take for callbacks

Every call but a limit looks at the expression of its first argument, and at that only through the
condition it states and the path it selects.  Calls `Matches` that take their arguments for the same
callbacks and texts, and calls that match add the same to a query (`clauseOf_congr`).

A chain that was written out and read back has lost the expressions of its arguments:
`Chain.withoutNodes`.  `Arg.Rereads` says that an argument is taken for the same callback when it is
read again from its text, and `answer?_withoutNodes` that a chain of such arguments is lowered to the
same query.
-/

namespace PageQuery

open Script

/-! ### Arguments -/

/-- the argument without the expression it was read as -/
def Arg.withoutNode (a : Arg) : Arg := ⟨a.text, none⟩

/-- the condition that an argument states -/
def Arg.condition? (a : Arg) : Option Condition := (Condition.ofArg a).toOption

/-- the path that an argument selects -/
def Arg.path? (a : Arg) : Option (List String) := (Selector.pathOf a).toOption

/-- a call can take the argument for a callback -/
def Arg.IsCallback (a : Arg) : Prop := a.condition?.isSome ∨ a.path?.isSome

/-- the argument comes out the same when it is read again from its text -/
structure Arg.Rereads (a : Arg) : Prop where
  condition : a.condition? = a.withoutNode.condition?
  path : a.path? = a.withoutNode.path?

theorem toOption_bind {α β ε : Type} (x : Except ε α) (f : α → Except ε β) :
    (x >>= f).toOption = x.toOption.bind fun a => (f a).toOption := by
  cases x <;> rfl

/-- Both readings see the core of the expression only. -/
theorem Arg.condition?_eq (a : Arg) : a.condition? = (a.expr.toOption.map Expr.core).bind fun e =>
    e.lambda?.bind fun l => (Condition.ofExpr l.1 l.2).toOption := by
  rw [condition?, Condition.ofArg, toOption_bind, Option.bind_map]
  congr 1
  funext e
  simp only [Function.comp_apply, Expr.lambda?_core]
  rcases e.lambda? with _ | ⟨p, body⟩
  · rfl
  · simp

theorem Arg.path?_eq (a : Arg) : a.path? = (a.expr.toOption.map Expr.core).bind fun e =>
    e.lambda?.bind fun l => l.2.path? l.1 := by
  rw [path?, Selector.pathOf, toOption_bind, Option.bind_map]
  congr 1
  funext e
  simp only [Function.comp_apply, Expr.lambda?_core, Selector.pathOfExpr?]
  rcases e.lambda? with _ | ⟨p, body⟩
  · rfl
  · simp only [Option.bind_some, Option.map_some, Expr.path?_core]
    cases body.path? p <;> rfl

/-- An argument whose expression has the same core when it is read again rereads. -/
theorem Arg.Rereads.of_core {a : Arg}
    (h : a.expr.toOption.map Expr.core = a.withoutNode.expr.toOption.map Expr.core) :
    a.Rereads := by
  constructor
  · rw [condition?_eq, condition?_eq, h]
  · rw [path?_eq, path?_eq, h]

/-- An argument that is no callback before and after rereads. -/
theorem Arg.Rereads.of_not_isCallback {a : Arg} (h : ¬ a.IsCallback)
    (h' : ¬ a.withoutNode.IsCallback) : a.Rereads := by
  simp only [IsCallback, not_or, Option.not_isSome_iff_eq_none] at h h'
  exact ⟨h.1.trans h'.1.symm, h.2.trans h'.2.symm⟩

/-! ### Calls -/

/-- the call with its arguments without their expressions -/
def MethodCall.withoutNodes (m : MethodCall) : MethodCall :=
  ⟨m.method, m.args.map Arg.withoutNode⟩

theorem toOption_key (a : Arg) : (Selector.key a).toOption = a.path?.map Selector.pathText := by
  rw [Selector.key, toOption_bind, Arg.path?, Option.map_eq_bind]
  rfl

theorem toOption_singleField (a : Arg) :
    (Selector.singleField a).toOption = a.path?.bind fun path =>
      match path with
      | [n] => some n
      | _ => none := by
  rw [Selector.singleField, toOption_bind, Arg.path?]
  congr 1
  funext path
  rcases path with _ | ⟨n, _ | ⟨m, path⟩⟩ <;> rfl

/-- two arguments are taken for the same callbacks -/
structure Arg.Matches (a b : Arg) : Prop where
  condition : a.condition? = b.condition?
  path : a.path? = b.path?

/-- Two calls that add the same to a query: their first arguments are taken for the same callbacks,
those of a limit apart, and what they read as a text is the same, the first argument of a limit and the
second one of a sort. -/
structure MethodCall.Matches (m n : MethodCall) : Prop where
  method : m.method = n.method
  count : m.args.length = n.args.length
  callback : m.method ≠ "limit" → ∀ a ∈ m.args.head?, ∀ b ∈ n.args.head?, a.Matches b
  limit : m.method = "limit" → m.args[0]?.map (·.text) = n.args[0]?.map (·.text)
  direction : m.method = "sort" → m.args[1]?.map (·.text) = n.args[1]?.map (·.text)

theorem soleArgument_congr {m n : MethodCall} {α : Type} {f : Arg → Except QueryError α}
    (hcount : m.args.length = n.args.length)
    (h : ∀ a ∈ m.args.head?, ∀ b ∈ n.args.head?, (f a).toOption = (f b).toOption) :
    (Clause.soleArgument m >>= f).toOption = (Clause.soleArgument n >>= f).toOption := by
  obtain ⟨method, args⟩ := m
  obtain ⟨method', args'⟩ := n
  rcases args with _ | ⟨a, _ | ⟨a', args⟩⟩ <;> rcases args' with _ | ⟨b, _ | ⟨b', args'⟩⟩ <;>
    first
    | rfl
    | exact h a rfl b rfl
    | simp at hcount

theorem sortKeyOf_congr {args args' : List Arg} (hcount : args.length = args'.length)
    (hkey : ∀ a ∈ args.head?, ∀ b ∈ args'.head?,
      (Selector.key a).toOption = (Selector.key b).toOption)
    (htext : args[1]?.map (·.text) = args'[1]?.map (·.text)) :
    (Clause.sortKeyOf args).toOption = (Clause.sortKeyOf args').toOption := by
  match args, args', hcount with
  | [], [], _ => rfl
  | [k], [k'], _ => simp only [Clause.sortKeyOf, toOption_bind, hkey k rfl k' rfl]
  | [k, e], [k', e'], _ =>
    have he : e.text = e'.text := Option.some.inj htext
    simp only [Clause.sortKeyOf, toOption_bind, hkey k rfl k' rfl, he]
  | _ :: _ :: _ :: _, _ :: _ :: _ :: _, _ => rfl

theorem limitOf_congr {args args' : List Arg}
    (htext : args[0]?.map (·.text) = args'[0]?.map (·.text)) :
    Clause.limitOf args = Clause.limitOf args' := by
  match args, args', htext with
  | [], [], _ => rfl
  | [], _ :: _, h => cases h
  | _ :: _, [], h => cases h
  | a :: _, b :: _, h =>
    have hab : a.text = b.text := Option.some.inj h
    simp only [Clause.limitOf, List.head?_cons, Option.map_some, Option.bind_some, hab]

theorem clauseOf_congr {m n : MethodCall} (h : m.Matches n) :
    (Clause.ofCall m).toOption = (Clause.ofCall n).toOption := by
  obtain ⟨hmethod, hcount, hcallback, hlimit, hdirection⟩ := h
  unfold Clause.ofCall
  rw [← hmethod]
  by_cases hl : m.method = "limit"
  · rw [hl]
    exact congrArg some (limitOf_congr (hlimit hl))
  have hcondition : (Clause.conditionOf m).toOption = (Clause.conditionOf n).toOption :=
    soleArgument_congr hcount fun a ha b hb => by
      rw [toOption_bind, toOption_bind]
      exact congrArg (Option.bind · _) (hcallback hl a ha b hb).condition
  have hkey : ∀ a ∈ m.args.head?, ∀ b ∈ n.args.head?,
      (Selector.key a).toOption = (Selector.key b).toOption := fun a ha b hb => by
    rw [toOption_key, toOption_key, (hcallback hl a ha b hb).path]
  have hfield : ∀ a ∈ m.args.head?, ∀ b ∈ n.args.head?,
      (Selector.singleField a).toOption = (Selector.singleField b).toOption := fun a ha b hb => by
    rw [toOption_singleField, toOption_singleField, (hcallback hl a ha b hb).path]
  have hsole : ∀ (g : Arg → Except QueryError String) (f : String → Clause),
      (∀ a ∈ m.args.head?, ∀ b ∈ n.args.head?, (g a).toOption = (g b).toOption) →
      (do pure (f (← g (← Clause.soleArgument m))) : Except QueryError Clause).toOption =
        (do pure (f (← g (← Clause.soleArgument n)))).toOption :=
    fun g f hg => soleArgument_congr hcount fun a ha b hb => by
      rw [toOption_bind, toOption_bind, hg a ha b hb]
  split
  · exact hcondition
  · exact hcondition
  · exact hsole _ _ hkey
  · exact hsole _ _ hfield
  · rename_i hsort
    rw [toOption_bind, toOption_bind, sortKeyOf_congr hcount hkey (hdirection hsort)]
  · exact hsole _ _ hkey
  · rename_i hlimit
    exact absurd hlimit hl
  · rfl

theorem matches_withoutNodes {m : MethodCall}
    (h : m.method ≠ "limit" → ∀ a ∈ m.args.head?, a.Rereads) : m.Matches m.withoutNodes where
  method := rfl
  count := (List.length_map _).symm
  callback := by
    intro hmethod a ha b hb
    have hb : b = a.withoutNode := by
      rw [MethodCall.withoutNodes, List.head?_map, Option.mem_def.1 ha] at hb
      exact (Option.some.inj hb).symm
    rw [hb]
    exact ⟨(h hmethod a ha).condition, (h hmethod a ha).path⟩
  limit := by simp [MethodCall.withoutNodes, Arg.withoutNode, Function.comp_def]
  direction := by simp [MethodCall.withoutNodes, Arg.withoutNode, Function.comp_def]

/-! ### Chains -/

/-- the chain with its calls without the expressions of their arguments -/
def Chain.withoutNodes (c : Chain) : Chain := ⟨c.source, c.calls.map MethodCall.withoutNodes⟩

/-- what a chain is lowered to: the text of the query, its clauses and the warnings -/
def Translation.answer? (c : Chain) (d : Dialect) : Option (String × Clauses × List String) :=
  (Translation.ofChain c d).toOption.map fun t => (t.query, t.clauses, t.warnings)

theorem toOption_mapM_congr {α β ε : Type} {f g : α → Except ε β} {xs : List α}
    (h : ∀ x ∈ xs, (f x).toOption = (g x).toOption) :
    (xs.mapM f).toOption = (xs.mapM g).toOption := by
  induction xs with
  | nil => rfl
  | cons x xs ih =>
    obtain ⟨hx, hxs⟩ := List.forall_mem_cons.1 h
    simp only [List.mapM_cons, toOption_bind, hx, ih hxs]

/-- A chain whose callbacks reread is lowered to the same query without its expressions. -/
theorem Translation.answer?_withoutNodes {c : Chain}
    (h : ∀ m ∈ c.calls, m.method ≠ "limit" → ∀ a ∈ m.args.head?, a.Rereads) (d : Dialect) :
    answer? c d = answer? c.withoutNodes d := by
  have hclauses : (c.calls.mapM Clause.ofCall).toOption =
      (c.withoutNodes.calls.mapM Clause.ofCall).toOption := by
    rw [Chain.withoutNodes, List.mapM_map]
    exact toOption_mapM_congr fun m hm => clauseOf_congr (matches_withoutNodes (h m hm))
  unfold answer? ofChain
  rw [toOption_bind, toOption_bind, hclauses, Option.map_bind, Option.map_bind]
  rfl

end PageQuery
