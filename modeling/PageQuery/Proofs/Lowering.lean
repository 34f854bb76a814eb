import PageQuery.Query.Translation
import PageQuery.Proofs.Collect

/-!
# The lowering of a chain

What it takes for each step of the lowering to succeed, and what it then gives: `ofChain_eq_ok` for
chains, `ofText_eq_ok` for texts.

A chain can also be lowered in one pass, call by call: a `Draft` holds the clauses and the warnings so
far, each call writes into it what it adds, and the pass ends at the first call that adds nothing.
`ofChain_eq_foldlM` says that this gives the same.
-/

namespace PageQuery

open Script

namespace Clause

theorem soleArgument_eq_ok {m : MethodCall} {a : Arg} :
    soleArgument m = .ok a ↔ m.args = [a] := by
  unfold soleArgument
  constructor
  · intro h
    split at h
    · rename_i hb
      cases h
      exact hb
    · cases h
  · intro h
    rw [h]

theorem conditionOf_eq_ok {m : MethodCall} {c : Clause} :
    conditionOf m = .ok c ↔
      ∃ a d, m.args = [a] ∧ Condition.ofArg a = .ok d ∧ c = .condition d.fragment := by
  constructor
  · intro h
    obtain ⟨a, ha, h⟩ := bind_eq_ok.1 h
    obtain ⟨d, hd, h⟩ := bind_eq_ok.1 h
    cases h
    exact ⟨a, d, soleArgument_eq_ok.1 ha, hd, rfl⟩
  · rintro ⟨a, d, ha, hd, rfl⟩
    exact bind_eq_ok.2 ⟨a, soleArgument_eq_ok.2 ha, bind_eq_ok.2 ⟨d, hd, rfl⟩⟩

theorem directionOf_eq_ok {text : String} {d : Direction} :
    directionOf text = .ok d ↔ text = d.render := by
  unfold directionOf
  constructor
  · intro h
    split at h
    · cases h
      rfl
    · cases h
      rfl
    · cases h
  · rintro rfl
    cases d <;> rfl

theorem sortKeyOf_eq_ok {args : List Arg} {k : SortKey} :
    sortKeyOf args = .ok k ↔ ∃ a, Selector.key a = .ok k.field ∧
      (args = [a] ∧ k.direction = .ascending ∨
        ∃ d, args = [a, d] ∧ d.text = k.direction.render) := by
  unfold sortKeyOf
  constructor
  · intro h
    split at h
    · rename_i a
      obtain ⟨f, hf, h⟩ := bind_eq_ok.1 h
      cases h
      exact ⟨a, hf, Or.inl ⟨rfl, rfl⟩⟩
    · rename_i a d
      obtain ⟨dir, hd, h⟩ := bind_eq_ok.1 h
      obtain ⟨f, hf, h⟩ := bind_eq_ok.1 h
      cases h
      exact ⟨a, hf, Or.inr ⟨d, rfl, directionOf_eq_ok.1 hd⟩⟩
    · cases h
  · obtain ⟨field, direction⟩ := k
    rintro ⟨a, hf, ⟨rfl, rfl⟩ | ⟨d, rfl, hd⟩⟩
    · exact bind_eq_ok.2 ⟨field, hf, rfl⟩
    · exact bind_eq_ok.2 ⟨direction, directionOf_eq_ok.2 hd, bind_eq_ok.2 ⟨field, hf, rfl⟩⟩

/-- what a call can be that adds a clause -/
theorem ofCall_cases {m : MethodCall} {c : Clause} (h : ofCall m = .ok c) :
    ((m.method = "where" ∨ m.method = "filter") ∧ conditionOf m = .ok c) ∨
    (m.method = "map" ∧ ∃ a k, m.args = [a] ∧ Selector.key a = .ok k ∧ c = .listed k) ∨
    (m.method = "flatMap" ∧ ∃ a f, m.args = [a] ∧ Selector.singleField a = .ok f ∧
      c = .flatten f) ∨
    (m.method = "sort" ∧ ∃ k, sortKeyOf m.args = .ok k ∧ c = .sort k) ∨
    (m.method = "sortDesc" ∧ ∃ a k, m.args = [a] ∧ Selector.key a = .ok k ∧
      c = .sort ⟨k, .descending⟩) ∨
    (m.method = "limit" ∧ c = limitOf m.args) := by
  have hsole : ∀ {f : Arg → Except QueryError String} {g : String → Clause},
      (do pure (g (← f (← soleArgument m)))) = Except.ok c →
      ∃ a k, m.args = [a] ∧ f a = .ok k ∧ c = g k := by
    intro f g h
    obtain ⟨a, ha, h⟩ := bind_eq_ok.1 h
    obtain ⟨k, hk, h⟩ := bind_eq_ok.1 h
    cases h
    exact ⟨a, k, soleArgument_eq_ok.1 ha, hk, rfl⟩
  unfold ofCall at h
  split at h <;> rename_i hm
  · exact .inl ⟨.inl hm, h⟩
  · exact .inl ⟨.inr hm, h⟩
  · exact .inr (.inl ⟨hm, hsole h⟩)
  · exact .inr (.inr (.inl ⟨hm, hsole h⟩))
  · obtain ⟨k, hk, h⟩ := bind_eq_ok.1 h
    cases h
    exact .inr (.inr (.inr (.inl ⟨hm, k, hk, rfl⟩)))
  · exact .inr (.inr (.inr (.inr (.inl ⟨hm, hsole (g := fun k => .sort ⟨k, .descending⟩) h⟩))))
  · cases h
    exact .inr (.inr (.inr (.inr (.inr ⟨hm, rfl⟩))))
  · cases h

end Clause

namespace Translation

/-- what a chain is lowered to, by the clauses of its calls -/
theorem ofChain_eq_ok {chain : Chain} {d : Dialect} {t : Translation} :
    ofChain chain d = .ok t ↔
      ∃ cs, List.Forall₂ (fun m c => Clause.ofCall m = .ok c) chain.calls cs ∧
        t.chain = chain ∧ t.clauses = Clauses.collect (Clauses.ofRoot d chain.source) cs ∧
        t.query = t.clauses.render ∧ t.warnings = cs.filterMap Clause.warning? := by
  obtain ⟨query, clauses, chain', warnings⟩ := t
  simp only [ofChain, bind_eq_ok, mapM_eq_ok]
  constructor
  · rintro ⟨cs, hcs, ht⟩
    obtain ⟨hq, hc, hch, hw⟩ := mk.inj (Except.ok.inj ht)
    exact ⟨cs, hcs, hch.symm, hc.symm, hc ▸ hq.symm, hw.symm⟩
  · rintro ⟨cs, hcs, hch, hc, hq, hw⟩
    refine ⟨cs, hcs, congrArg Except.ok ?_⟩
    rw [hq, hw, hc, hch]

theorem exists_ofChain {chain : Chain} {cs : List Clause}
    (hcs : chain.calls.mapM Clause.ofCall = .ok cs) (d : Dialect) :
    ∃ t, ofChain chain d = .ok t ∧ t.chain = chain ∧
      t.clauses = Clauses.collect (Clauses.ofRoot d chain.source) cs := by
  let clauses := Clauses.collect (Clauses.ofRoot d chain.source) cs
  refine ⟨⟨clauses.render, clauses, chain, cs.filterMap Clause.warning?⟩, ?_, rfl, rfl⟩
  exact bind_eq_ok.2 ⟨cs, hcs, rfl⟩

theorem ofText_eq_ok {text : String} {d : Dialect} {t : Translation} :
    ofText text d = .ok t ↔ ∃ s chain, readExpression text = .ok s ∧
      Chain.ofSource s d = .ok chain ∧ ofChain chain d = .ok t := by
  simp only [ofText, Chain.read, bind_eq_ok]
  constructor
  · rintro ⟨chain, ⟨s, hs, hc⟩, ht⟩
    exact ⟨s, chain, hs, hc, ht⟩
  · rintro ⟨s, chain, hs, hc, ht⟩
    exact ⟨chain, ⟨s, hs, hc⟩, ht⟩

end Translation

/-! ### Roots -/

namespace Clauses

theorem ofRoot_of_trim_eq_empty {d : Dialect} {source : String} (h : Text.trim source = "") :
    ofRoot d source = {} := by
  unfold ofRoot
  simp [h]

theorem ofRoot_pages (d : Dialect) (source : String) :
    (ofRoot d source).pages =
      if (Text.trim source).toList.head? = some d.sigil then "" else Text.trim source := by
  unfold ofRoot
  generalize Text.trim source = root
  cases hroot : root.toList with
  | nil => simpa [hroot] using (String.toList_eq_nil_iff.1 hroot).symm
  | cons c cs => by_cases hc : c = d.sigil <;> simp [hroot, hc]

theorem ofRoot_conditions (d : Dialect) (source : String) :
    (ofRoot d source).conditions =
      if (Text.trim source).toList.head? = some d.sigil then
        [(Condition.hasTag (Text.trim source)).fragment]
      else [] := by
  unfold ofRoot
  generalize Text.trim source = root
  cases hroot : root.toList with
  | nil => simp [hroot]
  | cons c cs => by_cases hc : c = d.sigil <;> simp [hroot, hc]

theorem collect_ofRoot_nil (d : Dialect) (source : String) :
    (ofRoot d source).collect [] = ofRoot d source := by
  unfold ofRoot
  generalize Text.trim source = root
  cases hroot : root.toList with
  | nil => simp [collect, hroot]
  | cons c cs => by_cases hc : c = d.sigil <;> simp [collect, hroot, hc]

end Clauses

/-! ### Call by call -/

/-- a query in the making: its clauses and the warnings so far -/
structure Draft where
  clauses : Clauses
  warnings : List String := []

namespace Draft

/-- The draft with one more clause.  What there can be more than one of goes behind those that are
there, what there is only one of replaces the one before, and an ignored limit is a warning. -/
def add (q : Draft) : Clause → Draft
  | .condition text =>
    { q with clauses := { q.clauses with conditions := q.clauses.conditions ++ [text] } }
  | .listed path => { q with clauses := { q.clauses with listed := some path } }
  | .flatten field =>
    { q with clauses := { q.clauses with flattens := q.clauses.flattens ++ [field] } }
  | .sort key => { q with clauses := { q.clauses with sorts := q.clauses.sorts ++ [key] } }
  | .limit count => { q with clauses := { q.clauses with limit := some count } }
  | .ignoredLimit text => { q with warnings := q.warnings ++
      [s!"limit argument '{text}' is not a finite number; no LIMIT emitted"] }

/-- the draft behind one more call -/
def step (q : Draft) (m : MethodCall) : Except QueryError Draft := do
  pure (q.add (← Clause.ofCall m))

/-- the draft that the clauses of the first calls make up -/
def ofClauses (root : Clauses) (cs : List Clause) : Draft :=
  ⟨root.collect cs, cs.filterMap Clause.warning?⟩

/-- **A step.**  One more clause is collected as it is written into the draft. -/
theorem ofClauses_concat (root : Clauses) (cs : List Clause) (c : Clause) :
    ofClauses root (cs ++ [c]) = (ofClauses root cs).add c := by
  cases c <;>
    simp [ofClauses, add, Clauses.collect, Clause.listed?, Clause.condition?, Clause.sort?,
      Clause.flatten?, Clause.limit?, Clause.warning?]

/-- **A run.**  The pass over the calls lowers all of them or ends at the first one that adds nothing,
and leaves the draft that all the clauses make up. -/
theorem foldlM_step (root : Clauses) (cs : List Clause) (calls : List MethodCall) :
    calls.foldlM step (ofClauses root cs) =
      calls.mapM Clause.ofCall >>= fun ds => pure (ofClauses root (cs ++ ds)) := by
  induction calls generalizing cs with
  | nil => simp
  | cons m calls ih =>
    rw [List.foldlM_cons, List.mapM_cons, step]
    cases Clause.ofCall m with
    | error e => rfl
    | ok c =>
      have hstep := ih (cs ++ [c])
      rw [ofClauses_concat] at hstep
      refine hstep.trans ?_
      cases calls.mapM Clause.ofCall with
      | error e => rfl
      | ok ds =>
        show Except.ok (ofClauses root (cs ++ [c] ++ ds)) = .ok (ofClauses root (cs ++ c :: ds))
        rw [List.append_assoc, List.singleton_append]

end Draft

/-- **Lowering in one pass.**  Starting with the clauses of its root, a chain is lowered call by call
to what it is lowered to as a whole. -/
theorem Translation.ofChain_eq_foldlM (chain : Chain) (d : Dialect) :
    ofChain chain d = (do
      let q ← chain.calls.foldlM Draft.step { clauses := Clauses.ofRoot d chain.source }
      pure ⟨q.clauses.render, q.clauses, chain, q.warnings⟩) := by
  have hroot : ({ clauses := Clauses.ofRoot d chain.source } : Draft) =
      Draft.ofClauses (Clauses.ofRoot d chain.source) [] := by
    rw [Draft.ofClauses, Clauses.collect_ofRoot_nil]
    rfl
  rw [hroot, Draft.foldlM_step, ofChain, bind_assoc]
  rfl

end PageQuery
