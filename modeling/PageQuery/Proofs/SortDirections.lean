import PageQuery.Proofs.Extraction
import PageQuery.Proofs.NumberTexts
import PageQuery.Proofs.Placement
import PageQuery.Proofs.Projection

/-!
# The direction of a sort

The direction of a sort is told by the text of its second argument, which for anything but a
literal is its source.  `StatesDirection`: besides a text of this value, the variable of this name
passes for the direction, and nothing else does (`text_argGiven_iff`).

`Translation.ofText_directions`: the sort keys of a query are those that its calls add, and a sort
with two arguments adds a key of the direction that the second one states.
-/

namespace PageQuery

open Script Script.Expr

/-! ### What states a direction -/

/-- no number has the text of a direction -/
theorem Number.scriptText_ne_render (x : Binary64) (dir : Direction) :
    Number.scriptText x ≠ dir.render := by
  intro h
  rcases Number.finite_or_infinite_or_nan x with hx | hx | hx
  · have hchars := Number.isNumberChar_scriptText hx
    rw [h] at hchars
    have hs : 's' ∈ dir.render.toList := by cases dir <;> decide
    exact absurd (hchars 's' hs) (by decide)
  · have hne : ∀ b, Number.signed b "Infinity".toList ≠ dir.render := by cases dir <;> decide
    exact hne _ ((Number.scriptText_of_isInfinite hx).symm.trans h)
  · have hne : "NaN" ≠ dir.render := by cases dir <;> decide
    exact hne ((Number.scriptText_of_isNaN hx).symm.trans h)

/-- The argument states the direction: it is a text of this value, or the variable of this name,
which is not told from the text.  Whether its items are passed one by one plays no part. -/
inductive StatesDirection (s : Source) (a : Argument Expr) (dir : Direction) : Prop
  | text : a.value.IsText dir.render → StatesDirection s a dir
  | name : a.value.IsVariable dir.render → s.slice a.extent = dir.render →
    StatesDirection s a dir

theorem givenText?_of_isVariable {e : Expr} {w : String} (h : e.IsVariable w) :
    e.givenText? = none := by
  induction h with
  | identifier w => rfl
  | paren _ ih => exact ih

theorem StatesDirection.text_eq {s : Source} {a : Argument Expr} {dir : Direction}
    (h : StatesDirection s a dir) : (Chain.argGiven s a).text = dir.render := by
  show a.value.givenText?.getD (s.slice a.extent) = dir.render
  cases h with
  | text ht => rw [givenText?_eq_some.2 (.inl ht), Option.getD_some]
  | name hv hslice => rw [givenText?_of_isVariable hv, Option.getD_none, hslice]

theorem StatesDirection.unique {s : Source} {a : Argument Expr} {dir dir' : Direction}
    (h : StatesDirection s a dir) (h' : StatesDirection s a dir') : dir = dir' := by
  have hdir := Clause.directionOf_eq_ok.2 h.text_eq
  have hdir' := Clause.directionOf_eq_ok.2 h'.text_eq
  exact Except.ok.inj (hdir.symm.trans hdir')

theorem isFree_render (dir : Direction) : (Token.word dir.render).isFree = true := by
  cases dir <;> decide +kernel

theorem isLower_of_mem_render (dir : Direction) : ∀ c ∈ dir.render.toList, c.isLower = true :=
  List.all_eq_true.1 (by cases dir <;> decide +kernel)

namespace Chain

theorem text_argGiven_iff {text : String} {s : Source} (h : readSource text = .ok s) {l : Link}
    (hl : l ∈ links s.expr) {a : Argument Expr} (ha : a ∈ l.args) {dir : Direction} :
    (argGiven s a).text = dir.render ↔ StatesDirection s a dir := by
  refine ⟨fun htext => ?_, StatesDirection.text_eq⟩
  have htext : a.value.givenText?.getD (s.slice a.extent) = dir.render := htext
  cases hg : a.value.givenText? with
  | some t =>
    rw [hg] at htext
    obtain rfl : t = dir.render := htext
    rcases givenText?_eq_some.1 hg with ht | ⟨x, -, hx⟩
    · exact .text ht
    · exact absurd hx (Number.scriptText_ne_render x dir)
  | none =>
    rw [hg] at htext
    have hrender : String.ofList dir.render.toList = dir.render := String.ofList_toList
    have hslice : s.slice a.extent = String.ofList dir.render.toList := htext.trans hrender.symm
    have hfree : (Token.word (String.ofList dir.render.toList)).isFree = true :=
      hrender.symm ▸ isFree_render dir
    have hv := isVariable_of_slice h (List.mem_append_left _ hl) ha hfree
      (isLower_of_mem_render dir) (by cases dir <;> decide) hslice
    rw [hrender] at hv
    exact .name hv htext

theorem readSource_of_readExpression {text : String} {s : Source}
    (h : readExpression text = .ok s) : readSource text = .ok s := by
  unfold readExpression at h
  split at h
  · cases h
    assumption
  · cases h

/-! ### The calls that sort -/

theorem isListed_iff {s : Source} {m : MethodCall} {call : Expr} :
    IsListed s m call ↔ call.IsCallOf m.method ∧
      (∀ a ∈ call.callArguments, ¬ a.value.IsSubstituted) ∧
      m.args = call.callArguments.map (argGiven s) := by
  simp only [IsListed, ← mapM_eq_ok, mapM_argOf_eq_ok]
  constructor
  · rintro ⟨start, callee, o, args, rfl, hm, hargs⟩
    exact ⟨⟨start, callee, o, args, rfl, hm⟩, hargs⟩
  · rintro ⟨⟨start, callee, o, args, rfl, hm⟩, hargs⟩
    exact ⟨start, callee, o, args, rfl, hm, hargs⟩

theorem IsListed.unique {s : Source} {m m' : MethodCall} {call : Expr} (h : IsListed s m call)
    (h' : IsListed s m' call) : m = m' := by
  obtain ⟨hm, -, hargs⟩ := isListed_iff.1 h
  obtain ⟨hm', -, hargs'⟩ := isListed_iff.1 h'
  rw [MethodCall.mk.injEq]
  exact ⟨hm.unique hm', hargs.trans hargs'.symm⟩

/-- the call is listed in a chain, and adds the key to a query -/
def AddsKey (s : Source) (d : Dialect) (call : Expr) (k : SortKey) : Prop :=
  ∃ m, IsListed s m call ∧ m.method ≠ d.root ∧ Clause.Adds m (.sort k)

theorem addsKey_iff {s : Source} {d : Dialect} {m : MethodCall} {call : Expr} {k : SortKey}
    (h : IsListed s m call) (hroot : m.method ≠ d.root) :
    AddsKey s d call k ↔ Clause.Adds m (.sort k) := by
  constructor
  · rintro ⟨m', hm', -, hk⟩
    rwa [h.unique hm']
  · exact fun hk => ⟨m, h, hroot, hk⟩

theorem IsOpening.not_addsKey {s : Source} {d : Dialect} {source : String} {call : Expr}
    (h : IsOpening s d source call) (k : SortKey) : ¬ AddsKey s d call k := by
  rintro ⟨m, hm, hroot, -⟩
  obtain ⟨start, callee, o, args, rfl, hc, -⟩ := h
  exact hroot ((isListed_iff.1 hm).1.unique ⟨start, callee, o, args, rfl, hc⟩)

/-- what a chain accounts for is listed in it or opens it -/
theorem Accounts.isListed {s : Source} {d : Dialect} {chain : Chain} {calls : List Expr}
    (h : Accounts s d chain calls) {call : Expr} (hc : call ∈ calls) :
    (∃ m ∈ chain.calls, IsListed s m call) ∨ IsOpening s d chain.source call := by
  have hlisted : ∀ {listed}, List.Forall₂ (IsListed s) chain.calls.reverse listed →
      call ∈ listed → ∃ m ∈ chain.calls, IsListed s m call := by
    intro listed hl hmem
    obtain ⟨m, hm, hlisted⟩ := exists_of_forall₂ hl call hmem
    exact ⟨m, List.mem_reverse.1 hm, hlisted⟩
  obtain ⟨-, ⟨hl, -⟩ | ⟨listed, opening, rfl, hl, ho⟩⟩ := h
  · exact .inl (hlisted hl hc)
  · rcases List.mem_append.1 hc with hc | hc
    · exact .inl (hlisted hl hc)
    · rw [List.mem_singleton.1 hc]
      exact .inr ho

/-- the keys that the calls of a chain add are added by the calls that it was made of -/
theorem Accounts.collects {s : Source} {d : Dialect} {chain : Chain} {calls : List Expr}
    (h : Accounts s d chain calls) {ks : List SortKey}
    (hk : Clause.CollectKind .sort chain.calls ks) : Collects (AddsKey s d) calls.reverse ks := by
  obtain ⟨hroot, h⟩ := h
  have hlisted : ∀ {listed}, List.Forall₂ (IsListed s) chain.calls.reverse listed →
      Collects (AddsKey s d) listed.reverse ks := by
    intro listed hl
    have hl := List.forall₂_reverse_iff.2 hl
    rw [List.reverse_reverse] at hl
    exact hk.congr (((List.forall₂_and_left _ _).2 ⟨hroot, hl⟩).imp fun m call hm k =>
      (addsKey_iff hm.2 hm.1).symm)
  obtain ⟨hl, -⟩ | ⟨listed, opening, rfl, hl, ho⟩ := h
  · exact hlisted hl
  · rw [List.reverse_append]
    exact .skip ho.not_addsKey (hlisted hl)

/-- the links of a run tell the methods and the arguments of its calls -/
theorem forall₂_links_of_callRun {e : Expr} {calls : List Expr} (h : e.CallRun calls) :
    List.Forall₂ (fun l call => (∀ m, l.method = some m → call.IsCallOf m) ∧
      l.args = call.callArguments) (links e) calls := by
  induction h with
  | @last start callee args hlast =>
    rw [links_call, objectLinks_last hlast]
    exact .cons ⟨fun m hm => method_eq_some.1 hm, rfl⟩ .nil
  | @onto start callee o m args calls hm _ ih =>
    rw [links_call]
    simp only [Option.map_some, Option.getD_some, objectLinks_of_isMember hm]
    exact .cons ⟨fun m hm => method_eq_some.1 hm, rfl⟩ ih
  | paren _ ih => exact ih

end Chain

/-- a sort with two arguments takes its direction from the text of the second one -/
theorem Clause.Adds.direction {m : MethodCall} {c : Clause} (h : Adds m c) (hm : m.method = "sort")
    {a b : Arg} (hargs : m.args = [a, b]) :
    ∃ path dir, Selector.Selects a path ∧ b.text = dir.render ∧
      c = .sort ⟨Selector.pathText path, dir⟩ := by
  have hcall := h.ofCall
  simp only [Clause.ofCall, hm] at hcall
  obtain ⟨⟨field, dir⟩, hk, hc⟩ := bind_eq_ok.1 hcall
  cases hc
  obtain ⟨x, hkey, ⟨hx, -⟩ | ⟨y, hxy, hy⟩⟩ := sortKeyOf_eq_ok.1 hk
  · rw [hargs] at hx
    cases hx
  · rw [hargs] at hxy
    cases hxy
    obtain ⟨path, hpath, rfl⟩ := Selector.key_eq_ok.1 hkey
    exact ⟨path, dir, hpath, hy, rfl⟩

namespace Translation

open Chain

/-- **The directions of sorts.**  The sort keys of a query are those that its calls add.  A sort
with two arguments adds one key, which has the direction that the second argument states, as a text
or as a variable; only a call of the root method, should that be named so, opens the chain instead. -/
theorem ofText_directions {text : String} {d : Dialect} {t : Translation}
    (h : ofText text d = .ok t) :
    ∃ s calls, readExpression text = .ok s ∧ s.expr.CallRun calls ∧
      Collects (AddsKey s d) calls.reverse t.clauses.sorts ∧
      ∀ call ∈ calls, call.IsCallOf "sort" → ∀ a b, call.callArguments = [a, b] →
        IsOpening s d t.chain.source call ∨
          ∃ path dir, Selector.Selects (argGiven s a) path ∧ StatesDirection s b dir ∧
            ∀ k, AddsKey s d call k ↔ k = ⟨Selector.pathText path, dir⟩ := by
  obtain ⟨s, chain, hs, hc, ht⟩ := ofText_eq_ok.1 h
  obtain ⟨calls, base, hspine, haccounts⟩ := ofSource_accounts hc
  have hprojects := projects_of_ofChain ht
  refine ⟨s, calls, hs, hspine.callRun, haccounts.collects hprojects.sorts, ?_⟩
  intro call hcall hsort a b hargs
  rw [hprojects.same]
  refine (haccounts.isListed hcall).symm.imp_right ?_
  rintro ⟨m, hm, hlisted⟩
  obtain ⟨hmethod, -, hgiven⟩ := isListed_iff.1 hlisted
  rw [hargs] at hgiven
  obtain ⟨c, hadds⟩ := exists_ofChain_iff.1 ⟨t, ht⟩ m hm
  obtain ⟨path, dir, hpath, hdir, rfl⟩ := hadds.direction (hmethod.unique hsort) hgiven
  -- the argument stands among those of a link, and these are read from the text
  obtain ⟨l, hl, -, hlargs⟩ :=
    exists_of_forall₂ (forall₂_links_of_callRun hspine.callRun) call hcall
  have hb : b ∈ l.args := by simp [hlargs, hargs]
  refine ⟨path, dir, hpath, (text_argGiven_iff (readSource_of_readExpression hs) hl hb).1 hdir,
    fun k => ?_⟩
  rw [addsKey_iff hlisted (haccounts.1 m hm)]
  exact ⟨fun hk => Clause.sort.inj (hk.unique hadds), fun hk => hk ▸ hadds⟩

/-- a variable passes for the direction of this name -/
theorem ofText_directions_variable :
    ∃ t s calls call a b, ofText "dv.pages().sort(p => p.a, desc)" {} = .ok t ∧
      t.clauses.sorts = [⟨"a", .descending⟩] ∧
      readExpression "dv.pages().sort(p => p.a, desc)" = .ok s ∧ s.expr.CallRun calls ∧
      call ∈ calls ∧ call.IsCallOf "sort" ∧ call.callArguments = [a, b] ∧
      b.value.IsVariable "desc" ∧
      ∃ path, AddsKey s {} call ⟨Selector.pathText path, .descending⟩ := by
  have hsorts : (ofText "dv.pages().sort(p => p.a, desc)" {}).toOption.map (·.clauses.sorts) =
      some [⟨"a", .descending⟩] := by
    decide +kernel
  have hlinks : (readExpression "dv.pages().sort(p => p.a, desc)").toOption.map (fun s =>
      (links s.expr).map fun l =>
        (l.method, l.args.map fun a => (a.value.variableName?, s.slice a.extent))) =
      some [(some "sort", [(none, "p => p.a"), (some "desc", "desc")]), (some "pages", [])] := by
    decide +kernel
  cases hr : ofText "dv.pages().sort(p => p.a, desc)" {} with
  | error f =>
    rw [hr] at hsorts
    cases hsorts
  | ok t =>
    obtain ⟨s, calls, hs, hrun, -, hdirections⟩ := ofText_directions hr
    rw [hr] at hsorts
    rw [hs] at hlinks
    -- the outermost call, and its second argument
    obtain ⟨l, ls, hl, hsort, -⟩ := List.map_eq_cons_iff.1 (Option.some.inj hlinks)
    obtain ⟨hmethod, hargs⟩ := Prod.mk.inj hsort
    obtain ⟨a, _, ha, -, hrest⟩ := List.map_eq_cons_iff.1 hargs
    obtain ⟨b, _, rfl, hb, hnil⟩ := List.map_eq_cons_iff.1 hrest
    obtain rfl := List.map_eq_nil_iff.1 hnil
    obtain ⟨hname, hslice⟩ := Prod.mk.inj hb
    have hcalls := forall₂_links_of_callRun hrun
    rw [hl] at hcalls
    obtain ⟨call, inner, ⟨hcall, hcallArgs⟩, -, rfl⟩ := List.forall₂_cons_left_iff.1 hcalls
    have hsort : call.IsCallOf "sort" := hcall _ hmethod
    have hargs : call.callArguments = [a, b] := hcallArgs.symm.trans ha
    have hv := variableName?_eq_some.1 hname
    have hopening : ¬ IsOpening s {} t.chain.source call := by
      rintro ⟨start, callee, o, args, he, ho, -⟩
      exact absurd (hsort.unique ⟨start, callee, o, args, he, ho⟩) (by decide)
    obtain ⟨path, dir, -, hdir, hkey⟩ :=
      (hdirections call List.mem_cons_self hsort a b hargs).resolve_left hopening
    obtain rfl : dir = .descending := hdir.unique (.name hv hslice)
    exact ⟨t, s, _, call, a, b, rfl, Option.some.inj hsorts, hs, hrun, List.mem_cons_self, hsort,
      hargs, hv, path, (hkey _).2 rfl⟩

end Translation

end PageQuery
