import PageQuery.Proofs.Walk

/-!
# Which expressions are chains

`CallRun e calls`: the calls of `e` from the outermost one inwards, each made on the object that the
one before it is a method of.  A chain can be made of a run of calls unless one of them `Offends`: it
is no method call, one of its arguments is a template with substitutions, or it is the root method
and has a call below it.

`Chain.ofSource_exact`: without an offending call the chain accounts for the whole run, and otherwise
the error is that of the outermost offending call.
-/

namespace PageQuery.Script.Expr

/-- the calls from the outermost one inwards, each on the object that the next one is -/
inductive CallRun : Expr → List Expr → Prop
  | last {start : Nat} {callee : Option Expr} {args : List (Argument Expr)} :
    (∀ f o m, callee = some f → f.IsMember o m → ¬ o.IsCall) →
      CallRun (.call start callee args) [.call start callee args]
  | onto {start : Nat} {callee o : Expr} {m : String} {args : List (Argument Expr)}
    {calls : List Expr} : callee.IsMember o m → CallRun o calls →
      CallRun (.call start (some callee) args) (.call start (some callee) args :: calls)
  | paren {e : Expr} {calls : List Expr} : CallRun e calls → CallRun (.paren e) calls

/-- the expression calls a method of this name -/
def IsCallOf (e : Expr) (m : String) : Prop :=
  ∃ start callee o args, e = .call start (some callee) args ∧ callee.IsMember o m

/-- what a call is made with -/
def callArguments : Expr → List (Argument Expr)
  | .call _ _ args => args
  | _ => []

/-- where a call begins -/
def callStart : Expr → Nat
  | .call start _ _ => start
  | _ => 0

/-- the expression is a template that is more than one run of text, parentheses around it aside -/
def IsSubstituted (e : Expr) : Prop :=
  ∃ chunks substitutions, e.unparen = .template chunks substitutions ∧
    ∀ text, chunks = [text] → substitutions ≠ []

theorem IsText.unique {e : Expr} {s s' : String} (h : e.IsText s) (h' : e.IsText s') : s = s' :=
  Option.some.inj ((stringValue?_eq_some.2 h).symm.trans (stringValue?_eq_some.2 h'))

theorem IsMember.unique {e o o' : Expr} {m m' : String} (h : e.IsMember o m)
    (h' : e.IsMember o' m') : o = o' ∧ m = m' := by
  induction h with
  | field o m =>
    cases h'
    exact ⟨rfl, rfl⟩
  | index hk =>
    cases h' with
    | index hk' => exact ⟨rfl, hk.unique hk'⟩
  | paren _ ih =>
    cases h' with
    | paren h' => exact ih h'

theorem IsCallOf.unique {e : Expr} {m m' : String} (h : e.IsCallOf m) (h' : e.IsCallOf m') :
    m = m' := by
  obtain ⟨start, callee, o, args, rfl, hm⟩ := h
  obtain ⟨start', callee', o', args', he, hm'⟩ := h'
  cases he
  exact (hm.unique hm').2

theorem CallRun.isCall {e : Expr} {calls : List Expr} (h : e.CallRun calls) : e.IsCall := by
  induction h with
  | last _ => exact .call _ _ _
  | onto _ _ _ => exact .call _ _ _
  | paren _ ih => exact .paren ih

theorem CallRun.ne_nil {e : Expr} {calls : List Expr} (h : e.CallRun calls) : calls ≠ [] := by
  induction h with
  | last _ => simp
  | onto _ _ _ => simp
  | paren _ ih => exact ih

theorem CallRun.unique {e : Expr} {calls calls' : List Expr} (h : e.CallRun calls)
    (h' : e.CallRun calls') : calls = calls' := by
  induction h generalizing calls' with
  | last hlast =>
    cases h' with
    | last _ => rfl
    | onto hm ho => exact absurd ho.isCall (hlast _ _ _ rfl hm)
  | onto hm ho ih =>
    cases h' with
    | last hlast => exact absurd ho.isCall (hlast _ _ _ rfl hm)
    | onto hm' ho' =>
      obtain ⟨rfl, -⟩ := hm.unique hm'
      rw [ih ho']
  | paren _ ih =>
    cases h' with
    | paren h' => exact ih h'

theorem Spine.callRun {e base : Expr} {calls : List Expr} (h : e.Spine calls base) :
    e.CallRun calls := by
  induction h with
  | innermost hm hbase =>
    refine .last fun f o m hf hm' => ?_
    cases hf
    rwa [← (hm.unique hm').1]
  | onto hm _ ih => exact .onto hm ih
  | paren _ ih => exact .paren ih

/-- every call has a run -/
theorem IsCall.exists_callRun {e : Expr} (h : e.IsCall) : ∃ calls, e.CallRun calls := by
  match h with
  | .paren h =>
    obtain ⟨calls, hc⟩ := h.exists_callRun
    exact ⟨calls, .paren hc⟩
  | .call start none args => exact ⟨_, .last fun f o m hf => by cases hf⟩
  | .call start (some callee) args =>
    by_cases hm : ∃ o m, callee.IsMember o m ∧ o.IsCall
    · obtain ⟨o, m, hm, ho⟩ := hm
      have : sizeOf o < sizeOf callee := hm.sizeOf_lt
      obtain ⟨calls, hc⟩ := ho.exists_callRun
      exact ⟨_, .onto hm hc⟩
    · refine ⟨_, .last fun f o m hf hm' ho => hm ?_⟩
      cases hf
      exact ⟨o, m, hm', ho⟩
termination_by sizeOf e

end PageQuery.Script.Expr

namespace PageQuery.Chain

open Script Script.Expr

/-! ### Arguments -/

theorem argOf_eq_error {s : Source} {a : Argument Expr} {e : QueryError} :
    argOf s a = .error e ↔ e = .templateArgument ∧ a.value.IsSubstituted := by
  unfold argOf IsSubstituted
  generalize a.value.unparen = v
  dsimp only
  split
  any_goals simp [eq_comm]; done
  · -- a template that is no text
    rename_i chunks substitutions hne
    simp only [Except.error.injEq, Expr.template.injEq, eq_comm (a := e), iff_self_and]
    rintro rfl
    refine ⟨chunks, substitutions, ⟨rfl, rfl⟩, ?_⟩
    rintro text rfl rfl
    exact hne text rfl rfl
  · rename_i hne
    simp only [reduceCtorEq, false_iff, not_and]
    rintro - ⟨chunks, substitutions, rfl, -⟩
    exact hne _ _ rfl

theorem mapM_argOf_eq_error {s : Source} {args : List (Argument Expr)} {e : QueryError} :
    args.mapM (argOf s) = .error e ↔ e = .templateArgument ∧ ∃ a ∈ args, a.value.IsSubstituted := by
  have hmp : ∀ e, args.mapM (argOf s) = .error e →
      e = .templateArgument ∧ ∃ a ∈ args, a.value.IsSubstituted := by
    intro e h
    obtain ⟨before, a, after, rfl, -, ha⟩ := mapM_eq_error.1 h
    obtain ⟨he, hs⟩ := argOf_eq_error.1 ha
    exact ⟨he, a, by simp, hs⟩
  refine ⟨hmp e, ?_⟩
  rintro ⟨rfl, a, ha, hs⟩
  cases h : args.mapM (argOf s) with
  | error e => rw [(hmp e h).1]
  | ok as =>
    obtain ⟨b, hb⟩ := exists_forall₂_iff.1 ⟨as, mapM_eq_ok.1 h⟩ a ha
    rw [argOf_eq_error.2 ⟨rfl, hs⟩] at hb
    cases hb

theorem exists_forall₂_argOf_iff {s : Source} {args : List (Argument Expr)} :
    (∃ as, List.Forall₂ (fun a b => argOf s a = .ok b) args as) ↔
      ∀ a ∈ args, ¬ a.value.IsSubstituted := by
  simp only [← mapM_eq_ok]
  constructor
  · rintro ⟨as, h⟩ a ha hs
    rw [mapM_argOf_eq_error.2 ⟨rfl, a, ha, hs⟩] at h
    cases h
  · intro h
    cases hargs : args.mapM (argOf s) with
    | ok as => exact ⟨as, rfl⟩
    | error e =>
      obtain ⟨-, a, ha, hs⟩ := mapM_argOf_eq_error.1 hargs
      exact absurd hs (h a ha)

/-! ### Offending calls -/

/-- the call is of a method other than the root method and its arguments have a text -/
def Passes (d : Dialect) (call : Expr) : Prop :=
  (∃ m, call.IsCallOf m ∧ m ≠ d.root) ∧ ∀ a ∈ call.callArguments, ¬ a.value.IsSubstituted

/-- what is wrong with a call that stands on the calls `inner`, the first of three things -/
inductive Offends (d : Dialect) (call : Expr) (inner : List Expr) : QueryError → Prop
  | callee : (∀ m, ¬ call.IsCallOf m) → Offends d call inner (.notAMethodCall call.callStart)
  | argument {m : String} {a : Argument Expr} : call.IsCallOf m → a ∈ call.callArguments →
    a.value.IsSubstituted → Offends d call inner .templateArgument
  | root : call.IsCallOf d.root → (∀ a ∈ call.callArguments, ¬ a.value.IsSubstituted) →
    inner ≠ [] → Offends d call inner (.rootNotFirst d.root)

/-- the outermost call that offends, and its error -/
def FirstOffends (d : Dialect) (calls : List Expr) (e : QueryError) : Prop :=
  ∃ outer call inner, calls = outer ++ call :: inner ∧ (∀ c ∈ outer, Passes d c) ∧
    Offends d call inner e

theorem firstOffends_nil {d : Dialect} {e : QueryError} : ¬ FirstOffends d [] e := by
  rintro ⟨outer, call, inner, h, -⟩
  simp at h

theorem firstOffends_cons {d : Dialect} {call : Expr} {inner : List Expr} {e : QueryError} :
    FirstOffends d (call :: inner) e ↔
      Offends d call inner e ∨ Passes d call ∧ FirstOffends d inner e := by
  constructor
  · rintro ⟨outer, c, rest, h, houter, ho⟩
    obtain ⟨rfl, h⟩ | ⟨outer', rfl, rfl⟩ := List.cons_eq_append_iff.1 h
    · obtain ⟨rfl, rfl⟩ := List.cons.inj h
      exact Or.inl ho
    · obtain ⟨hcall, houter⟩ := List.forall_mem_cons.1 houter
      exact Or.inr ⟨hcall, outer', c, rest, rfl, houter, ho⟩
  · rintro (ho | ⟨hcall, outer, c, rest, rfl, houter, ho⟩)
    · exact ⟨[], call, inner, rfl, by simp, ho⟩
    · exact ⟨call :: outer, c, rest, rfl, List.forall_mem_cons.2 ⟨hcall, houter⟩, ho⟩

theorem Passes.exists_isListed {d : Dialect} {call : Expr} (h : Passes d call) (s : Source) :
    ∃ m, IsListed s m call ∧ m.method ≠ d.root := by
  obtain ⟨⟨m, ⟨start, callee, o, args, rfl, hm⟩, hroot⟩, hfree⟩ := h
  obtain ⟨as, has⟩ := exists_forall₂_argOf_iff.2 hfree
  exact ⟨⟨m, as⟩, ⟨start, callee, o, args, rfl, hm, has⟩, hroot⟩

/-! ### The links of a run -/

theorem method_eq_some {callee : Option Expr} {start : Nat} {args : List (Argument Expr)}
    {m : String} :
    (callee.bind fun f => f.member?.map (·.2)) = some m ↔
      (Expr.call start callee args).IsCallOf m := by
  simp only [Option.bind_eq_some_iff, Option.map_eq_some_iff, Prod.exists, exists_eq_right]
  constructor
  · rintro ⟨f, rfl, o, hm⟩
    obtain ⟨o', hm, -⟩ := member?_eq_some.1 hm
    exact ⟨start, f, o', args, rfl, hm⟩
  · rintro ⟨start', f, o, args', he, hm⟩
    cases he
    exact ⟨f, rfl, o.unparen, member?_eq_some.2 ⟨o, hm, rfl⟩⟩

theorem links_call {callee : Option Expr} {start : Nat} {args : List (Argument Expr)} :
    links (.call start callee args) =
      ⟨start, callee.bind fun f => f.member?.map (·.2), args⟩ ::
        (callee.map objectLinks).getD [] := by
  cases callee <;> rfl

theorem objectLinks_eq_nil {callee : Expr} (h : ∀ o m, callee.IsMember o m → ¬ o.IsCall) :
    objectLinks callee = [] := by
  fun_induction unparen callee with
  | case1 e ih => exact ih fun o m hm => h o m (.paren hm)
  | case2 e hp =>
    unfold objectLinks
    split
    · exact absurd rfl (hp _)
    · exact links_eq_nil_iff.2 (h _ _ (.field _ _))
    · split
      · rename_i hk
        obtain ⟨n, hn⟩ := Option.isSome_iff_exists.1 hk
        exact links_eq_nil_iff.2 (h _ _ (.index (stringValue?_eq_some.1 hn)))
      · rfl
    · rfl

theorem objectLinks_last {callee : Option Expr}
    (h : ∀ f o m, callee = some f → f.IsMember o m → ¬ o.IsCall) :
    (callee.map objectLinks).getD [] = [] := by
  cases callee with
  | none => rfl
  | some f => exact objectLinks_eq_nil fun o m hm => h f o m rfl hm

section

variable {s : Source} {d : Dialect} {after : List MethodCall} {start : Nat} {callee : Option Expr}
  {args : List (Argument Expr)} {ls : List Link} {inner : List Expr} {e : QueryError}

/-- the link of a call that cannot go on offends, or one further in does -/
theorem offends_of_ofLinks (hinner : ls = [] ↔ inner = [])
    (h : ofLinks s d after (⟨start, callee.bind fun f => f.member?.map (·.2), args⟩ :: ls) =
      .error e) :
    Offends d (.call start callee args) inner e ∨
      Passes d (.call start callee args) ∧ ∃ after', ofLinks s d after' ls = .error e := by
  cases hm : callee.bind fun f => f.member?.map (·.2) with
  | none =>
    simp only [ofLinks, hm] at h
    cases h
    refine Or.inl (.callee fun m hc => ?_)
    rw [method_eq_some.2 hc] at hm
    cases hm
  | some m =>
    have hc : (Expr.call start callee args).IsCallOf m := method_eq_some.1 hm
    simp only [ofLinks, hm] at h
    rcases bind_eq_error.1 h with hargs | ⟨as, has, h⟩
    · obtain ⟨rfl, a, ha, hs⟩ := mapM_argOf_eq_error.1 hargs
      exact Or.inl (.argument hc ha hs)
    · have hfree := exists_forall₂_argOf_iff.1 ⟨as, mapM_eq_ok.1 has⟩
      split at h
      · rename_i hroot
        obtain rfl := eq_of_beq hroot
        split at h
        · cases h
        · rename_i hls
          cases h
          refine Or.inl (.root hc hfree fun hi => ?_)
          exact hls (List.isEmpty_iff.2 (hinner.2 hi))
      · rename_i hroot
        exact Or.inr ⟨⟨⟨m, hc, by simpa using hroot⟩, hfree⟩, _, h⟩

theorem ofLinks_of_offends (hinner : ls = [] ↔ inner = [])
    (h : Offends d (.call start callee args) inner e) :
    ofLinks s d after (⟨start, callee.bind fun f => f.member?.map (·.2), args⟩ :: ls) =
      .error e := by
  cases h with
  | callee hc =>
    have hm : (callee.bind fun f => f.member?.map (·.2)) = none := by
      rw [Option.eq_none_iff_forall_ne_some]
      exact fun m hm => hc m (method_eq_some.1 hm)
    simp only [ofLinks, hm, callStart]
  | argument hc ha hs =>
    simp only [ofLinks, method_eq_some.2 hc]
    exact bind_eq_error.2 (Or.inl (mapM_argOf_eq_error.2 ⟨rfl, _, ha, hs⟩))
  | root hc hfree hi =>
    obtain ⟨as, has⟩ := exists_forall₂_argOf_iff.2 hfree
    have hls : ls.isEmpty = false := by simpa using fun hl => hi (hinner.1 hl)
    simp only [ofLinks, method_eq_some.2 hc]
    exact bind_eq_error.2 (Or.inr ⟨as, mapM_eq_ok.2 has, by simp [hls]⟩)

theorem ofLinks_of_isListed {m : MethodCall} (h : IsListed s m (.call start callee args))
    (hroot : m.method ≠ d.root) :
    ofLinks s d after (⟨start, callee.bind fun f => f.member?.map (·.2), args⟩ :: ls) =
      ofLinks s d (m :: after) ls := by
  obtain ⟨start', f, o, args', he, hm, has⟩ := h
  have hmethod := method_eq_some.2 ⟨start', f, o, args', he, hm⟩
  cases he
  simp only [ofLinks, hmethod, mapM_eq_ok.2 has]
  simp [hroot, bind, Except.bind]

end

theorem ofLinks_eq_error {s : Source} {d : Dialect} {e : Expr} {calls : List Expr}
    (h : e.CallRun calls) {after : List MethodCall} {f : QueryError} :
    ofLinks s d after (links e) = .error f ↔ FirstOffends d calls f := by
  induction h generalizing after with
  | @last start callee args hlast =>
    have hnil : ([] : List Link) = [] ↔ ([] : List Expr) = [] := by simp
    rw [links_call, objectLinks_last hlast, firstOffends_cons]
    constructor
    · intro h
      rcases offends_of_ofLinks hnil h with ho | ⟨-, after', h⟩
      · exact Or.inl ho
      · cases h
    · rintro (ho | ⟨-, h⟩)
      · exact ofLinks_of_offends hnil ho
      · exact absurd h firstOffends_nil
  | @onto start callee o m args calls hm ho ih =>
    have hinner : links o = [] ↔ calls = [] :=
      iff_of_false (fun hl => links_eq_nil_iff.1 hl ho.isCall) ho.ne_nil
    rw [links_call, firstOffends_cons]
    simp only [Option.map_some, Option.getD_some, objectLinks_of_isMember hm]
    constructor
    · intro h
      rcases offends_of_ofLinks hinner h with ho | ⟨hp, after', h⟩
      · exact Or.inl ho
      · exact Or.inr ⟨hp, ih.1 h⟩
    · rintro (ho | ⟨hp, h⟩)
      · exact ofLinks_of_offends hinner ho
      · obtain ⟨m', hm', hroot⟩ := hp.exists_isListed s
        rw [ofLinks_of_isListed hm' hroot]
        exact ih.2 h
  | paren _ ih => exact ih

/-! ### Chains of a run -/

/-- a chain that accounts for a call and further ones lists the call last -/
theorem Accounts.tail {s : Source} {d : Dialect} {source : String} {ms : List MethodCall}
    {call : Expr} {calls : List Expr} (h : Accounts s d ⟨source, ms⟩ (call :: calls))
    (hne : calls ≠ []) :
    ∃ ms' m, ms = ms' ++ [m] ∧ IsListed s m call ∧ m.method ≠ d.root ∧
      Accounts s d ⟨source, ms'⟩ calls := by
  obtain ⟨hroot, h⟩ := h
  have hlast : ∀ {listed}, List.Forall₂ (IsListed s) ms.reverse (call :: listed) →
      ∃ ms' m, ms = ms' ++ [m] ∧ IsListed s m call ∧ m.method ≠ d.root ∧
        (∀ m ∈ ms', m.method ≠ d.root) ∧ List.Forall₂ (IsListed s) ms'.reverse listed := by
    intro listed hl
    obtain ⟨m, rest, hm, hrest, hms⟩ := List.forall₂_cons_right_iff.1 hl
    obtain rfl : ms = rest.reverse ++ [m] := by
      rw [← List.reverse_cons, ← hms, List.reverse_reverse]
    refine ⟨rest.reverse, m, rfl, hm, hroot m (by simp), ?_, by simpa using hrest⟩
    intro m' hm'
    exact hroot m' (List.mem_append_left _ hm')
  rcases h with ⟨hl, hs⟩ | ⟨listed, opening, hcalls, hl, ho⟩
  · obtain ⟨ms', m, rfl, hm, hmroot, hms', hl'⟩ := hlast hl
    exact ⟨ms', m, rfl, hm, hmroot, hms', Or.inl ⟨hl', hs⟩⟩
  · obtain ⟨rfl, h⟩ | ⟨listed', rfl, rfl⟩ := List.cons_eq_append_iff.1 hcalls
    · exact absurd (List.cons.inj h).2.symm hne
    · obtain ⟨ms', m, rfl, hm, hmroot, hms', hl'⟩ := hlast hl
      exact ⟨ms', m, rfl, hm, hmroot, hms', Or.inr ⟨listed', opening, rfl, hl', ho⟩⟩

/-- a run of one call, which is listed or opens the chain -/
theorem ofLinks_of_accounts_single {s : Source} {d : Dialect} {start : Nat} {callee : Option Expr}
    {args : List (Argument Expr)} {source : String} {ms after : List MethodCall}
    (hfree : ∀ a ∈ args, ¬ a.value.IsSubstituted)
    (ha : Accounts s d ⟨source, ms⟩ [.call start callee args]) :
    ofLinks s d after [⟨start, callee.bind fun f => f.member?.map (·.2), args⟩] =
      .ok ⟨source, ms ++ after⟩ := by
  obtain ⟨hroot, ⟨hl, rfl⟩ | ⟨listed, opening, hcalls, hl, ho⟩⟩ := ha
  · obtain ⟨m, rest, hm, hrest, hms⟩ := List.forall₂_cons_right_iff.1 hl
    obtain rfl := List.forall₂_nil_right_iff.1 hrest
    obtain rfl : ms = [m] := by
      simpa using hms
    rw [ofLinks_of_isListed hm (hroot m (by simp))]
    rfl
  · obtain ⟨rfl, rfl⟩ : listed = [] ∧ opening = .call start callee args := by
      simpa using List.append_eq_singleton_iff.1 hcalls.symm
    obtain rfl : ms = [] := by
      simpa using List.forall₂_nil_right_iff.1 hl
    obtain ⟨start', f, o, args', he, hm, hfirst⟩ := ho
    have hmethod := method_eq_some.2 ⟨start', f, o, args', he, hm⟩
    cases he
    obtain ⟨as, has⟩ := exists_forall₂_argOf_iff (s := s).2 hfree
    have htext : (as.head?.map (·.text)).getD "" = source := by
      rcases hfirst with ⟨rfl, rfl⟩ | ⟨a, rest, b, rfl, hb, rfl⟩
      · cases has
        rfl
      · obtain ⟨b', bs, hb', -, rfl⟩ := List.forall₂_cons_left_iff.1 has
        rw [hb] at hb'
        cases hb'
        rfl
    simp only [ofLinks, hmethod, mapM_eq_ok.2 has]
    simp [bind, Except.bind, htext]

theorem ofLinks_of_accounts {s : Source} {d : Dialect} {e : Expr} {calls : List Expr}
    (h : e.CallRun calls) (hfree : ∀ c ∈ calls, ∀ a ∈ c.callArguments, ¬ a.value.IsSubstituted)
    {source : String} {ms after : List MethodCall} (ha : Accounts s d ⟨source, ms⟩ calls) :
    ofLinks s d after (links e) = .ok ⟨source, ms ++ after⟩ := by
  induction h generalizing ms after with
  | @last start callee args hlast =>
    rw [links_call, objectLinks_last hlast]
    exact ofLinks_of_accounts_single (hfree _ List.mem_cons_self) ha
  | @onto start callee o m args calls hm ho ih =>
    obtain ⟨ms', m', rfl, hm', hroot, ha'⟩ := ha.tail ho.ne_nil
    rw [links_call, ofLinks_of_isListed hm' hroot]
    simp only [Option.map_some, Option.getD_some, objectLinks_of_isMember hm]
    rw [ih (List.forall_mem_cons.1 hfree).2 ha', List.append_assoc, List.singleton_append]
  | paren _ ih => exact ih hfree ha

/-- a chain can be made of the calls: each is a method call whose arguments have a text, and only the
innermost one may be of the root method -/
structure Extractable (d : Dialect) (calls : List Expr) : Prop where
  methods : ∀ c ∈ calls, ∃ m, c.IsCallOf m
  arguments : ∀ c ∈ calls, ∀ a ∈ c.callArguments, ¬ a.value.IsSubstituted
  root : ∀ c ∈ calls.dropLast, ¬ c.IsCallOf d.root

theorem Extractable.not_firstOffends {d : Dialect} {calls : List Expr} (h : Extractable d calls)
    (e : QueryError) : ¬ FirstOffends d calls e := by
  rintro ⟨outer, call, inner, rfl, -, ho⟩
  have hmem : call ∈ outer ++ call :: inner := by simp
  cases ho with
  | callee hc =>
    obtain ⟨m, hm⟩ := h.methods call hmem
    exact hc m hm
  | argument _ ha hs => exact h.arguments call hmem _ ha hs
  | root hc _ hi =>
    refine h.root call ?_ hc
    rw [List.dropLast_append_of_ne_nil (by simp), List.dropLast_cons_of_ne_nil hi]
    simp

theorem ofSource_of_callRun {s : Source} {d : Dialect} {calls : List Expr}
    (h : s.expr.CallRun calls) : ofSource s d = ofLinks s d [] (links s.expr) := by
  unfold ofSource
  split
  · rename_i hnil
    exact absurd h.isCall (links_eq_nil_iff.1 hnil)
  · rfl

theorem ofSource_of_not_isCall {s : Source} {d : Dialect} (h : ¬ s.expr.IsCall) :
    ofSource s d = .error (.notAChain s.expr.unparen.describe) := by
  simp only [ofSource, links_eq_nil_iff.2 h]

theorem extractable_of_not_firstOffends {d : Dialect} {calls : List Expr}
    (h : ∀ e, ¬ FirstOffends d calls e) : Extractable d calls := by
  induction calls with
  | nil => exact ⟨by simp, by simp, by simp⟩
  | cons call inner ih =>
    simp only [firstOffends_cons, not_or, not_and] at h
    obtain ⟨m, hm⟩ : ∃ m, call.IsCallOf m := by
      by_contra hno
      exact (h _).1 (.callee (not_exists.1 hno))
    have hfree : ∀ a ∈ call.callArguments, ¬ a.value.IsSubstituted :=
      fun a ha hs => (h _).1 (.argument hm ha hs)
    by_cases hinner : inner = []
    · subst hinner
      exact ⟨by simpa using ⟨m, hm⟩, by simpa using hfree, by simp⟩
    · have hroot : ¬ call.IsCallOf d.root := fun hc => (h _).1 (.root hc hfree hinner)
      have hpass : Passes d call := ⟨⟨m, hm, fun he => hroot (he ▸ hm)⟩, hfree⟩
      have hrest := ih fun e => (h e).2 hpass
      refine ⟨List.forall_mem_cons.2 ⟨⟨m, hm⟩, hrest.methods⟩,
        List.forall_mem_cons.2 ⟨hfree, hrest.arguments⟩, ?_⟩
      rw [List.dropLast_cons_of_ne_nil hinner]
      exact List.forall_mem_cons.2 ⟨hroot, hrest.root⟩

/-- **The extraction of chains.**  An expression that is no call is no chain.  A call has a run of
calls, and is a chain exactly if the run is extractable.  The chain then accounts for the whole run:
each call is listed with its arguments, the innermost one first, except for a call of the root method,
whose first argument gives the source.  Otherwise the error is that of the outermost call that
offends. -/
theorem ofSource_exact (s : Source) (d : Dialect) :
    ¬ s.expr.IsCall ∧ ofSource s d = .error (.notAChain s.expr.unparen.describe) ∨
    ∃ calls, s.expr.CallRun calls ∧
      ((∃ chain, ofSource s d = .ok chain) ↔ Extractable d calls) ∧
      (∀ chain, ofSource s d = .ok chain ↔ Extractable d calls ∧ Accounts s d chain calls) ∧
      ∀ e, ofSource s d = .error e ↔ FirstOffends d calls e := by
  by_cases hcall : s.expr.IsCall
  · right
    obtain ⟨calls, hrun⟩ := hcall.exists_callRun
    have herror : ∀ e, ofSource s d = .error e ↔ FirstOffends d calls e := by
      intro e
      rw [ofSource_of_callRun hrun, ofLinks_eq_error hrun]
    have hextractable : ∀ chain, ofSource s d = .ok chain → Extractable d calls := by
      intro chain h
      refine extractable_of_not_firstOffends fun e he => ?_
      rw [(herror e).2 he] at h
      cases h
    refine ⟨calls, hrun, ⟨?_, ?_⟩, fun chain => ⟨?_, ?_⟩, herror⟩
    · rintro ⟨chain, h⟩
      exact hextractable chain h
    · intro hx
      cases h : ofSource s d with
      | ok chain => exact ⟨chain, rfl⟩
      | error e => exact absurd ((herror e).1 h) (hx.not_firstOffends e)
    · intro h
      obtain ⟨calls', base, hspine, ha⟩ := ofSource_accounts h
      exact ⟨hextractable chain h, hrun.unique hspine.callRun ▸ ha⟩
    · rintro ⟨hx, ha⟩
      rw [ofSource_of_callRun hrun, ofLinks_of_accounts hrun hx.arguments ha, List.append_nil]
  · exact Or.inl ⟨hcall, ofSource_of_not_isCall hcall⟩

end PageQuery.Chain
