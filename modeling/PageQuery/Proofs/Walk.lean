import PageQuery.Proofs.Lowering
import PageQuery.Proofs.Shape

/-!
# The calls on the way inwards

A page query is an expression whose outermost call is walked inwards to its base: `callsInward` lists
every call met, through accesses, optional chains and parentheses.  A chain keeps the calls of the
`Spine`, which stand directly on one another, and nothing of what stands further in.

`ofText_accounts`: the calls of the spine are all accounted for, and exactly when the base has
no call of its own, or only an opening that names no pages, so is every call met on the way.
-/

namespace PageQuery.Script.Expr

/-- the calls met on the way from an expression inwards to its base, the outermost first: through
calls, accesses, optional chains and parentheses -/
def callsInward : Expr → List Expr
  | .paren e => e.callsInward
  | .field o _ => o.callsInward
  | .index o _ => o.callsInward
  | .privateField o => o.callsInward
  | .optional e => e.callsInward
  | .call start (some callee) args => .call start (some callee) args :: callee.callsInward
  | .call start none args => [.call start none args]
  | _ => []

/-- the expression is a call -/
inductive IsCall : Expr → Prop
  | call (start : Nat) (callee : Option Expr) (args : List (Argument Expr)) :
    IsCall (.call start callee args)
  | paren {e : Expr} : IsCall e → IsCall (.paren e)

/-- the expression is a run of method calls, each on the object that the next one is, the outermost
first, and the innermost of them is a method of a base that is no call -/
inductive Spine : Expr → List Expr → Expr → Prop
  | innermost {start : Nat} {callee base : Expr} {m : String} {args : List (Argument Expr)} :
    callee.IsMember base m → ¬ base.IsCall →
      Spine (.call start (some callee) args) [.call start (some callee) args] base
  | onto {start : Nat} {callee o base : Expr} {m : String} {args : List (Argument Expr)}
    {calls : List Expr} : callee.IsMember o m → Spine o calls base →
      Spine (.call start (some callee) args) (.call start (some callee) args :: calls) base
  | paren {e base : Expr} {calls : List Expr} : Spine e calls base → Spine (.paren e) calls base

theorem callsInward_of_isMember {e o : Expr} {m : String} (h : e.IsMember o m) :
    e.callsInward = o.callsInward := by
  induction h with
  | field o n => rfl
  | index hk => rfl
  | paren _ ih => exact ih

theorem IsMember.sizeOf_lt {e o : Expr} {m : String} (h : e.IsMember o m) :
    sizeOf o < sizeOf e := by
  induction h with
  | field o n => simp; omega
  | index hk => simp; omega
  | paren _ ih => simp; omega

theorem Spine.callsInward {e base : Expr} {calls : List Expr} (h : e.Spine calls base) :
    e.callsInward = calls ++ base.callsInward := by
  induction h with
  | innermost hm _ => simp [Expr.callsInward, callsInward_of_isMember hm]
  | onto hm _ ih => simp [Expr.callsInward, callsInward_of_isMember hm, ih]
  | paren _ ih => exact ih

end PageQuery.Script.Expr

namespace PageQuery.Chain

open Script Script.Expr

/-! ### What a chain keeps of a call -/

/-- the chain lists the call: its method and what each argument gives -/
def IsListed (s : Source) (m : MethodCall) (call : Expr) : Prop :=
  ∃ start callee o args, call = .call start (some callee) args ∧ callee.IsMember o m.method ∧
    List.Forall₂ (fun a b => argOf s a = .ok b) args m.args

/-- the first argument gives the text; without arguments the text is empty -/
def FirstArgumentGives (s : Source) (args : List (Argument Expr)) (text : String) : Prop :=
  args = [] ∧ text = "" ∨ ∃ a rest b, args = a :: rest ∧ argOf s a = .ok b ∧ b.text = text

/-- the call is the root method and its first argument gives the source of the pages -/
def IsOpening (s : Source) (d : Dialect) (source : String) (call : Expr) : Prop :=
  ∃ start callee o args, call = .call start (some callee) args ∧ callee.IsMember o d.root ∧
    FirstArgumentGives s args source

/-- every one of the calls, the outermost first, is listed in the chain, or is the innermost one and
opens the chain -/
def Accounts (s : Source) (d : Dialect) (chain : Chain) (calls : List Expr) : Prop :=
  (∀ m ∈ chain.calls, m.method ≠ d.root) ∧
    (List.Forall₂ (IsListed s) chain.calls.reverse calls ∧ chain.source = "" ∨
      ∃ listed opening, calls = listed ++ [opening] ∧
        List.Forall₂ (IsListed s) chain.calls.reverse listed ∧
        IsOpening s d chain.source opening)

/-! ### The links of a spine -/

theorem objectLinks_of_isMember {callee o : Expr} {m : String} (h : callee.IsMember o m) :
    objectLinks callee = links o := by
  induction h with
  | field o n => rfl
  | index hk => simp [objectLinks, stringValue?_eq_some.2 hk]
  | paren _ ih => exact ih

theorem links_eq_nil_iff {e : Expr} : links e = [] ↔ ¬ e.IsCall := by
  constructor
  · intro h hc
    induction hc with
    | call start callee args => cases callee <;> cases h
    | paren _ ih => exact ih h
  · intro h
    fun_induction unparen e with
    | case1 e ih => exact ih fun hc => h (.paren hc)
    | case2 e hp =>
      unfold links
      split
      · exact absurd rfl (hp _)
      · exact absurd (.call _ _ _) h
      · exact absurd (.call _ _ _) h
      · rfl

/-- the chain with one more call, which is made before the others -/
theorem Accounts.cons {s : Source} {d : Dialect} {source : String} {ms : List MethodCall}
    {calls : List Expr} {m : MethodCall} {call : Expr} (h : Accounts s d ⟨source, ms⟩ calls)
    (hroot : m.method ≠ d.root) (hm : IsListed s m call) :
    Accounts s d ⟨source, ms ++ [m]⟩ (call :: calls) := by
  obtain ⟨hms, h⟩ := h
  refine ⟨?_, ?_⟩
  · intro x hx
    rcases List.mem_append.1 hx with hx | hx
    · exact hms x hx
    · rw [List.mem_singleton.1 hx]
      exact hroot
  · rcases h with ⟨hl, hs⟩ | ⟨listed, opening, rfl, hl, ho⟩
    · left
      exact ⟨by simpa using ⟨hm, hl⟩, hs⟩
    · right
      exact ⟨call :: listed, opening, rfl, by simpa using ⟨hm, hl⟩, ho⟩

/-- a chain that is one call accounts for it -/
theorem accounts_single {s : Source} {d : Dialect} {start : Nat} {callee o : Expr} {m : String}
    {args : List (Argument Expr)} {as : List Arg} (hm : callee.IsMember o m)
    (hroot : m ≠ d.root) (has : List.Forall₂ (fun a b => argOf s a = .ok b) args as) :
    Accounts s d ⟨"", [⟨m, as⟩]⟩ [.call start (some callee) args] := by
  refine ⟨by simpa using hroot, Or.inl ⟨?_, rfl⟩⟩
  exact .cons ⟨start, callee, o, args, rfl, hm, has⟩ .nil

theorem firstArgumentGives_of_forall₂ {s : Source} {args : List (Argument Expr)} {as : List Arg}
    (has : List.Forall₂ (fun a b => argOf s a = .ok b) args as) :
    FirstArgumentGives s args ((as.head?.map (·.text)).getD "") := by
  cases has with
  | nil => exact Or.inl ⟨rfl, rfl⟩
  | cons ha _ => exact Or.inr ⟨_, _, _, rfl, ha, rfl⟩

/-- **What a chain keeps.**  If the links of a call make up a chain, the call is a spine whose calls
are accounted for by what the chain has in front of `after`. -/
theorem spine_of_ofLinks {s : Source} {d : Dialect} {e : Expr} {after : List MethodCall}
    {chain : Chain} (he : e.IsCall) (h : ofLinks s d after (links e) = .ok chain) :
    ∃ calls base ms, e.Spine calls base ∧ chain.calls = ms ++ after ∧
      Accounts s d ⟨chain.source, ms⟩ calls := by
  match he with
  | .paren (e := e) he =>
    obtain ⟨calls, base, ms, hs, hc, ha⟩ := spine_of_ofLinks he h
    exact ⟨calls, base, ms, .paren hs, hc, ha⟩
  | .call start none args => cases h
  | .call start (some callee) args =>
    simp only [links, ofLinks] at h
    cases hr : callee.member? with
    | none => simp [hr] at h
    | some r =>
      obtain ⟨o', m⟩ := r
      obtain ⟨o, hm, rfl⟩ := member?_eq_some.1 hr
      simp only [hr, Option.map_some, objectLinks_of_isMember hm] at h
      obtain ⟨as, has, h⟩ := bind_eq_ok.1 h
      have has := mapM_eq_ok.1 has
      split at h
      · -- the root method: nothing may stand further in
        rename_i hroot
        have hroot := eq_of_beq hroot
        split at h
        · rename_i hnil
          cases h
          have ho : ¬ o.IsCall := links_eq_nil_iff.1 (List.isEmpty_iff.1 hnil)
          refine ⟨_, o, [], .innermost hm ho, rfl, by simp, Or.inr ⟨[], _, rfl, .nil, ?_⟩⟩
          exact ⟨start, callee, o, args, rfl, hroot ▸ hm, firstArgumentGives_of_forall₂ has⟩
        · cases h
      · rename_i hroot
        have hroot : m ≠ d.root := by simpa using hroot
        by_cases ho : o.IsCall
        · have : sizeOf o < sizeOf callee := hm.sizeOf_lt
          obtain ⟨calls, base, ms, hs, hc, ha⟩ := spine_of_ofLinks ho h
          refine ⟨_, base, ms ++ [⟨m, as⟩], .onto hm hs, by simp [hc], ha.cons hroot ?_⟩
          exact ⟨start, callee, o, args, rfl, hm, has⟩
        · rw [links_eq_nil_iff.2 ho] at h
          cases h
          exact ⟨_, o, [⟨m, as⟩], .innermost hm ho, rfl, accounts_single hm hroot has⟩
termination_by sizeOf e

/-! ### The base of a spine -/

theorem Accounts.length {s : Source} {d : Dialect} {chain : Chain} {calls : List Expr}
    (h : Accounts s d chain calls) :
    calls.length = chain.calls.length ∧ chain.source = "" ∨
      calls.length = chain.calls.length + 1 := by
  obtain ⟨-, ⟨hl, hs⟩ | ⟨listed, opening, rfl, hl, -⟩⟩ := h
  · have hlen := hl.length_eq
    rw [List.length_reverse] at hlen
    exact Or.inl ⟨hlen.symm, hs⟩
  · have hlen := hl.length_eq
    rw [List.length_reverse] at hlen
    right
    rw [List.length_append, ← hlen, List.length_singleton]

/-- calls accounted for, with further ones inside of them -/
theorem Accounts.append_iff {s : Source} {d : Dialect} {chain : Chain} {calls inner : List Expr}
    (h : Accounts s d chain calls) :
    Accounts s d chain (calls ++ inner) ↔
      inner = [] ∨ calls.length = chain.calls.length ∧ ∃ c, inner = [c] ∧ IsOpening s d "" c := by
  constructor
  · intro hi
    have hlen := h.length
    have hlen' := hi.length
    rw [List.length_append] at hlen'
    rcases inner with _ | ⟨c, _ | ⟨c', inner⟩⟩
    · exact Or.inl rfl
    · right
      obtain ⟨hcalls, hs⟩ : calls.length = chain.calls.length ∧ chain.source = "" := by
        rw [List.length_singleton] at hlen'
        rcases hlen with hlen | hlen
        · exact hlen
        · omega
      obtain ⟨-, ⟨hl, -⟩ | ⟨listed, opening, he, -, ho⟩⟩ := hi
      · have hl := hl.length_eq
        simp only [List.length_reverse, List.length_append, List.length_singleton] at hl
        omega
      · obtain ⟨rfl, rfl⟩ := List.append_singleton_inj.1 he
        exact ⟨hcalls, c, rfl, hs ▸ ho⟩
    · simp only [List.length_cons] at hlen'
      omega
  · rintro (rfl | ⟨hlen, c, rfl, ho⟩)
    · rwa [List.append_nil]
    · obtain ⟨hroot, ⟨hl, hs⟩ | ⟨listed, opening, rfl, hl, -⟩⟩ := h
      · exact ⟨hroot, Or.inr ⟨calls, c, rfl, hl, hs.symm ▸ ho⟩⟩
      · have hl := hl.length_eq
        simp only [List.length_reverse, List.length_append, List.length_singleton] at hl hlen
        omega

theorem ofSource_accounts {s : Source} {d : Dialect} {chain : Chain}
    (h : ofSource s d = .ok chain) :
    ∃ calls base, s.expr.Spine calls base ∧ Accounts s d chain calls := by
  unfold ofSource at h
  split at h
  · cases h
  · rename_i hne
    have he : s.expr.IsCall := by
      by_contra hn
      exact hne (links_eq_nil_iff.2 hn)
    obtain ⟨calls, base, ms, hs, hc, ha⟩ := spine_of_ofLinks he h
    rw [List.append_nil] at hc
    obtain ⟨source, ms'⟩ := chain
    cases hc
    exact ⟨calls, base, hs, ha⟩

end PageQuery.Chain

namespace PageQuery.Translation

open Script Script.Expr Chain

/-- **The calls of a query.**  The calls of the spine are accounted for by the chain, whose source
reaches the clauses.  All calls met on the way inwards are accounted for exactly if the base of the
spine holds none, or holds only an opening that names no pages below calls that are all listed. -/
theorem ofText_accounts {text : String} {d : Dialect} {t : Translation}
    (h : ofText text d = .ok t) :
    ∃ s calls base, readExpression text = .ok s ∧ s.expr.Spine calls base ∧
      Accounts s d t.chain calls ∧
      t.clauses.pages = (Clauses.ofRoot d t.chain.source).pages ∧
      (Clauses.ofRoot d t.chain.source).conditions <+: t.clauses.conditions ∧
      (Accounts s d t.chain s.expr.callsInward ↔
        base.callsInward = [] ∨ calls.length = t.chain.calls.length ∧
          ∃ c, base.callsInward = [c] ∧ IsOpening s d "" c) := by
  obtain ⟨s, chain, hs, hc, ht⟩ := ofText_eq_ok.1 h
  obtain ⟨cs, -, rfl, hclauses, -⟩ := ofChain_eq_ok.1 ht
  obtain ⟨calls, base, hspine, ha⟩ := ofSource_accounts hc
  refine ⟨s, calls, base, hs, hspine, ha, ?_, ?_, ?_⟩
  · rw [hclauses, Clauses.collect]
  · rw [hclauses, Clauses.collect]
    exact List.prefix_append _ _
  · rw [hspine.callsInward]
    exact ha.append_iff

/-- a field between two calls ends the spine: the tag and the first of the conditions are dropped -/
theorem ofText_accounts_field_between :
    ∃ t s calls base,
      ofText "dv.pages(\"#tag\").where(p => p.b).values.where(p => p.a)" {} = .ok t ∧
      t.query = "LIST WHERE a" ∧
      readExpression "dv.pages(\"#tag\").where(p => p.b).values.where(p => p.a)" = .ok s ∧
      s.expr.Spine calls base ∧ Accounts s {} t.chain calls ∧
      ¬ Accounts s {} t.chain s.expr.callsInward := by
  have ht : (ofText "dv.pages(\"#tag\").where(p => p.b).values.where(p => p.a)" {}).toOption.map
      (fun t => (t.query, t.chain.calls.length)) = some ("LIST WHERE a", 1) := by
    decide +kernel
  have hlen : (readExpression
      "dv.pages(\"#tag\").where(p => p.b).values.where(p => p.a)").toOption.map
      (·.expr.callsInward.length) = some 3 := by
    decide +kernel
  cases hr : ofText "dv.pages(\"#tag\").where(p => p.b).values.where(p => p.a)" {} with
  | error f =>
    rw [hr] at ht
    cases ht
  | ok t =>
    obtain ⟨s, calls, base, hs, hspine, ha, -, -, -⟩ := ofText_accounts hr
    rw [hr] at ht
    rw [hs] at hlen
    obtain ⟨hq, hone⟩ := Prod.mk.inj (Option.some.inj ht)
    refine ⟨t, s, calls, base, rfl, hq, hs, hspine, ha, ?_⟩
    intro hall
    have hthree : s.expr.callsInward.length = 3 := Option.some.inj hlen
    rcases hall.length with ⟨h, -⟩ | h
    · omega
    · omega

end PageQuery.Translation
