import PageQuery.Proofs.Correspondence
import PageQuery.Proofs.Callbacks

/-!
# Callbacks whose parameters have other names

`Renames p q e e'`: the second expression is the first one with the free occurrences of the variable `p`
renamed to `q`, a name that does not occur in it.  Renamed expressions are read alike
(`Renames.corresponds`), so the name of the parameter of a callback does not matter, and neither does the
name of the parameter of a callback within it: `together_renamed`.  Expressions are taken without
parentheses and places, as `Expr.core` has them.
-/

namespace PageQuery

open Script Script.Expr Condition

mutual
/-- the free occurrences of a variable are renamed to a name that does not occur -/
inductive Renames (p q : String) : Expr → Expr → Prop
  | identifier {w : String} :
    w ≠ q → Renames p q (.identifier w) (.identifier (if w = p then q else w))
  | constant {e : Expr} : e.isConstant = true → Renames p q e e
  | template {es es' : List Expr} (chunks : List String) :
    RenamesAll p q es es' → Renames p q (.template chunks es) (.template chunks es')
  | array {es es' : List (Option (Argument Expr))} :
    RenamesElements p q es es' → Renames p q (.array es) (.array es')
  | arrow {r r' : Option Expr} {ps : List (Option String)} (isAsync : Bool) : some p ∉ ps →
    some q ∉ ps → RenamesOption p q r r' → Renames p q (.arrow isAsync ps r) (.arrow isAsync ps r')
  /-- a parameter of that name, or perhaps one in a pattern, shadows the variable -/
  | shadowed {ps : List (Option String)} (isAsync : Bool) (r : Option Expr) :
    some p ∈ ps ∨ none ∈ ps → some q ∉ ps → Renames p q (.arrow isAsync ps r) (.arrow isAsync ps r)
  | field {o o' : Expr} (n : String) : Renames p q o o' → Renames p q (.field o n) (.field o' n)
  | index {o o' k k' : Expr} :
    Renames p q o o' → Renames p q k k' → Renames p q (.index o k) (.index o' k')
  | privateField {o o' : Expr} :
    Renames p q o o' → Renames p q (.privateField o) (.privateField o')
  | call {c c' : Option Expr} {as as' : List (Argument Expr)} (start : Nat) : RenamesOption p q c c' →
    RenamesArguments p q as as' → Renames p q (.call start c as) (.call start c' as')
  | optional {e e' : Expr} : Renames p q e e' → Renames p q (.optional e) (.optional e')
  | unary {e e' : Expr} (op : UnaryOp) :
    Renames p q e e' → Renames p q (.unary op e) (.unary op e')
  | binary {l l' r r' : Expr} (op : BinaryOp) :
    Renames p q l l' → Renames p q r r' → Renames p q (.binary op l r) (.binary op l' r')
  | other {es es' : List Expr} : RenamesAll p q es es' → Renames p q (.other es) (.other es')
/-- each expression is renamed -/
inductive RenamesAll (p q : String) : List Expr → List Expr → Prop
  | nil : RenamesAll p q [] []
  | cons {e e' : Expr} {es es' : List Expr} :
    Renames p q e e' → RenamesAll p q es es' → RenamesAll p q (e :: es) (e' :: es')
/-- the expression, if there is one, is renamed -/
inductive RenamesOption (p q : String) : Option Expr → Option Expr → Prop
  | none : RenamesOption p q none none
  | some {e e' : Expr} : Renames p q e e' → RenamesOption p q (some e) (some e')
/-- the value of each argument is renamed -/
inductive RenamesArguments (p q : String) : List (Argument Expr) → List (Argument Expr) → Prop
  | nil : RenamesArguments p q [] []
  | cons {e e' : Expr} {as as' : List (Argument Expr)} (spread : Bool) (extent : Extent) :
    Renames p q e e' → RenamesArguments p q as as' →
      RenamesArguments p q (⟨spread, extent, e⟩ :: as) (⟨spread, extent, e'⟩ :: as')
/-- the value of each element that is not left out is renamed -/
inductive RenamesElements (p q : String) :
    List (Option (Argument Expr)) → List (Option (Argument Expr)) → Prop
  | nil : RenamesElements p q [] []
  | hole {es es' : List (Option (Argument Expr))} :
    RenamesElements p q es es' → RenamesElements p q (none :: es) (none :: es')
  | cons {e e' : Expr} {es es' : List (Option (Argument Expr))} (spread : Bool) (extent : Extent) :
    Renames p q e e' → RenamesElements p q es es' →
      RenamesElements p q (some ⟨spread, extent, e⟩ :: es) (some ⟨spread, extent, e'⟩ :: es')
end

/-! ### Renamed expressions are read alike -/

theorem SameName.iff_of_ne {p q v : String} {n n' : Option String} (h : SameName p q n n')
    (hp : v ≠ p) (hq : v ≠ q) : n = some v ↔ n' = some v := by
  cases h with
  | none => rfl
  | parameter => simp [hp.symm, hq.symm]
  | other _ _ => rfl

section

variable {p q : String}

theorem RenamesAll.eq_nil_iff {es es' : List Expr} (h : RenamesAll p q es es') :
    es = [] ↔ es' = [] := by
  cases h <;> simp

mutual
theorem Renames.corresponds (hp : p ≠ "undefined") (hq : q ≠ "undefined") {e e' : Expr} :
    Renames p q e e' → Corresponds p q e e'
  | .identifier hw => .identifier hp hq hw
  | .constant h => .constant p q h
  | .template _ h => .template p q h.eq_nil_iff
  | .array h => .array (h.corresponds hp hq)
  | .arrow _ _ _ .none => .arrow rfl
  | .arrow _ hps hqs (.some h) => .result fun v hv =>
    (h.corresponds hp hq).lookedUp.iff_of_ne (by rintro rfl; simp [hv] at hps)
      (by rintro rfl; simp [hv] at hqs)
  | .shadowed _ _ _ _ => .arrow rfl
  | .field n h => (h.corresponds hp hq).field n
  | .index ho hk => (ho.corresponds hp hq).index (hk.corresponds hp hq)
  | .privateField _ => .privateField p q _ _
  | .call _ .none has => .call .none (has.corresponds hp hq)
  | .call _ (.some hc) has => .call (.some (hc.corresponds hp hq)) (has.corresponds hp hq)
  | .optional _ => .optional p q _ _
  | .unary op h => (h.corresponds hp hq).unary op
  | .binary op hl hr => (hl.corresponds hp hq).binary op (hr.corresponds hp hq)
  | .other _ => .other p q _ _
theorem RenamesArguments.corresponds (hp : p ≠ "undefined") (hq : q ≠ "undefined")
    {as as' : List (Argument Expr)} :
    RenamesArguments p q as as' → List.Forall₂ (Argument.Passes (Corresponds p q)) as as'
  | .nil => .nil
  | .cons _ _ h hs => .cons ⟨rfl, h.corresponds hp hq⟩ (hs.corresponds hp hq)
theorem RenamesElements.corresponds (hp : p ≠ "undefined") (hq : q ≠ "undefined")
    {es es' : List (Option (Argument Expr))} : RenamesElements p q es es' →
      List.Forall₂ (Option.Rel (Argument.Passes (Corresponds p q))) es es'
  | .nil => .nil
  | .hole hs => .cons .none (hs.corresponds hp hq)
  | .cons _ _ h hs => .cons (.some ⟨rfl, h.corresponds hp hq⟩) (hs.corresponds hp hq)
end

/-! ### Callbacks within a condition

Of a callback within a condition only the variable is read that it looks up, and that is no literal,
whatever its name is. -/

theorem Renames.stringValue {e e' : Expr} (h : Renames p q e e') :
    e.stringValue? = e'.stringValue? := by
  cases h with
  | template chunks h =>
    cases h with
    | nil => rfl
    | cons _ _ => rcases chunks with _ | ⟨s, _ | ⟨t, chunks⟩⟩ <;> rfl
  | _ => rfl

theorem Renames.variableName {e e' : Expr} (h : Renames p q e e') :
    SameName p q e.variableName? e'.variableName? := by
  cases h with
  | @identifier w hw =>
    by_cases hp : w = p
    · subst hp
      rw [if_pos rfl]
      exact .parameter
    · rw [if_neg hp]
      exact .other hp hw
  | constant h => cases e <;> first | exact .none | cases h
  | _ => exact .none

theorem Renames.methodName {e e' : Expr} (h : Renames p q e e') :
    e.member?.map (·.2) = e'.member?.map (·.2) := by
  cases h with
  | index ho hk => simp [member?, hk.stringValue, Function.comp_def]
  | _ => rfl

theorem RenamesArguments.passes {as as' : List (Argument Expr)} :
    RenamesArguments p q as as' → List.Forall₂ (Argument.Passes (Renames p q)) as as'
  | .nil => .nil
  | .cons _ _ h hs => .cons ⟨rfl, h⟩ hs.passes

theorem Renames.lookedUp {e e' : Expr} (h : Renames p q e e') :
    SameName p q (lookedUp? e) (lookedUp? e') := by
  cases h with
  | call start hc has =>
    cases hc with
    | none => exact .none
    | some hc =>
      simp only [lookedUp?, unparen, lookedUpBy?, hc.methodName]
      split
      · have hneedle := plainArgument_passes has.passes
        generalize plainArgument? _ = needle at hneedle ⊢
        generalize plainArgument? _ = needle' at hneedle ⊢
        cases hneedle with
        | none => exact .none
        | some h => exact h.variableName
      · exact .none
  | constant h => cases e <;> first | exact .none | cases h
  | shadowed _ _ _ _ => exact .none
  | _ => exact .none

/-- an arrow function of one parameter, and the same with its parameter renamed -/
inductive RenamesParameter (p q : String) : Expr → Expr → Prop
  | arrow {r r' : Option Expr} (isAsync : Bool) : RenamesOption p q r r' →
    RenamesParameter p q (.arrow isAsync [some p] r) (.arrow isAsync [some q] r')

/-- Within a condition on another parameter, the name of the parameter of a callback does not matter. -/
theorem RenamesParameter.corresponds {s : String} {e e' : Expr} (h : RenamesParameter p q e e') :
    Corresponds s s e e' := by
  obtain ⟨isAsync, hr⟩ := h
  refine .arrow ?_
  cases hr with
  | none => cases isAsync <;> rfl
  | some hr =>
    cases isAsync with
    | true => rfl
    | false =>
      rw [looksUp_lambda, looksUp_lambda, Bool.eq_iff_iff, beq_iff_eq, beq_iff_eq,
        hr.lookedUp.parameter_iff]

end

/-! ### Callbacks -/

/-- the second callback is the first one with one of its parameters renamed: its own parameter, where
neither name is the one of a literal, or the parameter of a callback within its result -/
inductive RenamedCallback : Expr → Expr → Prop
  | parameter {p q : String} {e e' : Expr} : p ≠ "undefined" → q ≠ "undefined" →
    RenamesParameter p q e e' → RenamedCallback e e'
  | within {r r' : Expr} (isAsync : Bool) (ps : List (Option String)) :
    Within (fun e e' => ∃ v w, RenamesParameter v w e e') r r' →
      RenamedCallback (.arrow isAsync ps (some r)) (.arrow isAsync ps (some r'))

/-- the results of two callbacks are read alike, each for its parameter -/
def ReadAlike (l l' : String × Expr) : Prop :=
  (ofExpr l.1 l.2).toOption = (ofExpr l'.1 l'.2).toOption ∧ l.2.path? l.1 = l'.2.path? l'.1

theorem Corresponds.readAlike {p q : String} {r r' : Expr} (h : Corresponds p q r r') :
    ReadAlike (p, r.unparen) (q, r'.unparen) := by
  have hpath : ∀ (v : String) (e : Expr), e.unparen.path? v = e.path? v := fun v e => by
    rw [← path?_core, core_unparen, path?_core]
  constructor
  · dsimp only
    rw [ofExpr_unparen, ofExpr_unparen, ← h.condition]
    cases ofExpr p r <;> rfl
  · dsimp only
    rw [hpath, hpath, h.path]

theorem RenamedCallback.readAlike {e e' : Expr} (h : RenamedCallback e e') :
    Option.Rel ReadAlike e.lambda? e'.lambda? := by
  cases h with
  | parameter hp hq h =>
    obtain ⟨isAsync, hr⟩ := h
    cases hr with
    | none => cases isAsync <;> exact .none
    | some hr =>
      cases isAsync with
      | true => exact .none
      | false => exact .some (hr.corresponds hp hq).readAlike
  | within isAsync ps h =>
    have hcorresponds : ∀ p, Corresponds p p _ _ := fun p =>
      h.corresponds (p := p) fun _ _ ⟨_, _, h⟩ => h.corresponds
    rcases isAsync, ps with ⟨_ | _, _ | ⟨_ | p, _ | _⟩⟩ <;>
      first
      | exact .none
      | exact .some (hcorresponds p).readAlike

theorem Together.of_toOption_eq {α ε : Type} {x y : Except ε α} (h : x.toOption = y.toOption) :
    Together (· = ·) x y := by
  cases x with
  | ok a =>
    cases y with
    | ok b => exact .ok (Option.some.inj h)
    | error f => cases h
  | error e =>
    cases y with
    | ok b => cases h
    | error f => exact .error

/-- **Names of parameters.**  Of two callbacks that differ in the name of one parameter, each is accepted
where the other one is, and they give the same condition, the same key and the same single field. -/
theorem together_renamed {a a' : Arg} {e e' : Expr} (ha : a.expr = .ok e) (ha' : a'.expr = .ok e')
    (h : RenamedCallback e.core e'.core) :
    Together (fun c c' => c = c' ∧ c.fragment = c'.fragment) (ofArg a) (ofArg a') ∧
      Together (· = ·) (Selector.key a) (Selector.key a') ∧
      Together (· = ·) (Selector.singleField a) (Selector.singleField a') := by
  have hsame : a.condition? = a'.condition? ∧ a.path? = a'.path? := by
    rw [Arg.condition?_eq, Arg.condition?_eq, Arg.path?_eq, Arg.path?_eq, ha, ha']
    simp only [Except.toOption, Option.map_some, Option.bind_some]
    have hread := h.readAlike
    generalize e.core.lambda? = l at hread
    generalize e'.core.lambda? = l' at hread
    cases hread with
    | none => exact ⟨rfl, rfl⟩
    | some h => exact h
  refine ⟨(Together.of_toOption_eq hsame.1).mono fun c c' _ _ hc => ⟨hc, hc ▸ rfl⟩, ?_, ?_⟩
  · exact .of_toOption_eq (by rw [toOption_key, toOption_key, hsame.2])
  · exact .of_toOption_eq (by rw [toOption_singleField, toOption_singleField, hsame.2])

/-- the question whether a field of a variable includes the variable -/
def includesItself (v : String) : Expr :=
  .call 0 (some (.field (.field (.identifier v) "tags") "includes")) [⟨false, ⟨0, 0⟩, .identifier v⟩]

/-- a field of the parameter and a tag, which is looked up by a callback -/
def fieldAndTag (p v : String) : Expr :=
  .arrow false [some p] (some (.binary .and (.field (.identifier p) "a")
    (.call 0 (some (.field (.array [some ⟨false, ⟨0, 0⟩, .string "#x"⟩]) "every"))
      [⟨false, ⟨0, 0⟩, .arrow false [some v] (some (includesItself v))⟩])))

/-- the parameter renamed where a callback shadows it, and the parameter of that callback renamed -/
theorem fieldAndTag_renamed :
    Together (fun c c' => c = c' ∧ c.fragment = c'.fragment)
        (ofArg ⟨"", some (fieldAndTag "p" "p")⟩) (ofArg ⟨"", some (fieldAndTag "page" "p")⟩) ∧
      Together (fun c c' => c = c' ∧ c.fragment = c'.fragment)
        (ofArg ⟨"", some (fieldAndTag "p" "p")⟩) (ofArg ⟨"", some (fieldAndTag "p" "tag")⟩) ∧
      (ofArg ⟨"", some (fieldAndTag "p" "p")⟩).toOption.map (·.fragment) =
        some "a AND contains(file.tags, \"#x\")" := by
  have hp : Renames "p" "page" (.identifier "p") (.identifier "page") := .identifier (by decide)
  have hv : Renames "p" "tag" (.identifier "p") (.identifier "tag") := .identifier (by decide)
  have hshadowed : Renames "p" "page" (.arrow false [some "p"] (some (includesItself "p")))
      (.arrow false [some "p"] (some (includesItself "p"))) := .shadowed _ _ (by decide) (by decide)
  have hincludes : Renames "p" "tag" (includesItself "p") (includesItself "tag") :=
    .call _ (.some (.field _ (.field _ hv))) (.cons _ _ hv .nil)
  have houter : RenamedCallback (fieldAndTag "p" "p").core (fieldAndTag "page" "p").core :=
    .parameter (by decide) (by decide) (.arrow _ (.some (.binary _ (.field _ hp) (.call _
      (.some (.field _ (.array (.cons _ _ (.constant rfl) .nil)))) (.cons _ _ hshadowed .nil)))))
  have hinner : RenamedCallback (fieldAndTag "p" "p").core (fieldAndTag "p" "tag").core :=
    .within _ _ (.right _ _ (.argument _ _ [] _ _ []
      (.here ⟨"p", "tag", .arrow _ (.some hincludes)⟩)))
  exact ⟨(together_renamed rfl rfl houter).1, (together_renamed rfl rfl hinner).1,
    by decide +kernel⟩

end PageQuery
