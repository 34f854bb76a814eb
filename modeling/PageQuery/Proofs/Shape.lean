import PageQuery.Query.Shape

/-!
# The shapes of expressions as relations

Each reading of `Query/Shape.lean` is set beside a relation that says which expressions have the
shape and what is read off them:

* `IsText`, `IsNumber`, `IsVariable`: literals and variables;
* `IsMember`, `IsLambda`, `IsMethodCall`: accesses by a fixed name, callbacks, calls with one argument;
* `IsAccess`, `IsPath`: the names accessed one after the other from a variable on.

Every relation has a rule for parentheses, so it does not see them.
-/

namespace PageQuery.Script.Expr

/-- the expression is a string, or a template without substitutions -/
inductive IsText : Expr → String → Prop
  | string (s : String) : IsText (.string s) s
  | template (s : String) : IsText (.template [s] []) s
  | paren {e : Expr} {s : String} : IsText e s → IsText (.paren e) s

/-- the expression is a number literal -/
inductive IsNumber : Expr → Binary64 → Prop
  | number (x : Binary64) : IsNumber (.number x) x
  | paren {e : Expr} {x : Binary64} : IsNumber e x → IsNumber (.paren e) x

/-- the expression is a variable -/
inductive IsVariable : Expr → String → Prop
  | identifier (w : String) : IsVariable (.identifier w) w
  | paren {e : Expr} {w : String} : IsVariable e w → IsVariable (.paren e) w

/-- the expression is a member of an object, by a name or by a text in brackets -/
inductive IsMember : Expr → Expr → String → Prop
  | field (o : Expr) (n : String) : IsMember (.field o n) o n
  | index {o k : Expr} {n : String} : k.IsText n → IsMember (.index o k) o n
  | paren {e o : Expr} {n : String} : IsMember e o n → IsMember (.paren e) o n

/-- the expression is an arrow function, not an asynchronous one, of one named parameter, whose
body is an expression or returns one and does nothing else -/
inductive IsLambda : Expr → String → Expr → Prop
  | arrow (p : String) (body : Expr) : IsLambda (.arrow false [some p] (some body)) p body
  | paren {e body : Expr} {p : String} : IsLambda e p body → IsLambda (.paren e) p body

/-- the expression calls a method of an object with one argument, which is not spread -/
inductive IsMethodCall : Expr → Expr → String → Expr → Prop
  | call {start : Nat} {callee o a : Expr} {m : String} {extent : Extent} :
    callee.IsMember o m → IsMethodCall (.call start (some callee) [⟨false, extent, a⟩]) o m a
  | paren {e o a : Expr} {m : String} : IsMethodCall e o m a → IsMethodCall (.paren e) o m a

/-- the name is not empty and made of letters, digits and underscores -/
def IsPathName (n : String) : Prop :=
  n ≠ "" ∧ ∀ c ∈ n.toList, Text.isAlphanumeric c = true ∨ c = '_'

/-- the expression accesses the names one after the other, from the variable `p` on -/
inductive IsAccess (p : String) : Expr → List String → Prop
  | start {e : Expr} : e.IsVariable p → IsAccess p e []
  | member {e o : Expr} {n : String} {ns : List String} :
    e.IsMember o n → IsPathName n → IsAccess p o ns → IsAccess p e (ns ++ [n])

/-- the expression is the field of the variable `p` at a path -/
def IsPath (p : String) (e : Expr) (path : List String) : Prop :=
  IsAccess p e path ∧ path ≠ []

/-! ### Parentheses -/

/-- a property that does not see one pair of parentheses sees none -/
theorem unparen_iff {P : Expr → Prop} (h : ∀ e, P (.paren e) ↔ P e) (e : Expr) :
    P e.unparen ↔ P e := by
  fun_induction unparen e with
  | case1 e ih => rw [ih, h]
  | case2 e _ => rfl

@[simp] theorem isText_paren {e : Expr} {t : String} : (paren e).IsText t ↔ e.IsText t :=
  ⟨fun h => by cases h; assumption, .paren⟩

@[simp] theorem isNumber_paren {e : Expr} {x : Binary64} : (paren e).IsNumber x ↔ e.IsNumber x :=
  ⟨fun h => by cases h; assumption, .paren⟩

@[simp] theorem isVariable_paren {e : Expr} {w : String} :
    (paren e).IsVariable w ↔ e.IsVariable w :=
  ⟨fun h => by cases h; assumption, .paren⟩

@[simp] theorem isMember_paren {e o : Expr} {n : String} :
    (paren e).IsMember o n ↔ e.IsMember o n :=
  ⟨fun h => by cases h; assumption, .paren⟩

@[simp] theorem isMethodCall_paren {e o a : Expr} {m : String} :
    (paren e).IsMethodCall o m a ↔ e.IsMethodCall o m a :=
  ⟨fun h => by cases h; assumption, .paren⟩

theorem isAccess_paren {p : String} {e : Expr} {ns : List String} :
    IsAccess p (paren e) ns ↔ IsAccess p e ns := by
  constructor
  · rintro (h | ⟨h, hn, ho⟩)
    · exact .start (isVariable_paren.1 h)
    · exact .member (isMember_paren.1 h) hn ho
  · rintro (h | ⟨h, hn, ho⟩)
    · exact .start (.paren h)
    · exact .member (.paren h) hn ho

theorem isMethodCall_unparen {e o a : Expr} {m : String} :
    e.unparen.IsMethodCall o m a ↔ e.IsMethodCall o m a :=
  unparen_iff (P := fun e => e.IsMethodCall o m a) (fun _ => isMethodCall_paren) e

theorem IsMethodCall.unparen {e o a : Expr} {m : String} (h : e.IsMethodCall o m a) :
    ∃ start callee extent, e.unparen = .call start (some callee) [⟨false, extent, a⟩] ∧
      callee.IsMember o m := by
  induction h with
  | call hm => exact ⟨_, _, _, rfl, hm⟩
  | paren _ ih => exact ih

/-! ### The readings -/

theorem stringValue?_eq_some {e : Expr} {s : String} : e.stringValue? = some s ↔ e.IsText s := by
  constructor
  · intro h
    fun_induction stringValue? e with
    | case1 e ih => exact .paren (ih h)
    | case2 t => cases h; exact .string _
    | case3 t => cases h; exact .template _
    | case4 e => cases h
  · intro h
    induction h with
    | string s => rfl
    | template s => rfl
    | paren _ ih => exact ih

theorem variableName?_eq_some {e : Expr} {w : String} :
    e.variableName? = some w ↔ e.IsVariable w := by
  constructor
  · intro h
    fun_induction variableName? e with
    | case1 e ih => exact .paren (ih h)
    | case2 v => cases h; exact .identifier _
    | case3 e => cases h
  · intro h
    induction h with
    | identifier w => rfl
    | paren _ ih => exact ih

theorem unparen_eq_number {e : Expr} {x : Binary64} : e.unparen = .number x ↔ e.IsNumber x := by
  constructor
  · intro h
    have hx : e.unparen.IsNumber x := h ▸ .number x
    exact (unparen_iff (P := fun e => e.IsNumber x) (fun _ => isNumber_paren) e).1 hx
  · intro h
    induction h with
    | number x => rfl
    | paren _ ih => exact ih

/-- the object is read without the parentheses around it -/
theorem member?_eq_some {e o : Expr} {n : String} :
    e.member? = some (o, n) ↔ ∃ o', e.IsMember o' n ∧ o'.unparen = o := by
  constructor
  · intro h
    fun_induction member? e with
    | case1 e ih =>
      obtain ⟨o', hm, ho⟩ := ih h
      exact ⟨o', .paren hm, ho⟩
    | case2 o' m => cases h; exact ⟨o', .field o' _, rfl⟩
    | case3 o' k =>
      obtain ⟨m, hk, hm⟩ := Option.map_eq_some_iff.1 h
      cases hm
      exact ⟨o', .index (stringValue?_eq_some.1 hk), rfl⟩
    | case4 e => cases h
  · rintro ⟨o', h, rfl⟩
    induction h with
    | field o n => rfl
    | index hk => simp [member?, stringValue?_eq_some.2 hk]
    | paren _ ih => exact ih

/-- the result is read without the parentheses around it -/
theorem lambda?_eq_some {e body : Expr} {p : String} :
    e.lambda? = some (p, body) ↔ ∃ b, e.IsLambda p b ∧ b.unparen = body := by
  constructor
  · intro h
    fun_induction lambda? e with
    | case1 e ih =>
      obtain ⟨b, hb, hu⟩ := ih h
      exact ⟨b, .paren hb, hu⟩
    | case2 q r => cases h; exact ⟨r, .arrow _ r, rfl⟩
    | case3 e => cases h
  · rintro ⟨b, h, rfl⟩
    induction h with
    | arrow p b => rfl
    | paren _ ih => exact ih

theorem isPathName_iff {n : String} : isPathName n = true ↔ IsPathName n := by
  simp [isPathName, IsPathName]

theorem accesses?_of_isMember {p n : String} {e o : Expr} (hm : e.IsMember o n)
    (hn : IsPathName n) : e.accesses? p = (o.accesses? p).map (· ++ [n]) := by
  rw [← isPathName_iff] at hn
  induction hm with
  | field o n => simp [accesses?, hn]
  | index hk => simp [accesses?, stringValue?_eq_some.2 hk, hn]
  | paren _ ih => exact ih hn

theorem accesses?_eq_some {p : String} {e : Expr} {ns : List String} :
    e.accesses? p = some ns ↔ IsAccess p e ns := by
  constructor
  · intro h
    fun_induction accesses? p e generalizing ns with
    | case1 e ih => exact isAccess_paren.2 (ih h)
    | case2 w hw =>
      cases h
      rw [eq_of_beq hw]
      exact .start (.identifier p)
    | case3 w hw => cases h
    | case4 o n hn ih =>
      obtain ⟨ms, hms, rfl⟩ := Option.map_eq_some_iff.1 h
      exact .member (.field o n) (isPathName_iff.1 hn) (ih hms)
    | case5 o n hn => cases h
    | case6 o k n hk hn ih =>
      obtain ⟨ms, hms, rfl⟩ := Option.map_eq_some_iff.1 h
      exact .member (.index (stringValue?_eq_some.1 hk)) (isPathName_iff.1 hn) (ih hms)
    | case7 o k n hk hn => cases h
    | case8 o k hk => cases h
    | case9 e => cases h
  · intro h
    induction h with
    | start hv =>
      induction hv with
      | identifier w => simp [accesses?]
      | paren _ ih => exact ih
    | member hm hn _ ih => simp [accesses?_of_isMember hm hn, ih]

theorem path?_eq_some {p : String} {e : Expr} {path : List String} :
    e.path? p = some path ↔ IsPath p e path := by
  unfold path? IsPath
  rw [← accesses?_eq_some]
  cases e.accesses? p with
  | none => simp
  | some ns => cases ns <;> simp; grind

theorem IsAccess.names {p : String} {e : Expr} {ns : List String} (h : IsAccess p e ns) :
    ∀ n ∈ ns, IsPathName n := by
  induction h with
  | start _ => simp
  | member _ hn _ ih =>
    intro m hm
    rcases List.mem_append.1 hm with hm | hm
    · exact ih m hm
    · rw [List.mem_singleton.1 hm]
      exact hn

end PageQuery.Script.Expr
