import PageQuery.Query.Selector
import PageQuery.Proofs.Collect
import PageQuery.Proofs.Shape

/-!
# The callbacks that select a field

`Selects a path`: the argument is an arrow function whose result is the field of its parameter at a
path.  A key is the text of any path (`key_eq_ok`), a single field a path of one name
(`singleField_eq_ok`).
-/

namespace PageQuery.Selector

open Script Script.Expr

/-- the argument is an arrow function of one parameter, and its result the field of that parameter at
a path -/
def Selects (a : Arg) (path : List String) : Prop :=
  ∃ e p body, a.expr = .ok e ∧ e.IsLambda p body ∧ IsPath p body path

theorem isPath_unparen {p : String} {e : Expr} {path : List String} :
    IsPath p e.unparen path ↔ IsPath p e path := by
  refine unparen_iff (P := fun e => IsPath p e path) (fun e => ?_) e
  unfold IsPath
  rw [isAccess_paren]

theorem pathOfExpr?_eq_some {e : Expr} {path : List String} :
    pathOfExpr? e = some path ↔ ∃ p body, e.IsLambda p body ∧ IsPath p body path := by
  simp only [pathOfExpr?, Option.bind_eq_some_iff, Prod.exists, path?_eq_some, lambda?_eq_some]
  constructor
  · rintro ⟨p, _, ⟨body, hl, rfl⟩, hp⟩
    exact ⟨p, body, hl, isPath_unparen.1 hp⟩
  · rintro ⟨p, body, hl, hp⟩
    exact ⟨p, _, ⟨body, hl, rfl⟩, isPath_unparen.2 hp⟩

theorem pathOf_eq_ok {a : Arg} {path : List String} : pathOf a = .ok path ↔ Selects a path := by
  unfold pathOf Selects
  rw [bind_eq_ok]
  constructor
  · rintro ⟨e, he, h⟩
    split at h
    · rename_i path' hpath
      cases h
      obtain ⟨p, body, hl, hp⟩ := pathOfExpr?_eq_some.1 hpath
      exact ⟨e, p, body, he, hl, hp⟩
    · cases h
  · rintro ⟨e, p, body, he, hl, hp⟩
    refine ⟨e, he, ?_⟩
    rw [pathOfExpr?_eq_some.2 ⟨p, body, hl, hp⟩]

theorem key_eq_ok {a : Arg} {k : String} :
    key a = .ok k ↔ ∃ path, Selects a path ∧ k = pathText path := by
  unfold key
  rw [bind_eq_ok]
  constructor
  · rintro ⟨path, hpath, h⟩
    cases h
    exact ⟨path, pathOf_eq_ok.1 hpath, rfl⟩
  · rintro ⟨path, hpath, rfl⟩
    exact ⟨path, pathOf_eq_ok.2 hpath, rfl⟩

theorem singleField_eq_ok {a : Arg} {n : String} : singleField a = .ok n ↔ Selects a [n] := by
  unfold singleField
  rw [bind_eq_ok]
  constructor
  · rintro ⟨path, hpath, h⟩
    split at h
    · cases h
      exact pathOf_eq_ok.1 hpath
    · cases h
  · intro h
    exact ⟨[n], pathOf_eq_ok.2 h, rfl⟩

end PageQuery.Selector
