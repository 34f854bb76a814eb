import PageQuery.Proofs.Operands
import PageQuery.Proofs.Selector

/-!
# Keys and the paths they are the texts of

A callback selects one path at most (`SelectsPath.unique`), and as no name of a path holds a point,
the text of a key is cut at its points into the names of the path again (`SelectsPath.segments`).  So a
key is known by its text: `key_exact`.

Only arrow functions that are not asynchronous select anything: `asyncSelector_selects_nothing`.
-/

namespace PageQuery

open Script Script.Expr

namespace Selector

/-- the expression is an arrow function of one parameter, and its result the field of that parameter
at a path -/
def SelectsPath (e : Expr) (path : List String) : Prop :=
  ∃ p body, e.IsLambda p body ∧ IsPath p body path

/-- the pieces of a text between its points -/
def segments (text : String) : List String := (text.toList.splitOn '.').map String.ofList

section

variable {e : Expr} {path : List String}

theorem SelectsPath.names (h : SelectsPath e path) : path ≠ [] ∧ ∀ n ∈ path, IsPathName n := by
  obtain ⟨p, body, -, haccess, hne⟩ := h
  exact ⟨hne, haccess.names⟩

theorem SelectsPath.unique {path' : List String} (h : SelectsPath e path)
    (h' : SelectsPath e path') : path = path' :=
  Option.some.inj ((pathOfExpr?_eq_some.2 h).symm.trans (pathOfExpr?_eq_some.2 h'))

/-- an argument whose expression was read before selects what the expression does -/
theorem selects_iff {text : String} : Selects ⟨text, some e⟩ path ↔ SelectsPath e path := by
  constructor
  · rintro ⟨_, p, body, ⟨⟩, hl, hp⟩
    exact ⟨p, body, hl, hp⟩
  · rintro ⟨p, body, hl, hp⟩
    exact ⟨e, p, body, rfl, hl, hp⟩

theorem key_eq_pathText_iff {text k : String} :
    key ⟨text, some e⟩ = .ok k ↔ ∃ path, SelectsPath e path ∧ k = pathText path := by
  simp only [key_eq_ok, selects_iff]

theorem SelectsPath.key_eq {text k : String} (h : SelectsPath e path)
    (hk : key ⟨text, some e⟩ = .ok k) : k = pathText path := by
  obtain ⟨path', hpath', rfl⟩ := key_eq_pathText_iff.1 hk
  rw [h.unique hpath']

/-- the path that is selected is read off its text -/
theorem SelectsPath.segments (h : SelectsPath e path) : segments (pathText path) = path := by
  unfold Selector.segments pathText
  rw [splitOn_path h.names.1 h.names.2, List.map_map]
  simp

/-- the text of a path has a point exactly if there is more than one name -/
theorem point_mem_pathText_iff (hne : path ≠ []) (hnames : ∀ n ∈ path, IsPathName n) :
    '.' ∈ (pathText path).toList ↔ path.length ≠ 1 := by
  match path with
  | [] => exact absurd rfl hne
  | [n] =>
    have hn := point_not_mem_of_isPathName (hnames n List.mem_cons_self)
    simpa [pathText] using hn
  | n :: m :: ns => simp [pathText, String.intercalate_cons_cons]

end

/-- a single field is a key without a point -/
theorem singleField_eq_bind (a : Arg) :
    singleField a = key a >>= fun k =>
      if '.' ∈ k.toList then .error (.notASingleField k) else .ok k := by
  unfold singleField key
  rcases hpath : pathOf a with e | path
  · rfl
  · obtain ⟨e, p, body, -, -, haccess, hne⟩ := pathOf_eq_ok.1 hpath
    have hpoint := point_mem_pathText_iff hne haccess.names
    match path with
    | [] => exact absurd rfl hne
    | [n] =>
      have hn : ¬ '.' ∈ (pathText [n]).toList := fun h => hpoint.1 h rfl
      exact (if_neg hn).symm
    | n :: m :: ns =>
      have hn : '.' ∈ (pathText (n :: m :: ns)).toList := hpoint.2 (by simp)
      exact (if_pos hn).symm

/-- an arrow function of one parameter, asynchronous or not, whose body is an expression or returns
one and does nothing else -/
inductive IsArrow : Expr → String → Expr → Prop
  | arrow (isAsync : Bool) (p : String) (body : Expr) :
    IsArrow (.arrow isAsync [some p] (some body)) p body
  | paren {e body : Expr} {p : String} : IsArrow e p body → IsArrow (.paren e) p body

/-- `async p => p.a` -/
def asyncSelector : Expr := .arrow true [some "p"] (some (.field (.identifier "p") "a"))

/-- A field that an asynchronous function returns is not selected. -/
theorem asyncSelector_selects_nothing :
    (∃ body, IsArrow asyncSelector "p" body ∧ IsPath "p" body ["a"]) ∧
      ¬ ∃ k, key ⟨"async p => p.a", some asyncSelector⟩ = .ok k := by
  refine ⟨⟨_, .arrow true "p" _, ?_, List.cons_ne_nil _ _⟩, ?_⟩
  · have hname : IsPathName "a" := isPathName_iff.1 (by decide)
    exact .member (.field _ "a") hname (.start (.identifier "p"))
  · rintro ⟨k, hk⟩
    obtain ⟨path, hpath, -⟩ := key_eq_ok.1 hk
    obtain ⟨p, body, hl, -⟩ := selects_iff.1 hpath
    cases hl

/-- **Keys.**  Of an argument whose expression was read before, a key is taken exactly if it is an
arrow function, not an asynchronous one, of one parameter whose result is a field of that parameter.
Cut at its points the key is the path of the field, so two keys are the same exactly if the paths
are, and it is taken for a single field exactly if the path is one name. -/
theorem key_exact (text : String) (e : Expr) :
    ((∃ k, key ⟨text, some e⟩ = .ok k) ↔ ∃ path, SelectsPath e path) ∧
    (∀ k path, key ⟨text, some e⟩ = .ok k → (SelectsPath e path ↔ segments k = path)) ∧
    (∀ text' e' k k' path path', key ⟨text, some e⟩ = .ok k → key ⟨text', some e'⟩ = .ok k' →
      SelectsPath e path → SelectsPath e' path' → (k = k' ↔ path = path')) ∧
    ∀ k, singleField ⟨text, some e⟩ = .ok k ↔
      key ⟨text, some e⟩ = .ok k ∧ ∃ path, SelectsPath e path ∧ path.length = 1 := by
  refine ⟨?_, ?_, ?_, fun k => ?_⟩
  · simp only [key_eq_pathText_iff]
    exact ⟨fun ⟨_, path, hpath, _⟩ => ⟨path, hpath⟩, fun ⟨path, hpath⟩ => ⟨_, path, hpath, rfl⟩⟩
  · intro k path hk
    obtain ⟨path', hpath', rfl⟩ := key_eq_pathText_iff.1 hk
    rw [hpath'.segments]
    exact ⟨hpath'.unique, fun h => h ▸ hpath'⟩
  · intro text' e' k k' path path' hk hk' hpath hpath'
    obtain rfl := hpath.key_eq hk
    obtain rfl := hpath'.key_eq hk'
    refine ⟨fun h => ?_, congrArg pathText⟩
    rw [← hpath.segments, h, hpath'.segments]
  · rw [singleField_eq_bind, bind_eq_ok]
    constructor
    · rintro ⟨k', hk, h⟩
      obtain ⟨path, hpath, rfl⟩ := key_eq_pathText_iff.1 hk
      split at h
      · cases h
      · rename_i hpoint
        cases h
        rw [point_mem_pathText_iff hpath.names.1 hpath.names.2, not_not] at hpoint
        exact ⟨hk, path, hpath, hpoint⟩
    · rintro ⟨hk, path, hpath, hlength⟩
      have hpoint : ¬ '.' ∈ k.toList := by
        rw [hpath.key_eq hk, point_mem_pathText_iff hpath.names.1 hpath.names.2, not_not]
        exact hlength
      exact ⟨k, hk, if_neg hpoint⟩

end Selector

end PageQuery
