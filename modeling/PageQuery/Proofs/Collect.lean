import Mathlib.Data.List.Forall2

/-!
# Lists item by item

A list is mapped as a whole exactly if each of its items is: `mapM_eq_some` and `mapM_eq_ok`.
Otherwise the error is the one of the first item that cannot be mapped: `mapM_eq_error`.

A run of items with a property ends in front of the first item without it:
`takeWhile_append_of_head?` and `dropWhile_append_of_head?`.

`Together R x y`: two computations that succeed or fail together, and give related results.
-/

namespace PageQuery

variable {α β ε : Type}

theorem bind_eq_ok {x : Except ε α} {f : α → Except ε β} {b : β} :
    x >>= f = .ok b ↔ ∃ a, x = .ok a ∧ f a = .ok b := by
  cases x <;> simp [bind, Except.bind]

theorem mapM_eq_some {f : α → Option β} {xs : List α} {ys : List β} :
    xs.mapM f = some ys ↔ List.Forall₂ (fun x y => f x = some y) xs ys := by
  induction xs generalizing ys with
  | nil => cases ys <;> simp
  | cons x xs ih =>
    rw [List.mapM_cons]
    cases ys with
    | nil => simp [Option.bind_eq_some_iff]
    | cons y ys => simp [Option.bind_eq_some_iff, ih]

theorem mapM_eq_ok {f : α → Except ε β} {xs : List α} {ys : List β} :
    xs.mapM f = .ok ys ↔ List.Forall₂ (fun x y => f x = .ok y) xs ys := by
  induction xs generalizing ys with
  | nil => cases ys <;> simp [pure, Except.pure]
  | cons x xs ih =>
    rw [List.mapM_cons, bind_eq_ok]
    cases ys with
    | nil => simp [bind_eq_ok, pure, Except.pure]
    | cons y ys => simp [bind_eq_ok, ih, pure, Except.pure]

theorem exists_forall₂_iff {R : α → β → Prop} {xs : List α} :
    (∃ ys, List.Forall₂ R xs ys) ↔ ∀ x ∈ xs, ∃ y, R x y := by
  induction xs with
  | nil => simp
  | cons x xs ih =>
    simp only [List.forall₂_cons_left_iff, List.forall_mem_cons, ← ih]
    constructor
    · rintro ⟨_, y, ys, hy, hys, rfl⟩
      exact ⟨⟨y, hy⟩, ys, hys⟩
    · rintro ⟨⟨y, hy⟩, ys, hys⟩
      exact ⟨y :: ys, y, ys, hy, hys, rfl⟩

theorem exists_of_forall₂ {R : α → β → Prop} {xs : List α} {ys : List β} (h : List.Forall₂ R xs ys) :
    ∀ y ∈ ys, ∃ x ∈ xs, R x y := by
  induction h with
  | nil => simp
  | cons hxy _ ih =>
    refine List.forall_mem_cons.2 ⟨⟨_, List.mem_cons_self, hxy⟩, fun y hy => ?_⟩
    obtain ⟨x, hx, hR⟩ := ih y hy
    exact ⟨x, List.mem_cons_of_mem _ hx, hR⟩

theorem bind_eq_error {x : Except ε α} {f : α → Except ε β} {e : ε} :
    x >>= f = .error e ↔ x = .error e ∨ ∃ a, x = .ok a ∧ f a = .error e := by
  cases x <;> simp [bind, Except.bind]

theorem mapM_eq_error {f : α → Except ε β} {xs : List α} {e : ε} :
    xs.mapM f = .error e ↔
      ∃ pre x post, xs = pre ++ x :: post ∧ (∀ y ∈ pre, ∃ z, f y = .ok z) ∧ f x = .error e := by
  induction xs with
  | nil => simp [pure, Except.pure]
  | cons x xs ih =>
    rw [List.mapM_cons, bind_eq_error]
    constructor
    · rintro (hx | ⟨z, hx, h⟩)
      · exact ⟨[], x, xs, rfl, by simp, hx⟩
      · rcases bind_eq_error.1 h with h | ⟨_, -, h⟩
        · obtain ⟨pre, y, post, rfl, hpre, hy⟩ := ih.1 h
          refine ⟨x :: pre, y, post, rfl, ?_, hy⟩
          simpa using ⟨⟨z, hx⟩, hpre⟩
        · cases h
    · rintro ⟨pre, y, post, hxs, hpre, hy⟩
      cases pre with
      | nil =>
        obtain ⟨rfl, rfl⟩ := List.cons.inj hxs
        exact Or.inl hy
      | cons p pre =>
        obtain ⟨rfl, rfl⟩ := List.cons.inj hxs
        obtain ⟨⟨z, hz⟩, hpre⟩ := List.forall_mem_cons.1 hpre
        exact Or.inr ⟨z, hz, bind_eq_error.2 (Or.inl (ih.2 ⟨pre, y, post, rfl, hpre, hy⟩))⟩

/-! ### Runs of items -/

section Runs

variable {p : α → Bool} {xs rest : List α} (h : ∀ x ∈ xs, p x = true)
  (hrest : ∀ x ∈ rest.head?, p x = false)

include h hrest

theorem takeWhile_append_of_head? : (xs ++ rest).takeWhile p = xs := by
  rw [List.takeWhile_append_of_pos h]
  cases rest with
  | nil => exact List.append_nil _
  | cons x rest => rw [List.takeWhile_cons_of_neg (by simp [hrest x rfl]), List.append_nil]

theorem dropWhile_append_of_head? : (xs ++ rest).dropWhile p = rest := by
  rw [List.dropWhile_append_of_pos h]
  cases rest with
  | nil => rfl
  | cons x rest => exact List.dropWhile_cons_of_neg (by simp [hrest x rfl])

end Runs

/-! ### Two computations -/

/-- both succeed, with related results, or both fail -/
inductive Together (R : α → β → Prop) : Except ε α → Except ε β → Prop
  | ok {a : α} {b : β} : R a b → Together R (.ok a) (.ok b)
  | error {e f : ε} : Together R (.error e) (.error f)

theorem Together.mono {R S : α → β → Prop} {x : Except ε α} {y : Except ε β} (h : Together R x y)
    (hRS : ∀ a b, x = .ok a → y = .ok b → R a b → S a b) : Together S x y := by
  cases h with
  | ok hr => exact .ok (hRS _ _ rfl rfl hr)
  | error => exact .error

theorem Together.bind {γ δ : Type} {R : α → β → Prop} {S : γ → δ → Prop} {x : Except ε α}
    {y : Except ε β} {f : α → Except ε γ} {g : β → Except ε δ} (h : Together R x y)
    (hfg : ∀ a b, x = .ok a → y = .ok b → R a b → Together S (f a) (g b)) :
    Together S (x >>= f) (y >>= g) := by
  cases h with
  | ok hr => exact hfg _ _ rfl rfl hr
  | error => exact .error

/-- one computation, and what follows it in two ways -/
theorem Together.bind_same {γ δ : Type} {S : γ → δ → Prop} {x : Except ε α} {f : α → Except ε γ}
    {g : α → Except ε δ} (h : ∀ a, x = .ok a → Together S (f a) (g a)) :
    Together S (x >>= f) (x >>= g) := by
  cases x with
  | ok a => exact h a rfl
  | error => exact .error

theorem Together.toOption_bind_eq {γ : Type} {R : α → β → Prop} {x : Except ε α} {y : Except ε β}
    {f : α → Option γ} {g : β → Option γ} (h : Together R x y)
    (hfg : ∀ a b, x = .ok a → y = .ok b → R a b → f a = g b) :
    x.toOption.bind f = y.toOption.bind g := by
  cases h with
  | ok hr => exact hfg _ _ rfl rfl hr
  | error => rfl

/-- computations that fail under the same condition -/
theorem Together.of_error_iff {x : Except ε α} {y : Except ε β}
    (h : (∃ e, x = .error e) ↔ ∃ e, y = .error e) : Together (fun _ _ => True) x y := by
  cases x with
  | ok a =>
    cases y with
    | ok b => exact .ok trivial
    | error e =>
      obtain ⟨e', he⟩ := h.2 ⟨e, rfl⟩
      cases he
  | error e =>
    obtain ⟨e', rfl⟩ := h.1 ⟨e, rfl⟩
    exact .error

end PageQuery
