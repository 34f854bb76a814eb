/-!
# Stable sorting

`List.mergeSort` by an order that can tie different items.  The items tied with one another keep
their places (`filter_tied_mergeSort`), and this and the order determine the result
(`eq_of_sorted`).  So sorting commutes with filtering (`filter_mergeSort`), and sorting twice is
sorting by the later order first (`mergeSort_mergeSort`).
-/

namespace PageQuery.Sorting

variable {α : Type} {le le₁ le₂ : α → α → Bool}

/-- any two items compare, and comparisons add up; different items can be tied -/
structure IsPreorder (le : α → α → Bool) : Prop where
  trans : ∀ a b c, le a b → le b c → le a c
  total : ∀ a b, le a b || le b a

/-- neither of the items comes before the other -/
def tied (le : α → α → Bool) (a b : α) : Bool := le a b && le b a

/-- the first order, and the second one where the first ties -/
def thenBy (le₁ le₂ : α → α → Bool) (a b : α) : Bool := le₁ a b && (!le₁ b a || le₂ a b)

/-! ### Orders -/

theorem IsPreorder.refl (h : IsPreorder le) (a : α) : le a a = true := by
  have := h.total a a
  simpa using this

theorem IsPreorder.flip (h : IsPreorder le) : IsPreorder fun a b => le b a :=
  ⟨fun a b c hab hbc => h.trans c b a hbc hab, fun a b => h.total b a⟩

theorem IsPreorder.trivial : IsPreorder fun (_ _ : α) => true :=
  ⟨fun _ _ _ _ _ => rfl, fun _ _ => rfl⟩

theorem thenBy_eq_true {a b : α} :
    thenBy le₁ le₂ a b = true ↔ le₁ a b = true ∧ (le₁ b a = true → le₂ a b = true) := by
  unfold thenBy
  cases le₁ a b <;> cases le₁ b a <;> simp

theorem IsPreorder.thenBy (h₁ : IsPreorder le₁) (h₂ : IsPreorder le₂) :
    IsPreorder (thenBy le₁ le₂) := by
  constructor
  · intro a b c hab hbc
    obtain ⟨hab, hab'⟩ := thenBy_eq_true.1 hab
    obtain ⟨hbc, hbc'⟩ := thenBy_eq_true.1 hbc
    refine thenBy_eq_true.2 ⟨h₁.trans a b c hab hbc, ?_⟩
    intro hca
    exact h₂.trans a b c (hab' (h₁.trans b c a hbc hca)) (hbc' (h₁.trans c a b hca hab))
  · intro a b
    have htotal := h₁.total a b
    have htotal' := h₂.total a b
    unfold Sorting.thenBy
    cases hab : le₁ a b <;> cases hba : le₁ b a <;> simp_all

theorem tied_thenBy (a b : α) :
    tied (thenBy le₁ le₂) a b = (tied le₁ a b && tied le₂ a b) := by
  unfold tied thenBy
  cases le₁ a b <;> cases le₁ b a <;> simp

/-! ### Sorted lists -/

theorem IsPreorder.sorted (h : IsPreorder le) (l : List α) :
    (l.mergeSort le).Pairwise (le · ·) :=
  List.pairwise_mergeSort h.trans h.total l

/-- **Stability.**  Sorting leaves the items tied with an item in their order. -/
theorem filter_tied_mergeSort (h : IsPreorder le) (a : α) (l : List α) :
    (l.mergeSort le).filter (tied le a) = l.filter (tied le a) := by
  have hties : (l.filter (tied le a)).Pairwise (le · ·) := by
    refine List.pairwise_of_forall_mem_list ?_
    intro b hb c hc
    have hb := (List.mem_filter.1 hb).2
    have hc := (List.mem_filter.1 hc).2
    simp only [tied, Bool.and_eq_true] at hb hc
    exact h.trans b a c hb.2 hc.1
  have hsub := (List.sublist_mergeSort h.trans h.total hties List.filter_sublist).filter (tied le a)
  rw [List.filter_filter] at hsub
  simp only [Bool.and_self] at hsub
  refine (hsub.eq_of_length ?_).symm
  exact ((List.mergeSort_perm l le).filter _).length_eq.symm

/-- a sorted list is determined by its items and the order of the tied ones -/
theorem eq_of_sorted (h : IsPreorder le) {l m : List α} (hl : l.Pairwise (le · ·))
    (hm : m.Pairwise (le · ·)) (hp : l.Perm m)
    (ht : ∀ a, l.filter (tied le a) = m.filter (tied le a)) : l = m := by
  induction l generalizing m with
  | nil => exact hp.nil_eq
  | cons x l ih =>
    cases m with
    | nil => exact absurd hp.symm.nil_eq (by simp)
    | cons y m =>
      -- the two heads come before each other, so each is the first item tied with `x`
      have hxy : le x y = true := by
        rcases List.mem_cons.1 (hp.mem_iff.2 List.mem_cons_self) with rfl | hy
        · exact h.refl _
        · exact List.rel_of_pairwise_cons hl hy
      have hyx : le y x = true := by
        rcases List.mem_cons.1 (hp.mem_iff.1 List.mem_cons_self) with rfl | hx
        · exact h.refl _
        · exact List.rel_of_pairwise_cons hm hx
      have hhead := ht x
      have hxx : tied le x x = true := by simp [tied, h.refl x]
      have hxy' : tied le x y = true := by simp [tied, hxy, hyx]
      rw [List.filter_cons_of_pos hxx, List.filter_cons_of_pos hxy'] at hhead
      obtain ⟨rfl, -⟩ := List.cons.inj hhead
      rw [ih hl.of_cons hm.of_cons hp.cons_inv]
      intro a
      have hta := ht a
      by_cases hax : tied le a x = true
      · rw [List.filter_cons_of_pos hax, List.filter_cons_of_pos hax] at hta
        exact (List.cons.inj hta).2
      · rwa [List.filter_cons_of_neg hax, List.filter_cons_of_neg hax] at hta

theorem filter_mergeSort (h : IsPreorder le) (p : α → Bool) (l : List α) :
    (l.mergeSort le).filter p = (l.filter p).mergeSort le := by
  refine eq_of_sorted h ((h.sorted l).sublist List.filter_sublist) (h.sorted _) ?_ ?_
  · exact ((List.mergeSort_perm l le).filter p).trans (List.mergeSort_perm _ le).symm
  · intro a
    rw [filter_tied_mergeSort h, List.filter_filter, List.filter_filter]
    have hcomm : (fun b => tied le a b && p b) = fun b => p b && tied le a b := by
      funext b
      exact Bool.and_comm _ _
    rw [hcomm, ← List.filter_filter, filter_tied_mergeSort h, List.filter_filter]

/-- **Sorting again.**  The later order decides, and the earlier one where the later ties. -/
theorem mergeSort_mergeSort (h₁ : IsPreorder le₁) (h₂ : IsPreorder le₂) (l : List α) :
    (l.mergeSort le₂).mergeSort le₁ = l.mergeSort (thenBy le₁ le₂) := by
  refine eq_of_sorted (h₁.thenBy h₂) ?_ ((h₁.thenBy h₂).sorted l) ?_ ?_
  · refine List.pairwise_iff_forall_sublist.2 ?_
    intro a b hab
    refine thenBy_eq_true.2 ⟨List.pairwise_iff_forall_sublist.1 (h₁.sorted _) hab, ?_⟩
    intro hba
    have hab₁ := List.pairwise_iff_forall_sublist.1 (h₁.sorted _) hab
    -- tied items stand as the earlier sorting left them
    have hsub := hab.filter (tied le₁ a)
    rw [filter_tied_mergeSort h₁] at hsub
    simp only [tied, h₁.refl a, hab₁, hba, Bool.and_self, List.filter_cons_of_pos,
      List.filter_nil] at hsub
    exact List.pairwise_iff_forall_sublist.1 (h₂.sorted l) (hsub.trans List.filter_sublist)
  · exact ((List.mergeSort_perm _ le₁).trans (List.mergeSort_perm l le₂)).trans
      (List.mergeSort_perm l _).symm
  · intro a
    have hsplit : tied (thenBy le₁ le₂) a = fun b => tied le₁ a b && tied le₂ a b :=
      funext (tied_thenBy a)
    have hsplit' : tied (thenBy le₁ le₂) a = fun b => tied le₂ a b && tied le₁ a b := by
      rw [hsplit]
      funext b
      exact Bool.and_comm _ _
    rw [filter_tied_mergeSort (h₁.thenBy h₂)]
    calc ((l.mergeSort le₂).mergeSort le₁).filter (tied (thenBy le₁ le₂) a)
      _ = (((l.mergeSort le₂).mergeSort le₁).filter (tied le₁ a)).filter (tied le₂ a) := by
        rw [hsplit', List.filter_filter]
      _ = ((l.mergeSort le₂).filter (tied le₂ a)).filter (tied le₁ a) := by
        rw [filter_tied_mergeSort h₁, List.filter_filter, List.filter_filter, ← hsplit, ← hsplit']
      _ = l.filter (tied (thenBy le₁ le₂) a) := by
        rw [filter_tied_mergeSort h₂, List.filter_filter, ← hsplit]

/-- nothing is left to sort in a list of at most one item -/
theorem mergeSort_of_length_le_one {l : List α} (h : l.length ≤ 1) : l.mergeSort le = l := by
  match l with
  | [] => exact List.mergeSort_nil
  | [a] => exact List.mergeSort_singleton a
  | _ :: _ :: _ => simp at h

end PageQuery.Sorting
