import Mathlib.Data.List.Induction
import Mathlib.Data.List.Perm.Subperm
import PageQuery.Proofs.Lowering
import PageQuery.Proofs.SortKeys

/-!
# Chains and queries on lists of pages

A chain works on a list of pages call by call (`Interpretation.run`); a query has one order for its
clauses, which are conditions, keys and limit (`Interpretation.execute`).  An `Interpretation` says
what callbacks, conditions and fields are on pages.

`runClauses_of_length_le`: as long as no limit cuts off pages, the calls leave the pages that all
conditions hold of, sorted by all keys with the latest first.
-/

namespace PageQuery

open Sorting

/-- what callbacks, conditions and fields are on pages -/
structure Interpretation (Page : Type) extends FieldOrders Page where
  /-- the condition of a text holds -/
  holds : String → Page → Bool
  /-- what the callback of a condition answers -/
  answer : Arg → Page → Bool
  /-- how pages compare by what the callback of a key selects -/
  compare : Arg → Page → Page → Bool
  answer_eq : ∀ {a c}, Condition.ofArg a = .ok c → answer a = holds c.fragment
  compare_eq : ∀ {a f}, Selector.key a = .ok f → compare a = le f

namespace Interpretation

variable {Page : Type} (I : Interpretation Page)

/-- what a call makes of a list of pages -/
def applyCall (m : MethodCall) (pages : List Page) : List Page :=
  match m.method, m.args with
  | "where", [a] => pages.filter (I.answer a)
  | "filter", [a] => pages.filter (I.answer a)
  | "sort", [k] => pages.mergeSort (I.compare k)
  | "sort", [k, d] =>
    if d.text == "desc" then pages.mergeSort fun x y => I.compare k y x
    else pages.mergeSort (I.compare k)
  | "sortDesc", [k] => pages.mergeSort fun x y => I.compare k y x
  | "limit", args =>
    match args.head?.bind fun a => Number.limitOfText? a.text with
    | some n => pages.take n
    | none => pages
  | _, _ => pages

/-- what the calls make of a list of pages, one after the other -/
def run (calls : List MethodCall) (pages : List Page) : List Page :=
  calls.foldl (fun ps m => I.applyCall m ps) pages

/-- what a query lists: the pages that the conditions hold of, sorted, as many as the limit allows -/
def execute (c : Clauses) (pages : List Page) : List Page :=
  let sorted := (pages.filter fun x => c.conditions.all (I.holds · x)).mergeSort (I.byKeys c.sorts)
  match c.limit with
  | some n => sorted.take n
  | none => sorted

end Interpretation

/-- the methods that work on a list of pages and list pages again -/
def pageMethods : List String := ["where", "filter", "sort", "sortDesc", "limit"]

/-! ### What the clauses do -/

namespace Interpretation

variable {Page : Type} (I : Interpretation Page)

/-- what the clause of a call makes of a list of pages -/
def applyClause (c : Clause) (pages : List Page) : List Page :=
  match c with
  | .condition t => pages.filter (I.holds t)
  | .sort k => pages.mergeSort (I.byKey k)
  | .limit n => pages.take n
  | _ => pages

/-- what the clauses make of a list of pages, one after the other -/
def runClauses (cs : List Clause) (pages : List Page) : List Page :=
  cs.foldl (fun ps c => I.applyClause c ps) pages

theorem applyCall_of_conditionOf {m : MethodCall} {c : Clause} (hc : Clause.conditionOf m = .ok c)
    (hm : m.method = "where" ∨ m.method = "filter") (pages : List Page) :
    I.applyCall m pages = I.applyClause c pages := by
  obtain ⟨a, d, ha, hd, rfl⟩ := Clause.conditionOf_eq_ok.1 hc
  rcases hm with hm | hm <;> simp [applyCall, applyClause, hm, ha, I.answer_eq hd]

theorem applyCall_of_sortKeyOf {m : MethodCall} {k : SortKey}
    (hk : Clause.sortKeyOf m.args = .ok k) (hm : m.method = "sort") (pages : List Page) :
    I.applyCall m pages = I.applyClause (.sort k) pages := by
  obtain ⟨field, direction⟩ := k
  obtain ⟨a, hf, ⟨ha, rfl⟩ | ⟨d, ha, hd⟩⟩ := Clause.sortKeyOf_eq_ok.1 hk
  · simp [applyCall, applyClause, hm, ha, I.compare_eq hf]
  · cases direction <;> simp [applyCall, applyClause, hm, ha, hd, Direction.render, I.compare_eq hf]

theorem applyCall_limit {m : MethodCall} (hm : m.method = "limit") (pages : List Page) :
    I.applyCall m pages = I.applyClause (Clause.limitOf m.args) pages := by
  simp only [applyCall, Clause.limitOf, hm]
  cases m.args.head?.bind fun a => Number.limitOfText? a.text <;> rfl

/-- a call works on pages as its clause does -/
theorem applyCall_of_ofCall {m : MethodCall} {c : Clause} (hm : m.method ∈ pageMethods)
    (hc : Clause.ofCall m = .ok c) (pages : List Page) :
    I.applyCall m pages = I.applyClause c pages := by
  rcases Clause.ofCall_cases hc with ⟨hmethod, hc⟩ | ⟨hmethod, -⟩ | ⟨hmethod, -⟩ |
    ⟨hmethod, k, hk, rfl⟩ | ⟨hmethod, a, f, ha, hf, rfl⟩ | ⟨hmethod, rfl⟩
  · exact I.applyCall_of_conditionOf hc hmethod pages
  · -- a projection is no method on pages
    exact absurd (hmethod ▸ hm) (by decide)
  · exact absurd (hmethod ▸ hm) (by decide)
  · exact I.applyCall_of_sortKeyOf hk hmethod pages
  · simp [applyCall, applyClause, hmethod, ha, I.compare_eq hf]
  · exact I.applyCall_limit hmethod pages

theorem run_eq_runClauses {calls : List MethodCall} {cs : List Clause}
    (hm : ∀ m ∈ calls, m.method ∈ pageMethods)
    (hcs : List.Forall₂ (fun m c => Clause.ofCall m = .ok c) calls cs) (pages : List Page) :
    I.run calls pages = I.runClauses cs pages := by
  induction hcs generalizing pages with
  | nil => rfl
  | cons hc _ ih =>
    have hrest := ih fun m h => hm m (List.mem_cons_of_mem _ h)
    show I.run _ (I.applyCall _ pages) = I.runClauses _ (I.applyClause _ pages)
    rw [I.applyCall_of_ofCall (hm _ List.mem_cons_self) hc, hrest]

end Interpretation

/-! ### Clauses of one kind -/

namespace Clause

def conditions (cs : List Clause) : List String := cs.filterMap condition?

def sorts (cs : List Clause) : List SortKey := cs.filterMap sort?

def limits (cs : List Clause) : List Nat := cs.filterMap limit?

@[simp] theorem conditions_append (cs ds : List Clause) :
    conditions (cs ++ ds) = conditions cs ++ conditions ds :=
  List.filterMap_append

@[simp] theorem sorts_append (cs ds : List Clause) : sorts (cs ++ ds) = sorts cs ++ sorts ds :=
  List.filterMap_append

@[simp] theorem limits_append (cs ds : List Clause) : limits (cs ++ ds) = limits cs ++ limits ds :=
  List.filterMap_append

theorem eq_limit_of_mem {c : Clause} {n : Nat} (h : n ∈ limits [c]) : c = .limit n := by
  cases c <;> simp [limits, limit?] at h
  rw [h]

end Clause

/-! ### Running clauses -/

open Clause

namespace Interpretation

variable {Page : Type} (I : Interpretation Page)

/-- all the conditions hold of a page -/
def admits (cs : List Clause) (x : Page) : Bool := (conditions cs).all (I.holds · x)

/-- the pages sorted by the keys -/
def sortBy (ks : List SortKey) (pages : List Page) : List Page := pages.mergeSort (I.byKeys ks)

theorem runClauses_append (cs ds : List Clause) (pages : List Page) :
    I.runClauses (cs ++ ds) pages = I.runClauses ds (I.runClauses cs pages) :=
  List.foldl_append

theorem runClauses_at_limit (pre : List Clause) (n : Nat) (post : List Clause)
    (pages : List Page) :
    I.runClauses (pre ++ .limit n :: post) pages =
      I.runClauses post ((I.runClauses pre pages).take n) :=
  I.runClauses_append pre (.limit n :: post) pages

theorem sortBy_cons (k : SortKey) (ks : List SortKey) (pages : List Page) :
    (I.sortBy ks pages).mergeSort (I.byKey k) = I.sortBy (k :: ks) pages :=
  mergeSort_mergeSort (I.byKey_preorder k) (I.byKeys_preorder ks) pages

theorem filter_sortBy (p : Page → Bool) (ks : List SortKey) (pages : List Page) :
    (I.sortBy ks pages).filter p = I.sortBy ks (pages.filter p) :=
  filter_mergeSort (I.byKeys_preorder ks) p pages

theorem sortBy_eq_of_leading {ks ks' : List SortKey} (h : leading ks = leading ks')
    (pages : List Page) : I.sortBy ks pages = I.sortBy ks' pages := by
  unfold sortBy
  rw [I.byKeys_eq_of_leading h]

/-- a beginning of sorted pages is sorted -/
theorem sortBy_take (ks : List SortKey) (n : Nat) (pages : List Page) :
    I.sortBy ks ((I.sortBy ks pages).take n) = (I.sortBy ks pages).take n :=
  List.mergeSort_of_pairwise (((I.byKeys_preorder ks).sorted pages).sublist (List.take_sublist ..))

@[simp] theorem length_sortBy (ks : List SortKey) (pages : List Page) :
    (I.sortBy ks pages).length = pages.length :=
  List.length_mergeSort pages

theorem sortBy_nil (pages : List Page) : I.sortBy [] pages = pages :=
  List.mergeSort_of_pairwise (List.pairwise_of_forall fun _ _ => rfl)

theorem admits_append (cs ds : List Clause) :
    I.admits (cs ++ ds) = fun x => I.admits ds x && I.admits cs x := by
  funext x
  unfold admits
  rw [conditions_append, List.all_append, Bool.and_comm]

/-- what a clause makes of sorted pages that its limit, if it is one, does not exceed -/
theorem applyClause_sortBy {c : Clause} {pages : List Page}
    (h : ∀ n ∈ limits [c], pages.length ≤ n) (ks : List SortKey) :
    I.applyClause c (I.sortBy ks pages) =
      I.sortBy ((sorts [c]).reverse ++ ks) (pages.filter (I.admits [c])) := by
  have hall : pages.filter (fun _ => true) = pages :=
    List.filter_eq_self.2 fun _ _ => rfl
  cases c with
  | condition t =>
    have ht : I.admits [.condition t] = I.holds t := by
      funext x
      simp [admits, conditions, Clause.condition?]
    rw [ht]
    exact I.filter_sortBy (I.holds t) ks pages
  | sort k =>
    show (I.sortBy ks pages).mergeSort (I.byKey k) = I.sortBy (k :: ks) (pages.filter fun _ => true)
    rw [sortBy_cons, hall]
  | limit n =>
    show (I.sortBy ks pages).take n = I.sortBy ks (pages.filter fun _ => true)
    rw [hall, List.take_of_length_le]
    rw [length_sortBy]
    exact h n (List.mem_singleton_self n)
  | listed p => exact congrArg (I.sortBy ks) hall.symm
  | flatten f => exact congrArg (I.sortBy ks) hall.symm
  | ignoredLimit t => exact congrArg (I.sortBy ks) hall.symm

/-- limits that the pages do not exceed leave them alone -/
theorem runClauses_of_length_le {cs : List Clause} {pages : List Page}
    (h : ∀ n ∈ limits cs, pages.length ≤ n) :
    I.runClauses cs pages = I.sortBy (sorts cs).reverse (pages.filter (I.admits cs)) := by
  induction cs using List.reverseRecOn with
  | nil =>
    show pages = I.sortBy [] (pages.filter fun _ => true)
    rw [sortBy_nil, List.filter_eq_self.2 fun _ _ => rfl]
  | append_singleton cs c ih =>
    rw [limits_append] at h
    have hc : ∀ n ∈ limits [c], (pages.filter (I.admits cs)).length ≤ n := by
      intro n hn
      exact Nat.le_trans (List.length_filter_le ..) (h n (List.mem_append_right _ hn))
    calc I.runClauses (cs ++ [c]) pages
      _ = I.applyClause c (I.runClauses cs pages) := I.runClauses_append cs [c] pages
      _ = I.applyClause c (I.sortBy (sorts cs).reverse (pages.filter (I.admits cs))) := by
        rw [ih fun n hn => h n (List.mem_append_left _ hn)]
      _ = I.sortBy (sorts (cs ++ [c])).reverse (pages.filter (I.admits (cs ++ [c]))) := by
        rw [I.applyClause_sortBy hc, List.filter_filter, admits_append, sorts_append,
          List.reverse_append]

/-- the pages that a query of the clauses lists if its limit is left out -/
def unlimited (cs : List Clause) (pages : List Page) : List Page :=
  I.sortBy (sorts cs) (pages.filter (I.admits cs))

theorem execute_collect (cs : List Clause) (pages : List Page) :
    I.execute (Clauses.collect {} cs) pages =
      match (limits cs).getLast? with
      | some n => (I.unlimited cs pages).take n
      | none => I.unlimited cs pages := rfl

theorem filter_unlimited {cs ds : List Clause} (h : conditions ds ⊆ conditions cs) (n : Nat)
    (pages : List Page) :
    ((I.unlimited cs pages).take n).filter (I.admits ds) = (I.unlimited cs pages).take n := by
  refine List.filter_eq_self.2 ?_
  intro x hx
  have hx := List.mem_mergeSort.1 (List.mem_of_mem_take hx)
  have hcs := List.all_eq_true.1 (List.mem_filter.1 hx).2
  exact List.all_eq_true.2 fun t ht => hcs t (h ht)

/-! ### Pages left out -/

theorem applyClause_subperm (c : Clause) (pages : List Page) :
    (I.applyClause c pages).Subperm pages := by
  cases c with
  | condition t => exact List.filter_sublist.subperm
  | sort k => exact (List.mergeSort_perm _ _).subperm
  | limit n => exact (List.take_sublist _ _).subperm
  | listed p => exact List.Subperm.refl _
  | flatten f => exact List.Subperm.refl _
  | ignoredLimit t => exact List.Subperm.refl _

/-- pages are only left out -/
theorem runClauses_subperm (cs : List Clause) (pages : List Page) :
    (I.runClauses cs pages).Subperm pages := by
  induction cs generalizing pages with
  | nil => exact List.Subperm.refl _
  | cons c cs ih => exact (ih (I.applyClause c pages)).trans (I.applyClause_subperm c pages)

/-- a limit bounds how many pages are left in the end -/
theorem length_runClauses_le {cs : List Clause} {n : Nat} (h : n ∈ limits cs) (pages : List Page) :
    (I.runClauses cs pages).length ≤ n := by
  obtain ⟨c, hc, hn⟩ := List.mem_filterMap.1 h
  obtain ⟨pre, post, rfl⟩ := List.append_of_mem hc
  cases eq_limit_of_mem (c := c) (n := n) (by simp [limits, hn])
  rw [I.runClauses_at_limit]
  have hsub := I.runClauses_subperm post ((I.runClauses pre pages).take n)
  exact Nat.le_trans hsub.length_le (List.length_take_le ..)

end Interpretation

end PageQuery
