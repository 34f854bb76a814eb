import PageQuery.Proofs.Pipeline

/-!
# Chains whose order can be changed

A chain and its query list the same pages only if the order of the calls does not matter.
`OrderKept` spells out when it does not, and otherwise some interpretation of the callbacks and the
keys tells the two apart (`Agrees.orderKept`).

`Chain.run_eq_execute_iff`: a chain and its query agree under every interpretation exactly if the
last limit is 0 or the order is kept.
-/

namespace PageQuery

open Sorting Clause

/-- the clauses can be brought into the order of a query -/
structure OrderKept (cs : List Clause) : Prop where
  /-- a condition after the first limit is one that stands before it as well -/
  conditions_first : ∀ pre n post, cs = pre ++ .limit n :: post → limits pre = [] →
    ∀ t ∈ conditions post, t ∈ conditions pre
  /-- the last limit is the least -/
  limit_last : ∀ l, (limits cs).getLast? = some l → ∀ n ∈ limits cs, l ≤ n
  /-- wherever a limit cuts off pages, the keys sorted by so far, the latest first, are those of the
  query, keys that cannot matter aside -/
  cut_sorted : ∀ pre n post, cs = pre ++ .limit n :: post → (∀ m ∈ limits pre, n < m) →
    leading (sorts pre).reverse = leading (sorts cs)
  /-- and so are all keys sorted by, if there can be two pages left -/
  end_sorted : (∀ n ∈ limits cs, 2 ≤ n) → leading (sorts cs).reverse = leading (sorts cs)

/-! ### Orders that are kept -/

namespace OrderKept

variable {Page : Type} {cs pre post : List Clause} {n : Nat} (I : Interpretation Page)

/-- the first limit leaves the first pages of the result -/
theorem runClauses_first_limit (h : OrderKept cs) (hcs : cs = pre ++ .limit n :: post)
    (hpre : limits pre = []) (pages : List Page) :
    I.runClauses (pre ++ [.limit n]) pages =
      I.sortBy (sorts pre).reverse ((I.unlimited cs pages).take n) := by
  have hkeys := h.cut_sorted pre n post hcs (by simp [hpre])
  have hadmits : I.admits cs = I.admits pre := by
    have hpost : ∀ x, I.admits pre x = true → I.admits (.limit n :: post) x = true := by
      intro x hx
      refine List.all_eq_true.2 fun t ht => ?_
      exact List.all_eq_true.1 hx t (h.conditions_first pre n post hcs hpre t ht)
    rw [hcs, I.admits_append]
    funext x
    cases hx : I.admits pre x with
    | false => rw [Bool.and_false]
    | true => rw [hpost x hx, Bool.and_true]
  have hrun : I.runClauses pre pages = I.unlimited cs pages := by
    rw [I.runClauses_of_length_le (by simp [hpre]), I.sortBy_eq_of_leading hkeys, ← hadmits]
    rfl
  rw [I.runClauses_append, hrun, I.sortBy_eq_of_leading hkeys]
  exact (I.sortBy_take ..).symm

/-- a limit that is less than those before it leaves the first pages of the result -/
theorem runClauses_lower_limit (h : OrderKept cs) (hcs : cs = pre ++ .limit n :: post) {p : Nat}
    (hp : n < p) (hleast : ∀ m ∈ limits pre, p ≤ m) {pages : List Page}
    (hrun : I.runClauses pre pages =
      I.sortBy (sorts pre).reverse ((I.unlimited cs pages).take p)) :
    I.runClauses (pre ++ [.limit n]) pages =
      I.sortBy (sorts pre).reverse ((I.unlimited cs pages).take n) := by
  have hkeys := h.cut_sorted pre n post hcs fun m hm => Nat.lt_of_lt_of_le hp (hleast m hm)
  have hcut : I.runClauses pre pages = (I.unlimited cs pages).take p := by
    rw [hrun, I.sortBy_eq_of_leading hkeys]
    exact I.sortBy_take ..
  rw [I.runClauses_append, hcut, I.sortBy_eq_of_leading hkeys]
  calc ((I.unlimited cs pages).take p).take n
    _ = (I.unlimited cs pages).take n := by
      rw [List.take_take, Nat.min_eq_left (Nat.le_of_lt hp)]
    _ = I.sortBy (sorts cs) ((I.unlimited cs pages).take n) := (I.sortBy_take ..).symm

/-- after the first limit, the clauses have left as many of the first pages of the result as the
least limit allows, in the order of the keys so far -/
theorem runClauses_of_least (h : OrderKept cs) (hcs : cs = pre ++ post) {q : Nat}
    (hq : q ∈ limits pre) (hleast : ∀ m ∈ limits pre, q ≤ m) (pages : List Page) :
    I.runClauses pre pages = I.sortBy (sorts pre).reverse ((I.unlimited cs pages).take q) := by
  induction pre using List.reverseRecOn generalizing post q with
  | nil => cases hq
  | append_singleton pre c ih =>
    have hcs : cs = pre ++ c :: post := by rw [hcs, List.append_assoc, List.singleton_append]
    rw [limits_append] at hq hleast
    by_cases hpre : limits pre = []
    · rw [hpre, List.nil_append] at hq
      cases eq_limit_of_mem hq
      rw [h.runClauses_first_limit I hcs hpre, sorts_append]
      exact congrArg (fun ks : List SortKey => I.sortBy ks.reverse _) (List.append_nil _).symm
    · have hp := List.min_mem hpre
      have hpleast : ∀ m ∈ limits pre, (limits pre).min hpre ≤ m := fun m hm =>
        List.min_le_of_mem hm
      have hrun := ih hcs hp hpleast
      by_cases hlower : q < (limits pre).min hpre
      · -- the clause is a limit less than all before it
        have hqc : q ∈ limits [c] := by
          rcases List.mem_append.1 hq with hq | hq
          · exact absurd (hpleast q hq) (Nat.not_le_of_lt hlower)
          · exact hq
        cases eq_limit_of_mem hqc
        rw [h.runClauses_lower_limit I hcs hlower hpleast hrun, sorts_append]
        exact congrArg (fun ks : List SortKey => I.sortBy ks.reverse _) (List.append_nil _).symm
      · have hqp : q = (limits pre).min hpre :=
          Nat.le_antisymm (hleast _ (List.mem_append_left _ hp)) (Nat.le_of_not_lt hlower)
        rw [← hqp] at hrun
        have hlen : ∀ m ∈ limits [c], ((I.unlimited cs pages).take q).length ≤ m := by
          intro m hm
          exact Nat.le_trans (List.length_take_le ..) (hleast m (List.mem_append_right _ hm))
        have hconds : conditions [c] ⊆ conditions cs := by
          intro t ht
          rw [hcs, ← List.singleton_append, conditions_append, conditions_append]
          exact List.mem_append_right _ (List.mem_append_left _ ht)
        calc I.runClauses (pre ++ [c]) pages
          _ = I.applyClause c (I.sortBy (sorts pre).reverse ((I.unlimited cs pages).take q)) := by
            rw [I.runClauses_append, hrun]
            rfl
          _ = I.sortBy (sorts (pre ++ [c])).reverse ((I.unlimited cs pages).take q) := by
            rw [I.applyClause_sortBy hlen, I.filter_unlimited hconds, sorts_append,
              List.reverse_append]

/-- **Kept orders.**  If the order is kept, clauses run one after the other list what the query
lists. -/
theorem runClauses_eq_execute (h : OrderKept cs) (pages : List Page) :
    I.runClauses cs pages = I.execute (Clauses.collect {} cs) pages := by
  rw [I.execute_collect]
  cases hl : (limits cs).getLast? with
  | none =>
    have hnil : limits cs = [] := List.getLast?_eq_none_iff.1 hl
    rw [I.runClauses_of_length_le (by simp [hnil]),
      I.sortBy_eq_of_leading (h.end_sorted (by simp [hnil]))]
    rfl
  | some l =>
    have hmem : l ∈ limits cs := List.mem_of_getLast? hl
    have hleast := h.limit_last l hl
    rw [h.runClauses_of_least I (List.append_nil cs).symm hmem hleast]
    by_cases hone : l ≤ 1
    · exact mergeSort_of_length_le_one (Nat.le_trans (List.length_take_le ..) hone)
    · have hend := h.end_sorted fun n hn => by
        have := hleast n hn
        omega
      rw [I.sortBy_eq_of_leading hend]
      exact I.sortBy_take ..

end OrderKept

/-! ### Interpretations that tell orders apart -/

namespace Interpretation

variable {Page : Type}

/-- callbacks are on pages what the conditions and the fields are that they are lowered to -/
def ofTexts (o : FieldOrders Page) (holds : String → Page → Bool) : Interpretation Page where
  toFieldOrders := o
  holds := holds
  answer a :=
    match Condition.ofArg a with
    | .ok c => holds c.fragment
    | .error _ => fun _ => true
  compare a :=
    match Selector.key a with
    | .ok f => o.le f
    | .error _ => fun _ _ => true
  answer_eq h := by rw [h]
  compare_eq h := by rw [h]

/-- only the order of pages matters: every condition holds -/
def ofOrders (o : FieldOrders Page) : Interpretation Page := ofTexts o fun _ _ => true

theorem filter_ofOrders (o : FieldOrders Page) (cs : List Clause) (pages : List Page) :
    pages.filter ((ofOrders o).admits cs) = pages :=
  List.filter_eq_self.2 fun _ _ => List.all_eq_true.2 fun _ _ => rfl

theorem unlimited_ofOrders (o : FieldOrders Page) (cs : List Clause) (pages : List Page) :
    (ofOrders o).unlimited cs pages = pages.mergeSort (o.byKeys (sorts cs)) := by
  unfold unlimited
  rw [filter_ofOrders]
  rfl

theorem runClauses_ofOrders {o : FieldOrders Page} {cs : List Clause} {pages : List Page}
    (h : ∀ n ∈ limits cs, pages.length ≤ n) :
    (ofOrders o).runClauses cs pages = pages.mergeSort (o.byKeys (sorts cs).reverse) := by
  rw [runClauses_of_length_le _ h, filter_ofOrders]
  rfl

/-- no field tells pages apart -/
def allTied : FieldOrders Page := ⟨fun _ _ _ => true, fun _ => .trivial⟩

theorem sortBy_allTied (holds : String → Page → Bool) (ks : List SortKey) (pages : List Page) :
    (ofTexts allTied holds).sortBy ks pages = pages := by
  refine List.mergeSort_of_pairwise (List.pairwise_of_forall ?_)
  intro x y
  show allTied.byKeys ks x y = true
  induction ks with
  | nil => rfl
  | cons k ks ih =>
    obtain ⟨f, _ | _⟩ := k
    · exact thenBy_eq_true.2 ⟨rfl, fun _ => ih⟩
    · exact thenBy_eq_true.2 ⟨rfl, fun _ => ih⟩

variable (I : Interpretation Page)

/-- the first page of the result is listed, unless nothing is -/
theorem head_mem_execute {cs : List Clause} (hlast : (limits cs).getLast? ≠ some 0)
    {pages rest : List Page} {x : Page} (h : I.unlimited cs pages = x :: rest) :
    x ∈ I.execute (Clauses.collect {} cs) pages := by
  rw [execute_collect, h]
  split
  · rename_i n hn
    cases n with
    | zero => exact absurd hn hlast
    | succ n => exact List.mem_cons_self
  · exact List.mem_cons_self

end Interpretation

/-- the clauses run one after the other list what the query lists, whatever the interpretation -/
def Agrees (cs : List Clause) : Prop :=
  ∀ (Page : Type) (I : Interpretation Page) (pages : List Page),
    I.runClauses cs pages = I.execute (Clauses.collect {} cs) pages

namespace Agrees

open Interpretation

variable {cs : List Clause}

/-- otherwise there are fewer of enough pages left -/
theorem limit_last (h : Agrees cs) :
    ∀ l, (limits cs).getLast? = some l → ∀ n ∈ limits cs, l ≤ n := by
  intro l hl n hn
  have hlen := (ofOrders allTied).length_runClauses_le hn (List.replicate l ())
  rw [h Unit, execute_collect, hl, unlimited_ofOrders] at hlen
  simpa using hlen

/-- otherwise a page is left out that the condition holds of, for others that it does not hold of -/
theorem conditions_first (h : Agrees cs) (hlast : (limits cs).getLast? ≠ some 0) :
    ∀ pre n post, cs = pre ++ .limit n :: post → limits pre = [] →
      ∀ t ∈ conditions post, t ∈ conditions pre := by
  intro pre n post hcs hpre t ht
  by_contra hnot
  let I : Interpretation Bool := ofTexts allTied fun t' x => t' != t || x
  have htrue : ∀ ds, I.admits ds true = true := fun ds =>
    List.all_eq_true.2 fun _ _ => Bool.or_true _
  have hpre' : ∀ x, I.admits pre x = true := by
    intro x
    refine List.all_eq_true.2 fun t' ht' => ?_
    have hne : t' ≠ t := fun he => hnot (he ▸ ht')
    exact Bool.or_eq_true_iff.2 (Or.inl (bne_iff_ne.2 hne))
  have hfalse : I.admits cs false = false := by
    refine List.all_eq_false.2 ⟨t, ?_, by simp [I, ofTexts]⟩
    rw [hcs, conditions_append]
    exact List.mem_append_right _ ht
  have hrun : I.runClauses pre (List.replicate n false ++ [true]) =
      List.replicate n false ++ [true] := by
    rw [I.runClauses_of_length_le (by simp [hpre]), sortBy_allTied,
      List.filter_eq_self.2 fun x _ => hpre' x]
  have hlisted : I.unlimited cs (List.replicate n false ++ [true]) = [true] := by
    unfold unlimited
    rw [sortBy_allTied, List.filter_append]
    simp [hfalse, htrue]
  have hmem := I.head_mem_execute hlast hlisted
  rw [← h Bool, hcs, I.runClauses_at_limit, hrun,
    List.take_left' (List.length_replicate ..)] at hmem
  cases List.eq_of_mem_replicate ((runClauses_subperm _ _ _).subset hmem)

/-- otherwise a page that is listed first is cut off -/
theorem cut_sorted (h : Agrees cs) (hlast : (limits cs).getLast? ≠ some 0) :
    ∀ pre n post, cs = pre ++ .limit n :: post → (∀ m ∈ limits pre, n < m) →
      leading (sorts pre).reverse = leading (sorts cs) := by
  intro pre n post hcs hpre
  by_contra hne
  obtain ⟨o, pages, hg, hh⟩ := FieldOrders.exists_told_apart (Ne.symm hne) n
  have hlen : pages.length = n + 1 := by
    have := congrArg List.length hg
    simpa using this
  have hlong : ∀ m ∈ limits pre, pages.length ≤ m := by
    intro m hm
    have := hpre m hm
    omega
  have hmem := (ofOrders o).head_mem_execute hlast ((unlimited_ofOrders o cs pages).trans hg)
  rw [← h Bool, hcs, runClauses_at_limit, runClauses_ofOrders hlong, hh,
    List.take_left' (List.length_replicate ..)] at hmem
  cases List.eq_of_mem_replicate ((runClauses_subperm _ _ _).subset hmem)

/-- otherwise two pages are listed the other way round -/
theorem end_sorted (h : Agrees cs) :
    (∀ n ∈ limits cs, 2 ≤ n) → leading (sorts cs).reverse = leading (sorts cs) := by
  intro hlong
  by_contra hne
  obtain ⟨o, pages, hg, hh⟩ := FieldOrders.exists_told_apart (Ne.symm hne) 1
  have hlen : pages.length = 2 := by
    have := congrArg List.length hg
    simpa using this
  have hagree := h Bool (ofOrders o) pages
  rw [runClauses_ofOrders (by rwa [hlen]), hh, execute_collect, unlimited_ofOrders, hg] at hagree
  split at hagree
  · rename_i n hn
    have := hlong n (List.mem_of_getLast? hn)
    rw [List.take_of_length_le (by simpa using this)] at hagree
    cases hagree
  · cases hagree

theorem orderKept (h : Agrees cs) (hlast : (limits cs).getLast? ≠ some 0) : OrderKept cs where
  conditions_first := h.conditions_first hlast
  limit_last := h.limit_last
  cut_sorted := h.cut_sorted hlast
  end_sorted := h.end_sorted

end Agrees

/-- **Orders of clauses.**  Clauses run one after the other list what the query lists, under every
interpretation, exactly if the last limit is 0 or the order is kept. -/
theorem agrees_iff (cs : List Clause) :
    Agrees cs ↔ (limits cs).getLast? = some 0 ∨ OrderKept cs := by
  constructor
  · intro h
    by_cases hlast : (limits cs).getLast? = some 0
    · exact Or.inl hlast
    · exact Or.inr (h.orderKept hlast)
  · rintro (hlast | h) Page I pages
    · have hlen := I.length_runClauses_le (List.mem_of_getLast? hlast) pages
      rw [List.length_eq_zero_iff.1 (Nat.le_zero.1 hlen), I.execute_collect, hlast]
      rfl
    · exact h.runClauses_eq_execute I pages

theorem eq_of_limit_at_end {cs pre post : List Clause} {n m : Nat} (hlimits : limits cs = [])
    (h : cs ++ [.limit n] = pre ++ .limit m :: post) : pre = cs ∧ m = n ∧ post = [] := by
  rcases List.eq_nil_or_concat post with rfl | ⟨post, c, rfl⟩
  · obtain ⟨hpre, hm⟩ := List.append_singleton_inj.1 h
    exact ⟨hpre.symm, (Clause.limit.inj hm).symm, rfl⟩
  · -- the limit would stand further in front
    rw [List.concat_eq_append, ← List.cons_append, ← List.append_assoc] at h
    obtain ⟨hcs, -⟩ := List.append_singleton_inj.1 h
    rw [hcs, limits_append] at hlimits
    exact absurd (List.append_eq_nil_iff.1 hlimits).2 (List.cons_ne_nil m _)

/-- one limit behind conditions and keys keeps the order, if the keys could as well be reversed -/
theorem OrderKept.limit_at_end {cs : List Clause} (hlimits : limits cs = [])
    (hkeys : leading (sorts cs).reverse = leading (sorts cs)) (n : Nat) :
    OrderKept (cs ++ [.limit n]) := by
  have hsorts : sorts (cs ++ [.limit n]) = sorts cs := by
    rw [sorts_append]
    exact List.append_nil _
  have hlimits' : limits (cs ++ [.limit n]) = [n] := by
    rw [limits_append, hlimits]
    rfl
  constructor
  · intro pre m post hcs _ t ht
    obtain ⟨-, -, rfl⟩ := eq_of_limit_at_end hlimits hcs
    cases ht
  · intro l hl m hm
    rw [hlimits'] at hl hm
    have hl : n = l := Option.some.inj hl
    have hm : m = n := List.mem_singleton.1 hm
    omega
  · intro pre m post hcs _
    obtain ⟨rfl, -, -⟩ := eq_of_limit_at_end hlimits hcs
    rw [hsorts, hkeys]
  · intro _
    rw [hsorts, hkeys]

/-! ### Chains -/

namespace Chain

/-- **Chains and their queries.**  For a chain of conditions, keys and limits on all pages that is
lowered to a query, applying its calls lists what the query lists, under every interpretation,
exactly if the last limit is 0 or the order of the clauses is kept. -/
theorem run_eq_execute_iff {chain : Chain} {d : Dialect} {t : Translation}
    (ht : Translation.ofChain chain d = .ok t) (hsource : Text.trim chain.source = "")
    (hm : ∀ m ∈ chain.calls, m.method ∈ pageMethods) :
    ∃ cs, chain.calls.mapM Clause.ofCall = .ok cs ∧
      ((∀ (Page : Type) (I : Interpretation Page) (pages : List Page),
          I.run chain.calls pages = I.execute t.clauses pages) ↔
        t.clauses.limit = some 0 ∨ OrderKept cs) := by
  obtain ⟨cs, hcs, -, hclauses, -⟩ := Translation.ofChain_eq_ok.1 ht
  rw [Clauses.ofRoot_of_trim_eq_empty hsource] at hclauses
  refine ⟨cs, mapM_eq_ok.2 hcs, ?_⟩
  rw [hclauses]
  have hagrees := agrees_iff cs
  unfold Agrees at hagrees
  simp only [Interpretation.run_eq_runClauses _ hm hcs]
  exact hagrees

/-- a chain of a condition, a key and a limit -/
def usualOrder : Chain :=
  ⟨"", [⟨"where", [⟨"p => p.a", none⟩]⟩, ⟨"sort", [⟨"p => p.b", none⟩, ⟨"desc", none⟩]⟩,
    ⟨"limit", [⟨"5", none⟩]⟩]⟩

theorem usualOrder_run_eq_execute :
    ∃ t, Translation.ofChain usualOrder {} = .ok t ∧ t.query = "LIST WHERE a SORT b desc LIMIT 5" ∧
      ∀ (Page : Type) (I : Interpretation Page) (pages : List Page),
        I.run usualOrder.calls pages = I.execute t.clauses pages := by
  have hcs : usualOrder.calls.mapM Clause.ofCall =
      .ok ([.condition "a", .sort ⟨"b", .descending⟩] ++ [.limit 5]) := by
    decide +kernel
  obtain ⟨t, ht, -, -⟩ := Translation.exists_ofChain hcs {}
  obtain ⟨cs, hcs', hiff⟩ := run_eq_execute_iff ht (by decide +kernel) (by decide +kernel)
  cases Except.ok.inj (hcs.symm.trans hcs')
  refine ⟨t, ht, ?_, hiff.2 (Or.inr (OrderKept.limit_at_end (by decide) (by decide) 5))⟩
  have hquery : (Translation.ofChain usualOrder {}).toOption.map (·.query) =
      some "LIST WHERE a SORT b desc LIMIT 5" := by
    decide +kernel
  rw [ht] at hquery
  exact Option.some.inj hquery

/-- a chain sorted by one key and then by another -/
def sortedTwice : Chain :=
  ⟨"", [⟨"sort", [⟨"p => p.a", none⟩]⟩, ⟨"sort", [⟨"p => p.b", none⟩]⟩]⟩

/-- the chain sorts by the later key first, its query by the earlier one -/
theorem sortedTwice_not_run_eq_execute :
    ¬ ∀ (chain : Chain) (d : Dialect) (t : Translation), Translation.ofChain chain d = .ok t →
      chain.source = "" → (∀ m ∈ chain.calls, m.method ∈ pageMethods) →
        ∀ (Page : Type) (I : Interpretation Page) (pages : List Page),
          I.run chain.calls pages = I.execute t.clauses pages := by
  intro h
  have hcs : sortedTwice.calls.mapM Clause.ofCall =
      .ok [.sort ⟨"a", .ascending⟩, .sort ⟨"b", .ascending⟩] := by
    decide +kernel
  have hm : ∀ m ∈ sortedTwice.calls, m.method ∈ pageMethods := by
    decide +kernel
  have hagrees : Agrees [.sort ⟨"a", .ascending⟩, .sort ⟨"b", .ascending⟩] := by
    intro Page I pages
    obtain ⟨t, ht, -, hclauses⟩ := Translation.exists_ofChain hcs {}
    have hroot : Clauses.ofRoot {} sortedTwice.source = {} :=
      Clauses.ofRoot_of_trim_eq_empty (by decide +kernel)
    rw [hroot] at hclauses
    rw [← I.run_eq_runClauses hm (mapM_eq_ok.1 hcs), ← hclauses]
    exact h sortedTwice {} t ht rfl hm Page I pages
  have hkeys := (hagrees.orderKept (by decide)).end_sorted (by decide)
  revert hkeys
  decide

end Chain

end PageQuery
