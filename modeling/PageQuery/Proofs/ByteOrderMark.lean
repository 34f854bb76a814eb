import PageQuery.Proofs.Parentheses

/-!
# Texts behind a byte order mark

A byte order mark at the start of a text is no part of the script, and places in the script do not
count it (`readSource_marked`).  The source of an argument, though, is cut out of the text with the
mark, so it begins and ends three bytes too early (`slice_marked`).  An argument `KeepsText` if it is a
literal, whose text is not cut out, or if the two stretches happen to read the same.

`marked_text`: the mark changes neither whether a text is a chain nor its calls, it leaves the chain
as it is exactly if all arguments keep their text, and it leaves the query as it is if those do that
are read as a text.
-/

namespace PageQuery

open Script Script.Expr

namespace Script

/-- the text behind a byte order mark -/
def marked (text : String) : String := "\ufeff" ++ text

/-- the text begins with a byte order mark -/
def IsMarked (text : String) : Prop := text.toList.head? = some '\ufeff'

/-- the same script, read from the text behind a byte order mark -/
def Source.marked (s : Source) : Source := { s with text := Script.marked s.text }

/-- the fault of the text behind a byte order mark; only the end of the text counts the mark -/
def Fault.marked : Fault → Fault
  | .empty o => .empty (o + 3)
  | f => f

/-! ### Reading -/

theorem toList_marked (text : String) : (marked text).toList = '\ufeff' :: text.toList := by
  rw [marked, String.toList_append]
  rfl

theorem ofText_marked {text : String} (h : ¬ IsMarked text) :
    Cursor.ofText (marked text).toList = Cursor.ofText text.toList := by
  rw [toList_marked]
  unfold IsMarked at h
  generalize text.toList = cs at h
  unfold Cursor.ofText
  split
  · split
    · exact absurd rfl h
    · rename_i heq _ _
      rw [(List.cons.inj heq).2]
  · rename_i hne
    exact absurd rfl (hne cs)

theorem readStatements_marked {text : String} (h : ¬ IsMarked text) :
    readStatements (marked text).toList = readStatements text.toList := by
  unfold readStatements
  rw [ofText_marked h]

/-- A text is read the same behind a byte order mark. -/
theorem readSource_marked {text : String} (h : ¬ IsMarked text) :
    readSource (marked text) =
      match readSource text with
      | .ok s => .ok s.marked
      | .error f => .error f.marked := by
  have hbytes : byteLength (marked text).toList = byteLength text.toList + 3 := by
    rw [toList_marked, Nat.add_comm]
    rfl
  unfold readSource
  dsimp only
  rw [ofText_marked h, readStatements_marked h, hbytes]
  cases checkNesting (boundedLexemes (Cursor.ofText text.toList)) with
  | error e =>
    obtain ⟨o, excess⟩ := e
    cases excess <;> rfl
  | ok _ =>
    cases readStatements text.toList with
    | error o => rfl
    | ok r =>
      obtain ⟨ss, tokens⟩ := r
      rcases ss with _ | ⟨⟨e⟩ | ⟨e⟩ | _, _ | ⟨t, ss⟩⟩ <;> rfl

/-- A stretch of the text with the mark is the one three bytes further on in the text without it. -/
theorem slice_marked (s : Source) {e : Extent} (h : 3 ≤ e.start) :
    s.marked.slice e = s.slice ⟨e.start - 3, e.stop - 3⟩ := by
  obtain ⟨start, stop⟩ := e
  obtain ⟨start, rfl⟩ : ∃ n, start = n + 3 := ⟨start - 3, (Nat.sub_add_cancel h).symm⟩
  have hdrop : dropBytes? (start + 3) (Script.marked s.text).toList =
      dropBytes? start s.text.toList := by
    have hsize : '\ufeff'.utf8Size = 3 := rfl
    have hle : 3 ≤ start + 3 := Nat.le_add_left 3 start
    rw [toList_marked, dropBytes?, hsize, if_pos hle]
    rfl
  have hlength : stop - (start + 3) = stop - 3 - start := by omega
  show String.ofList (((dropBytes? (start + 3) (Script.marked s.text).toList).bind
    (takeBytes? (stop - (start + 3)))).getD []) = _
  rw [hdrop, hlength]
  rfl

/-- the argument has the same text behind a byte order mark -/
def Source.KeepsText (s : Source) (a : Argument Expr) : Prop :=
  a.value.IsLiteral ∨ s.marked.slice a.extent = s.slice a.extent

end Script

theorem readExpression_marked {text : String} (h : ¬ IsMarked text) :
    Together (fun s s' => s' = s.marked) (readExpression text) (readExpression (marked text)) := by
  unfold readExpression
  rw [readSource_marked h]
  cases readSource text with
  | ok s => exact .ok rfl
  | error f => exact .error

/-! ### Chains -/

namespace Chain

theorem argGiven_marked_eq_iff {s : Source} {a : Argument Expr} :
    argGiven s.marked a = argGiven s a ↔ s.KeepsText a := by
  have htext : argGiven s.marked a = argGiven s a ↔
      a.value.givenText?.getD (s.marked.slice a.extent) =
        a.value.givenText?.getD (s.slice a.extent) := by
    simp [argGiven]
  rw [htext, Source.KeepsText, ← isSome_givenText?_iff]
  cases a.value.givenText? with
  | none => simp
  | some t => simp

theorem text_marked_of_keepsText {s : Source} {a : Argument Expr} (h : s.KeepsText a) :
    (argGiven s a).text = (argGiven s.marked a).text :=
  congrArg Arg.text (argGiven_marked_eq_iff.2 h).symm

theorem map_argGiven_marked_eq_iff {s : Source} {args : List (Argument Expr)} :
    args.map (argGiven s.marked) = args.map (argGiven s) ↔ ∀ a ∈ args, s.KeepsText a := by
  rw [List.map_inj_left]
  exact forall₂_congr fun _ _ => argGiven_marked_eq_iff

theorem sourceGiven_marked_eq_iff {s : Source} {args : List (Argument Expr)} :
    sourceGiven s.marked args = sourceGiven s args ↔ ∀ a ∈ args.take 1, s.KeepsText a := by
  cases args with
  | nil => simp [sourceGiven]
  | cons a args =>
    have hnode : (argGiven s.marked a).node = (argGiven s a).node := rfl
    have htext : argGiven s.marked a = argGiven s a ↔
        (argGiven s.marked a).text = (argGiven s a).text :=
      ⟨congrArg Arg.text, fun ht => by
        generalize argGiven s.marked a = b at hnode ht
        generalize argGiven s a = c at hnode ht
        obtain ⟨text, node⟩ := b
        obtain ⟨text', node'⟩ := c
        cases hnode
        cases ht
        rfl⟩
    simp only [sourceGiven, List.map_cons, List.head?_cons, Option.map_some, Option.getD_some,
      List.take_succ_cons, List.take_zero, List.forall_mem_singleton, ← argGiven_marked_eq_iff,
      htext]

/-- the arguments of a call whose text the chain keeps; of the root method it is the first one -/
def Link.keptArguments (d : Dialect) (l : Link) : List (Argument Expr) :=
  if l.method = some d.root then l.args.take 1 else l.args

/-- Chains of the same links, with the mark and without it, are the same exactly if all arguments that
they keep have the same text. -/
theorem ofLinks_marked_eq_iff {s : Source} {d : Dialect} {ls : List Link}
    {after after' : List MethodCall} {c c' : Chain} (h : ofLinks s d after ls = .ok c)
    (h' : ofLinks s.marked d after' ls = .ok c') :
    c' = c ↔ after' = after ∧ ∀ l ∈ ls, ∀ a ∈ l.keptArguments d, s.KeepsText a := by
  induction ls generalizing after after' with
  | nil =>
    cases h
    cases h'
    simp
  | cons l ls ih =>
    obtain ⟨start, method, args⟩ := l
    cases method with
    | none => cases h
    | some m =>
      simp only [ofLinks] at h h'
      obtain ⟨as, has, h⟩ := bind_eq_ok.1 h
      obtain ⟨as', has', h'⟩ := bind_eq_ok.1 h'
      obtain ⟨-, rfl⟩ := mapM_argOf_eq_ok.1 has
      obtain ⟨-, rfl⟩ := mapM_argOf_eq_ok.1 has'
      rw [List.forall_mem_cons]
      by_cases hroot : m = d.root
      · simp only [hroot, beq_self_eq_true, if_true] at h h'
        by_cases hnil : ls.isEmpty = true
        · rw [if_pos hnil] at h h'
          cases h
          cases h'
          have hkept : Link.keptArguments d ⟨start, some d.root, args⟩ = args.take 1 := if_pos rfl
          have hsource : sourceGiven s.marked args = sourceGiven s args ↔ _ :=
            sourceGiven_marked_eq_iff
          rw [hroot, hkept, ← hsource, List.isEmpty_iff.1 hnil]
          simp [sourceGiven, and_comm]
        · rw [if_neg hnil] at h
          cases h
      · have hne : (m == d.root) = false := beq_false_of_ne hroot
        simp only [hne] at h h'
        have hkept : Link.keptArguments d ⟨start, some m, args⟩ = args :=
          if_neg fun he => hroot (Option.some.inj he)
        rw [ih h h', hkept, ← map_argGiven_marked_eq_iff]
        simp only [List.cons.injEq, MethodCall.mk.injEq, true_and]
        constructor
        · rintro ⟨⟨ha, hafter⟩, hls⟩
          exact ⟨hafter, ha, hls⟩
        · rintro ⟨hafter, ha, hls⟩
          exact ⟨⟨ha, hafter⟩, hls⟩

theorem ofSource_marked_eq_iff {s : Source} {d : Dialect} {c c' : Chain}
    (h : ofSource s d = .ok c) (h' : ofSource s.marked d = .ok c') :
    c' = c ↔ ∀ l ∈ links s.expr, ∀ a ∈ l.keptArguments d, s.KeepsText a := by
  have hexpr : s.marked.expr = s.expr := rfl
  unfold ofSource at h h'
  rw [hexpr] at h'
  generalize links s.expr = ls at h h' ⊢
  cases ls with
  | nil => cases h
  | cons l ls =>
    have hiff := ofLinks_marked_eq_iff h h'
    simpa using hiff

end Chain

/-! ### Queries -/

namespace Translation

open Chain

/-- what a text is lowered to: the text of the query, its clauses and the warnings -/
def answerOf? (text : String) (d : Dialect) : Option (String × Clauses × List String) :=
  (ofText text d).toOption.map fun t => (t.query, t.clauses, t.warnings)

theorem answerOf?_eq (text : String) (d : Dialect) :
    answerOf? text d = (readExpression text).toOption.bind fun s => ofSource? s d := by
  unfold answerOf? ofText Chain.read ofSource? answer?
  rw [toOption_bind, toOption_bind, Option.map_bind, Option.bind_assoc]
  rfl

theorem ofSource?_marked {s : Source} {d : Dialect}
    (h : ∀ l ∈ links s.expr, ∀ a ∈ l.textArguments d, s.KeepsText a) :
    ofSource? s.marked d = ofSource? s d := by
  symm
  refine ofSource?_congr ?_
  show List.Forall₂ _ (links s.expr) (links s.expr)
  rw [List.forall₂_same]
  intro l hl
  refine related_matches rfl ?_
  rw [List.forall₂_same]
  exact fun a ha => text_marked_of_keepsText (h l hl a ha)

/-- **A byte order mark.**  A text is a chain behind a byte order mark exactly if it is one without it,
and of the same calls with arguments that are alike.  The chain is the same exactly if all the
arguments it keeps have the same text; an argument that is no literal gets what stands three bytes
before it.  The query is the same if the arguments that are read as a text have the same. -/
theorem marked_text {text : String} (h : ¬ IsMarked text) (d : Dialect) :
    Together (fun c c' => List.Forall₂ MethodCall.Alike c.calls c'.calls ∧
        ∀ s, readExpression text = .ok s →
          (c' = c ↔ ∀ l ∈ links s.expr, ∀ a ∈ l.keptArguments d, s.KeepsText a))
      (Chain.read text d) (Chain.read (marked text) d) ∧
    (∀ s, readExpression text = .ok s → ∀ e : Extent, 3 ≤ e.start →
      s.marked.slice e = s.slice ⟨e.start - 3, e.stop - 3⟩) ∧
    ((∀ s, readExpression text = .ok s →
        ∀ l ∈ links s.expr, ∀ a ∈ l.textArguments d, s.KeepsText a) →
      answerOf? (marked text) d = answerOf? text d) := by
  have hread := readExpression_marked h
  refine ⟨?_, fun s _ e he => slice_marked s he, fun hkeeps => ?_⟩
  · refine hread.bind fun s s' hs _ hmarked => ?_
    rw [hmarked]
    have hlinks : List.Forall₂ (Link.Related s s.marked d MethodCall.Alike fun t t' => False → t = t')
        (links s.expr) (links s.expr) :=
      List.forall₂_same.2 fun l _ => related_alike rfl nofun
    have hchain := together_ofSource (fun _ => rfl) hlinks
    refine hchain.mono fun c c' hc hc' hcalls => ⟨hcalls.2, fun t ht => ?_⟩
    obtain rfl : s = t := Except.ok.inj (hs.symm.trans ht)
    exact ofSource_marked_eq_iff hc hc'
  · rw [answerOf?_eq, answerOf?_eq]
    refine (hread.toOption_bind_eq fun s s' hs _ hmarked => ?_).symm
    rw [hmarked]
    exact (ofSource?_marked (hkeeps s hs)).symm

/-- A tag and a number are read the same behind a mark, a variable is not. -/
theorem marked_text_tag :
    ¬ IsMarked "dv.pages(\"#a\").limit(2)" ∧
    answerOf? (marked "dv.pages(\"#a\").limit(2)") {} = answerOf? "dv.pages(\"#a\").limit(2)" {} ∧
    query? "dv.pages(\"#a\").limit(2)" {} = some "LIST WHERE contains(file.tags, \"#a\") LIMIT 2" ∧
    query? "dv.pages(abc)" {} = some "LIST FROM abc" ∧
    query? (marked "dv.pages(abc)") {} = some "LIST FROM es(" := by
  have hunmarked : ¬ IsMarked "dv.pages(\"#a\").limit(2)" := by
    unfold IsMarked
    decide
  have hliteral : (readExpression "dv.pages(\"#a\").limit(2)").toOption.map (fun s =>
      (links s.expr).all fun l => (l.textArguments {}).all fun a => a.value.givenText?.isSome) =
        some true := by
    decide +kernel
  refine ⟨hunmarked, (marked_text hunmarked {}).2.2 fun s hs l hl a ha => Or.inl ?_,
    by decide +kernel, by decide +kernel, by decide +kernel⟩
  rw [hs] at hliteral
  have hall := List.all_eq_true.1 (Option.some.inj hliteral) l hl
  exact isSome_givenText?_iff.1 (List.all_eq_true.1 hall a ha)

end Translation

end PageQuery
