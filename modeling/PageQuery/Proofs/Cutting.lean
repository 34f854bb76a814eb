import Mathlib.Data.List.TakeWhile
import PageQuery.Proofs.Collect
import PageQuery.Proofs.Words

/-!
# Tokens of a text that is cut off

A token depends on the text it is read from and on how it goes on at once.  If the text is cut off
behind the token, the same token is read: for each reader `f` of a literal there is a lemma `f_cut`
that says so of a text `u ++ (w ++ v)`, of which `f` leaves `w ++ v`, and the text `u ++ w`.

`readToken_cut` is the one for tokens, and `skipGap_cut` the one for the gap in front of them.
-/

namespace PageQuery.Script

variable {w v cs : List Char}

/-! ### Runs -/

theorem head?_any_of_append {p : Char → Bool} (h : (w ++ v).head?.any p = false) :
    w.head?.any p = false := by
  cases w with
  | nil => rfl
  | cons c w => exact h

theorem span_cut {p : Char → Bool} (h : cs.dropWhile p = w ++ v) :
    cs = cs.takeWhile p ++ (w ++ v) ∧ (cs.takeWhile p ++ w).takeWhile p = cs.takeWhile p ∧
      (cs.takeWhile p ++ w).dropWhile p = w := by
  have hall : ∀ c ∈ cs.takeWhile p, p c = true := fun c hc => List.mem_takeWhile_imp hc
  have hhead : w.head?.any p = false := by
    refine head?_any_of_append (v := v) ?_
    rw [← h]
    have := List.head?_dropWhile_not p cs
    cases hd : (cs.dropWhile p).head? with
    | none => rfl
    | some c => simpa [hd] using this
  have hends : ∀ c ∈ w.head?, p c = false := fun c hc => by
    rwa [Option.mem_def.1 hc, Option.any_some] at hhead
  exact ⟨by rw [← h, List.takeWhile_append_dropWhile], takeWhile_append_of_head? hall hends,
    dropWhile_append_of_head? hall hends⟩

/-! ### Strings and templates -/

theorem cutString_cut {quote : Char} {b : List Char} (h : cutString quote cs = some (b, w ++ v)) :
    ∃ u, cs = u ++ (w ++ v) ∧ cutString quote (u ++ w) = some (b, w) := by
  fun_induction cutString quote cs generalizing b with
  | case1 => cases h
  | case2 cs ih =>
    obtain ⟨⟨b, r⟩, hr, hb⟩ := Option.map_eq_some_iff.1 h
    cases hb
    obtain ⟨u, rfl, hu⟩ := ih hr
    exact ⟨'\\' :: '\r' :: '\n' :: u, rfl, by simp [cutString, hu]⟩
  | case3 c cs hno ih =>
    obtain ⟨⟨b, r⟩, hr, hb⟩ := Option.map_eq_some_iff.1 h
    cases hb
    obtain ⟨u, rfl, hu⟩ := ih hr
    have hno' : ∀ ds, c = '\r' → u ++ w = '\n' :: ds → False := fun ds hc hds =>
      hno (ds ++ v) hc (by rw [← List.append_assoc, hds, List.cons_append])
    refine ⟨'\\' :: c :: u, rfl, ?_⟩
    rw [List.cons_append, List.cons_append, cutString_escape hno', hu, Option.map_some]
  | case4 c cs hcr hesc hq =>
    cases h
    have hesc' : ∀ d ds, c = '\\' → w = d :: ds → False := fun d ds hc hds =>
      hesc d (ds ++ v) hc (by rw [hds, List.cons_append])
    refine ⟨[c], rfl, ?_⟩
    rw [List.singleton_append, cutString_cons hesc', if_pos hq]
  | case5 c cs => cases h
  | case6 c cs hcr hesc hq hline ih =>
    obtain ⟨⟨b, r⟩, hr, hb⟩ := Option.map_eq_some_iff.1 h
    cases hb
    obtain ⟨u, rfl, hu⟩ := ih hr
    have hesc' : ∀ d ds, c = '\\' → u ++ w = d :: ds → False := fun d ds hc hds =>
      hesc d (ds ++ v) hc (by rw [← List.append_assoc, hds, List.cons_append])
    refine ⟨c :: u, rfl, ?_⟩
    rw [List.cons_append, cutString_cons hesc', if_neg hq, if_neg hline, hu,
      Option.map_some]

theorem readString_cut {quote : Char} {t : Token} (h : readString quote cs = (t, w ++ v))
    (ht : t ≠ .invalid) : ∃ u, cs = u ++ (w ++ v) ∧ readString quote (u ++ w) = (t, w) := by
  unfold readString at h
  split at h
  · rename_i body rest hcut
    split at h
    · rename_i s hs
      cases h
      obtain ⟨u, rfl, hu⟩ := cutString_cut hcut
      exact ⟨u, rfl, by simp [readString, hu, hs]⟩
    · exact absurd (congrArg Prod.fst h).symm ht
  · exact absurd (congrArg Prod.fst h).symm ht

/-- A run of a template's text ends where a backquote stands behind it. -/
theorem cutChunk_cut {b : List Char} (h : cutChunk cs = some (b, '\x60' :: w ++ v)) :
    ∃ u, cs = u ++ ('\x60' :: w ++ v) ∧ cutChunk (u ++ '\x60' :: w) = some (b, '\x60' :: w) := by
  fun_induction cutChunk cs generalizing b with
  | case1 => cases h
  | case2 cs =>
    cases h
    exact ⟨[], rfl, by simp [cutChunk]⟩
  | case3 cs => cases h
  | case4 c cs ih =>
    obtain ⟨⟨b, r⟩, hr, hb⟩ := Option.map_eq_some_iff.1 h
    cases hb
    obtain ⟨u, rfl, hu⟩ := ih hr
    refine ⟨'\\' :: c :: u, rfl, ?_⟩
    rw [List.cons_append, List.cons_append, cutChunk_escape, hu, Option.map_some]
  | case5 c cs hquote hsub hesc ih =>
    obtain ⟨⟨b, r⟩, hr, hb⟩ := Option.map_eq_some_iff.1 h
    cases hb
    obtain ⟨u, rfl, hu⟩ := ih hr
    have hpart : ∀ d ds, u ++ '\x60' :: w = d :: ds → u ++ ('\x60' :: w ++ v) = d :: (ds ++ v) :=
      fun d ds hds => by rw [← List.append_assoc, hds, List.cons_append]
    refine ⟨c :: u, rfl, ?_⟩
    rw [List.cons_append, cutChunk_cons hquote (fun ds hc hds => hsub _ hc (hpart _ ds hds))
      (fun d ds hc hds => hesc d _ hc (hpart d ds hds)), hu, Option.map_some]

/-! ### Names -/

theorem readUnicodeEscape_cut {text : List Char} (h : readUnicodeEscape cs = some (text, w ++ v)) :
    ∃ u, cs = u ++ (w ++ v) ∧ readUnicodeEscape (u ++ w) = some (text, w) := by
  unfold readUnicodeEscape at h
  split at h
  · rename_i cs
    split at h
    · rename_i rest hdrop
      obtain ⟨t, ht, hb⟩ := Option.map_eq_some_iff.1 h
      cases hb
      obtain ⟨hcs, htake, hdrop⟩ := span_cut (w := '\x7d' :: w) hdrop
      generalize cs.takeWhile (fun c => (hexDigit? c).isSome) = run at ht hcs htake hdrop
      refine ⟨'\x7b' :: run ++ ['\x7d'], by simp [hcs], ?_⟩
      rw [List.append_assoc, List.cons_append, List.singleton_append, readUnicodeEscape, htake,
        hdrop]
      simpa using ht
    · cases h
  · rename_i a b c d rest hno
    obtain ⟨t, ht, hb⟩ := Option.map_eq_some_iff.1 h
    cases hb
    refine ⟨[a, b, c, d], rfl, ?_⟩
    show readUnicodeEscape (a :: b :: c :: d :: w) = _
    rw [readUnicodeEscape_digits hno, ht, Option.map_some]
  · cases h

theorem cutWord_cut {first escaped : Bool} {fuel : Nat} {text : List Char}
    (h : cutWord first fuel cs = some (text, escaped, w ++ v)) :
    ∃ u, cs = u ++ (w ++ v) ∧
      ∀ n, (u ++ w).length < n → cutWord first n (u ++ w) = some (text, escaped, w) := by
  have hpos : ∀ {u : List Char} {n : Nat}, u.length < n → ∃ m, n = m + 1 := fun {_ n} hn =>
    ⟨n - 1, by omega⟩
  fun_induction cutWord first fuel cs generalizing text escaped with
  | case1 => cases h
  | case2 first fuel =>
    have hnil : w ++ v = [] := (congrArg (fun r => r.2.2) (Option.some.inj h)).symm
    obtain ⟨rfl, rfl⟩ := List.append_eq_nil_iff.1 hnil
    cases h
    refine ⟨[], rfl, fun n hn => ?_⟩
    obtain ⟨m, rfl⟩ := hpos hn
    rfl
  | case3 first fuel cs ih =>
    obtain ⟨head, behind, c, tail, e, hu, hc, hname, hr, rfl, rfl⟩ := cutWord_escape_eq_some.1 h
    obtain ⟨x, rfl, hx⟩ := ih behind hr
    obtain ⟨y, rfl, hy⟩ := readUnicodeEscape_cut (w := x ++ w) (v := v)
      (by rw [hu, List.append_assoc])
    refine ⟨'\\' :: 'u' :: y ++ x, by simp, fun n hn => ?_⟩
    obtain ⟨m, rfl⟩ := hpos hn
    have hm : (x ++ w).length < m := by
      simp only [List.length_append, List.length_cons] at hn ⊢
      omega
    have hbehind : readUnicodeEscape (y ++ x ++ w) = some (head, x ++ w) := by
      rw [List.append_assoc, hy]
    exact cutWord_escape_eq_some.2
      ⟨head, x ++ w, c, tail, e, hbehind, hc, hname, hx m hm, rfl, rfl⟩
  | case4 => cases h
  | case5 first fuel c cs hesc hc ih =>
    obtain ⟨⟨t', e', r⟩, hr, hb⟩ := Option.map_eq_some_iff.1 h
    cases hb
    obtain ⟨x, rfl, hx⟩ := ih hr
    refine ⟨c :: x, rfl, fun n hn => ?_⟩
    obtain ⟨m, rfl⟩ := hpos hn
    have hm : (x ++ w).length < m := by
      simp only [List.cons_append, List.length_cons] at hn
      omega
    rw [List.cons_append, cutWord_cons hesc, if_pos hc, hx m hm, Option.map_some]
  | case6 first fuel c cs hesc hc =>
    have hwv : w ++ v = c :: cs := (congrArg (fun r => r.2.2) (Option.some.inj h)).symm
    obtain rfl : [] = text := congrArg (fun r => r.1) (Option.some.inj h)
    obtain rfl : false = escaped := congrArg (fun r => r.2.1) (Option.some.inj h)
    refine ⟨[], hwv.symm, fun n hn => ?_⟩
    obtain ⟨m, rfl⟩ := hpos hn
    cases w with
    | nil => rfl
    | cons d w =>
      obtain ⟨rfl, -⟩ := List.cons.inj hwv
      rw [List.nil_append, cutWord_cons hesc, if_neg hc]

theorem readWord_cut {t : Token} (h : readWord cs = (t, w ++ v)) (ht : t ≠ .invalid) :
    ∃ u, cs = u ++ (w ++ v) ∧ readWord (u ++ w) = (t, w) := by
  unfold readWord at h
  split at h
  · rename_i text escaped rest hcut
    dsimp only at h
    split at h
    · exact absurd (congrArg Prod.fst h).symm ht
    · rename_i hword
      cases h
      obtain ⟨u, rfl, hu⟩ := cutWord_cut hcut
      refine ⟨u, rfl, ?_⟩
      rw [readWord, hu _ (Nat.lt_succ_self _)]
      exact if_neg hword
  · exact absurd (congrArg Prod.fst h).symm ht

/-! ### Numbers -/

theorem cutDigits_cut {digit : Char → Bool} {before : Char} {digits : List Char} {ok : Bool}
    (h : cutDigits digit before cs = (digits, ok, w ++ v)) :
    cs = (cs.takeWhile fun c => digit c || c == '_') ++ (w ++ v) ∧
      cutDigits digit before ((cs.takeWhile fun c => digit c || c == '_') ++ w) = (digits, ok, w) := by
  have hrest : (cs.dropWhile fun c => digit c || c == '_') = w ++ v :=
    congrArg (fun r => r.2.2) h
  obtain ⟨hcs, htake, hdrop⟩ := span_cut hrest
  refine ⟨hcs, ?_⟩
  simp only [cutDigits, Prod.mk.injEq] at h ⊢
  rw [htake, hdrop]
  exact ⟨h.1, h.2.1, rfl⟩

theorem finishNumber_cut {ok mayBeBig : Bool} {value : Binary64} {t : Token}
    (h : finishNumber ok mayBeBig value cs = (t, w ++ v)) (ht : t ≠ .invalid) :
    ∃ u, cs = u ++ (w ++ v) ∧ finishNumber ok mayBeBig value (u ++ w) = (t, w) ∧
      (mayBeBig = true → cs.head? = some 'n' → u ≠ []) := by
  unfold finishNumber at h
  split at h
  rename_i token rest hcut
  split at h
  · rename_i hok
    obtain ⟨rfl, rfl⟩ := Prod.mk.inj h
    obtain ⟨hok, hnext⟩ := Bool.and_eq_true_iff.1 hok
    have hnext := head?_any_of_append (Bool.not_eq_true' _ ▸ hnext)
    split at hcut
    · rename_i rest
      obtain ⟨rfl, rfl⟩ := Prod.mk.inj hcut
      refine ⟨['n'], rfl, ?_, fun _ _ => List.cons_ne_nil _ _⟩
      simp [finishNumber, hok, hnext]
    · rename_i hno
      obtain ⟨rfl, rfl⟩ := Prod.mk.inj hcut
      have hno' : ∀ ds, mayBeBig = true → w = 'n' :: ds → False := fun ds hbig hds =>
        hno (ds ++ v) hbig (by rw [hds, List.cons_append])
      refine ⟨[], rfl, ?_, fun hbig hn => ?_⟩
      · rw [List.nil_append, finishNumber_number hno', hok, hnext]
        rfl
      · obtain ⟨ds, hds⟩ := List.head?_eq_some_iff.1 hn
        exact (hno ds hbig hds).elim
  · exact absurd (congrArg Prod.fst h).symm ht

theorem readRadix_cut {radix : Nat} {letter : Char} {t : Token}
    (h : readRadix radix letter cs = (t, w ++ v)) (ht : t ≠ .invalid) :
    ∃ u, cs = u ++ (w ++ v) ∧ readRadix radix letter (u ++ w) = (t, w) := by
  unfold readRadix at h
  rcases hcut : cutDigits (Number.digitValue · < radix) letter cs with ⟨digits, ok, rest⟩
  rw [hcut] at h
  obtain ⟨x, rfl, hx, -⟩ := finishNumber_cut h ht
  obtain ⟨hcs, hy⟩ := cutDigits_cut (w := x ++ w) (v := v) (by rw [hcut, List.append_assoc])
  generalize (cs.takeWhile fun c => _) = y at hcs hy
  refine ⟨y ++ x, by rw [hcs]; simp, ?_⟩
  rw [readRadix, List.append_assoc, hy]
  exact hx

theorem splitSign_cut {negative : Bool} (h : Number.splitSign cs = (negative, w ++ v)) :
    ∃ u, cs = u ++ (w ++ v) ∧ Number.splitSign (u ++ w) = (negative, w) := by
  unfold Number.splitSign at h
  split at h
  · obtain ⟨rfl, rfl⟩ := Prod.mk.inj h
    exact ⟨['-'], rfl, rfl⟩
  · obtain ⟨rfl, rfl⟩ := Prod.mk.inj h
    exact ⟨['+'], rfl, rfl⟩
  · rename_i hminus hplus
    obtain ⟨rfl, rfl⟩ := Prod.mk.inj h
    refine ⟨[], rfl, Number.splitSign_unsigned (fun ds hds => hminus (ds ++ v) ?_)
      fun ds hds => hplus (ds ++ v) ?_⟩
    · rw [← List.nil_append w, hds, List.cons_append]
    · rw [← List.nil_append w, hds, List.cons_append]

theorem cutExponent_cut {n : Int} {ok : Bool} (h : cutExponent cs = (n, ok, w ++ v)) :
    ∃ u, cs = u ++ (w ++ v) ∧ cutExponent (u ++ w) = (n, ok, w) := by
  unfold cutExponent at h
  split at h
  · rename_i c cs
    split at h
    · rename_i hc
      rcases hsign : Number.splitSign cs with ⟨negative, behind⟩
      rw [hsign] at h
      dsimp only at h
      rcases hdigits : cutDigits Char.isDigit (if behind.length < cs.length then '+' else c) behind
        with ⟨digits, okDigits, rest⟩
      rw [hdigits] at h
      simp only [Prod.mk.injEq] at h
      obtain ⟨hn, rfl, rfl⟩ := h
      obtain ⟨hbehind, hy⟩ := cutDigits_cut hdigits
      generalize (behind.takeWhile fun c => c.isDigit || c == '_') = y at hbehind hy
      subst hbehind
      obtain ⟨x, rfl, hx⟩ := splitSign_cut (w := y ++ w) (v := v) (by rw [hsign, List.append_assoc])
      refine ⟨c :: x ++ y, by simp, ?_⟩
      have hlen : ((y ++ w).length < (x ++ (y ++ w)).length) =
          ((y ++ (w ++ v)).length < (x ++ (y ++ w ++ v)).length) := by simp
      rw [List.append_assoc, List.cons_append, cutExponent, if_pos hc, hx]
      simp only [hlen, hy, hn]
    · simp only [Prod.mk.injEq] at h
      obtain ⟨rfl, rfl, hcs⟩ := h
      refine ⟨[], hcs, ?_⟩
      cases w with
      | nil => rfl
      | cons d w =>
        obtain ⟨rfl, -⟩ := List.cons.inj hcs
        rw [List.nil_append, cutExponent, if_neg ‹_›]
  · simp only [Prod.mk.injEq] at h
    obtain ⟨rfl, rfl, hnil⟩ := h
    obtain ⟨rfl, rfl⟩ := List.append_eq_nil_iff.1 hnil.symm
    exact ⟨[], rfl, rfl⟩

/-- the digits behind a point, if there is one -/
def cutFraction (cs : List Char) : List Char × Bool × List Char :=
  match cs with
  | '.' :: rest =>
    if rest.head?.any (fun c => c.isDigit || c == '_') then cutDigits Char.isDigit '.' rest
    else ([], true, rest)
  | _ => ([], true, cs)

theorem cutFraction_cut {digits : List Char} {ok : Bool}
    (h : cutFraction cs = (digits, ok, w ++ v)) :
    ∃ u, cs = u ++ (w ++ v) ∧ cutFraction (u ++ w) = (digits, ok, w) := by
  unfold cutFraction at h
  split at h
  · rename_i rest
    split at h
    · rename_i hdigit
      obtain ⟨hrest, hy⟩ := cutDigits_cut h
      obtain ⟨c, rest, rfl⟩ : ∃ c cs, rest = c :: cs := List.exists_cons_of_ne_nil <| by
        rintro rfl
        cases hdigit
      have hc : (c.isDigit || c == '_') = true := hdigit
      rw [List.takeWhile_cons, hc, if_pos rfl] at hrest hy
      refine ⟨'.' :: c :: rest.takeWhile fun c => c.isDigit || c == '_', by
        rw [List.cons_append, ← hrest], ?_⟩
      rw [List.cons_append, cutFraction, List.cons_append, List.head?_cons, Option.any_some,
        if_pos hc]
      exact hy
    · rename_i hdigit
      simp only [Prod.mk.injEq] at h
      obtain ⟨rfl, rfl, rfl⟩ := h
      refine ⟨['.'], rfl, ?_⟩
      show (if w.head?.any (fun c => c.isDigit || c == '_') then _ else ([], true, w)) = _
      rw [head?_any_of_append (Bool.eq_false_iff.2 hdigit)]
      rfl
  · rename_i hpoint
    simp only [Prod.mk.injEq] at h
    obtain ⟨rfl, rfl, rfl⟩ := h
    refine ⟨[], rfl, ?_⟩
    rw [List.nil_append, cutFraction]
    intro ds hds
    exact hpoint (ds ++ v) (by rw [hds, List.cons_append])

theorem finishDecimal_cut {ok : Bool} {whole : List Char} {t : Token}
    (h : finishDecimal ok whole cs = (t, w ++ v)) (ht : t ≠ .invalid) :
    ∃ u, cs = u ++ (w ++ v) ∧ finishDecimal ok whole (u ++ w) = (t, w) := by
  have heq : ∀ cs, finishDecimal ok whole cs =
      finishNumber (ok && (cutFraction cs).2.1 && (cutExponent (cutFraction cs).2.2).2.1) false
        (Binary64.ofDecimal false (Number.digitsValue 10 (whole ++ (cutFraction cs).1))
          ((cutExponent (cutFraction cs).2.2).1 - (cutFraction cs).1.length))
        (cutExponent (cutFraction cs).2.2).2.2 := fun cs => rfl
  rw [heq] at h
  rcases hfraction : cutFraction cs with ⟨fraction, okFraction, behind⟩
  rw [hfraction] at h
  dsimp only at h
  rcases hexponent : cutExponent behind with ⟨e, okExponent, rest⟩
  rw [hexponent] at h
  dsimp only at h
  obtain ⟨x, rfl, hx, -⟩ := finishNumber_cut h ht
  obtain ⟨y, rfl, hy⟩ := cutExponent_cut (w := x ++ w) (v := v) (by rw [hexponent, List.append_assoc])
  have hbehind : cutFraction cs = (fraction, okFraction, (y ++ (x ++ w)) ++ v) := by
    rw [hfraction]
    simp only [List.append_assoc]
  obtain ⟨z, rfl, hz⟩ := cutFraction_cut hbehind
  refine ⟨z ++ (y ++ x), by simp, ?_⟩
  rw [List.append_assoc, List.append_assoc, heq, hz]
  dsimp only
  rw [hy]
  exact hx

/-- a number by the digits that it begins with and what stands behind them -/
theorem readDecimal_append {ok : Bool} {whole y r : List Char}
    (hr : cutDigits Char.isDigit '0' (y ++ r) = (whole, ok, r)) :
    readDecimal (y ++ r) =
      if r.head? == some 'n' then finishNumber ok true .zero r
      else if whole.head? == some '0' && 1 < y.length && whole.all isOctal then
        finishNumber ok false (Binary64.ofNat (Number.digitsValue 8 whole)) r
      else finishDecimal ok whole r := by
  rw [readDecimal, hr]
  dsimp only
  rw [List.length_append, Nat.add_sub_cancel]

theorem head?_beq_of_append {c : Char} (h : ((w ++ v).head? == some c) ≠ true) :
    (w.head? == some c) = false := by
  cases w with
  | nil => rfl
  | cons d w => exact Bool.eq_false_iff.2 h

theorem readDecimal_cut {t : Token} (h : readDecimal cs = (t, w ++ v)) (ht : t ≠ .invalid) :
    ∃ u, cs = u ++ (w ++ v) ∧ readDecimal (u ++ w) = (t, w) := by
  unfold readDecimal at h
  rcases hcut : cutDigits Char.isDigit '0' cs with ⟨whole, ok, rest⟩
  rw [hcut] at h
  dsimp only at h
  -- what the digits are read from, up to what is read behind them
  have hdigits : ∀ {x : List Char}, rest = x ++ (w ++ v) → ∃ y, cs = y ++ (x ++ (w ++ v)) ∧
      cutDigits Char.isDigit '0' (y ++ (x ++ w)) = (whole, ok, x ++ w) := by
    rintro x rfl
    obtain ⟨hcs, hy⟩ := cutDigits_cut (w := x ++ w) (v := v) (by rw [hcut, List.append_assoc])
    exact ⟨_, by rw [← List.append_assoc x w v]; exact hcs, hy⟩
  split at h
  · rename_i hn
    obtain ⟨x, rfl, hx, hne⟩ := finishNumber_cut h ht
    obtain ⟨y, rfl, hy⟩ := hdigits rfl
    have hxne := hne rfl (eq_of_beq hn)
    have hn' : ((x ++ w).head? == some 'n') = true := by
      rw [List.head?_append_of_ne_nil _ hxne] at hn ⊢
      exact hn
    refine ⟨y ++ x, by rw [List.append_assoc], ?_⟩
    rw [List.append_assoc, readDecimal_append hy, if_pos hn', hx]
  · rename_i hn
    have hno : ∀ {x : List Char}, rest = x ++ (w ++ v) → ((x ++ w).head? == some 'n') = false := by
      rintro x rfl
      exact head?_beq_of_append (v := v) (by rwa [List.append_assoc])
    split at h
    · rename_i hoctal
      obtain ⟨x, rfl, hx, -⟩ := finishNumber_cut h ht
      obtain ⟨y, rfl, hy⟩ := hdigits rfl
      rw [List.length_append, Nat.add_sub_cancel] at hoctal
      refine ⟨y ++ x, by rw [List.append_assoc], ?_⟩
      rw [List.append_assoc, readDecimal_append hy, hno rfl, if_neg Bool.false_ne_true, if_pos hoctal,
        hx]
    · rename_i hoctal
      obtain ⟨x, rfl, hx⟩ := finishDecimal_cut h ht
      obtain ⟨y, rfl, hy⟩ := hdigits rfl
      rw [List.length_append, Nat.add_sub_cancel] at hoctal
      refine ⟨y ++ x, by rw [List.append_assoc], ?_⟩
      rw [List.append_assoc, readDecimal_append hy, hno rfl, if_neg Bool.false_ne_true, if_neg hoctal,
        hx]

theorem readNumber_cut {t : Token} (h : readNumber cs = (t, w ++ v)) (ht : t ≠ .invalid) :
    ∃ u, cs = u ++ (w ++ v) ∧ readNumber (u ++ w) = (t, w) := by
  have hradix : ∀ {radix : Nat} {letter : Char} {cs : List Char} (p : List Char),
      (∀ r, readNumber (p ++ r) = readRadix radix letter r) →
      readRadix radix letter cs = (t, w ++ v) →
      ∃ u, p ++ cs = u ++ (w ++ v) ∧ readNumber (u ++ w) = (t, w) := by
    intro radix letter cs p hp hcut
    obtain ⟨u, rfl, hu⟩ := readRadix_cut hcut ht
    exact ⟨p ++ u, by rw [List.append_assoc], by rw [List.append_assoc, hp, hu]⟩
  unfold readNumber at h
  split at h
  · exact hradix ['0', 'x'] (fun _ => rfl) h
  · exact hradix ['0', 'X'] (fun _ => rfl) h
  · exact hradix ['0', 'o'] (fun _ => rfl) h
  · exact hradix ['0', 'O'] (fun _ => rfl) h
  · exact hradix ['0', 'b'] (fun _ => rfl) h
  · exact hradix ['0', 'B'] (fun _ => rfl) h
  · rename_i cs
    obtain ⟨u, hcs, hu⟩ := finishDecimal_cut h ht
    have hlen := (finishDecimal_point_suffix true [] cs).length_le
    cases u with
    | nil =>
      rw [h, ← List.nil_append (w ++ v), ← hcs] at hlen
      exact absurd hlen (by simp)
    | cons c u =>
      obtain ⟨rfl, -⟩ := List.cons.inj hcs
      exact ⟨'.' :: u, hcs, hu⟩
  · rename_i hx hX ho hO hb hB hpoint
    obtain ⟨u, rfl, hu⟩ := readDecimal_cut h ht
    have hpart : ∀ {p ds : List Char}, u ++ w = p ++ ds → u ++ (w ++ v) = p ++ (ds ++ v) :=
      fun hds => by rw [← List.append_assoc, hds, List.append_assoc]
    refine ⟨u, rfl, (readNumber_decimal (fun ds c hc hds => ?_) fun ds hds => ?_).trans hu⟩
    · have hds := hpart (p := ['0', c]) hds
      simp only [List.mem_cons, List.not_mem_nil, or_false] at hc
      obtain rfl | rfl | rfl | rfl | rfl | rfl := hc
      · exact hx _ hds
      · exact hX _ hds
      · exact ho _ hds
      · exact hO _ hds
      · exact hb _ hds
      · exact hB _ hds
    · exact hpoint _ (hpart (p := ['.']) hds)

/-! ### Tokens -/

/-- The first punctuator of the list that a text begins with is found as well if the text is cut off
behind it. -/
theorem punctuator_cut {p : List Char × Token}
    (h : (Token.punctuators.find? fun p => p.1.isPrefixOf cs) = some p)
    (hcs : cs.drop p.1.length = w ++ v) :
    cs = p.1 ++ (w ++ v) ∧
      (Token.punctuators.find? fun q => q.1.isPrefixOf (p.1 ++ w)) = some p := by
  obtain ⟨hp, before, behind, hlist, hbefore⟩ := List.find?_eq_some_iff_append.1 h
  obtain ⟨rest, rfl⟩ := List.isPrefixOf_iff_prefix.1 hp
  rw [List.drop_left] at hcs
  subst hcs
  refine ⟨rfl, List.find?_eq_some_iff_append.2 ⟨?_, before, behind, hlist, fun q hq => ?_⟩⟩
  · exact List.isPrefixOf_iff_prefix.2 (List.prefix_append _ _)
  · have hno := hbefore q hq
    rw [Bool.not_eq_true', Bool.eq_false_iff, ne_eq, List.isPrefixOf_iff_prefix] at hno ⊢
    refine fun hq => hno (hq.trans ?_)
    rw [← List.append_assoc]
    exact List.prefix_append _ _

/-- A fraction that begins with a digit has this digit. -/
theorem readNumber_point_suffix {d : Char} (hd : d.isDigit = true) (cs : List Char) :
    (readNumber ('.' :: d :: cs)).2 <:+ cs := by
  refine (finishNumber_suffix _ _ _ _).trans ((cutExponent_suffix _).trans ?_)
  have hrun : (d.isDigit || d == '_') = true := by rw [hd, Bool.true_or]
  show (if (some d).any (fun c => c.isDigit || c == '_') then cutDigits Char.isDigit '.' (d :: cs)
    else ([], true, d :: cs)).2.2 <:+ cs
  rw [Option.any_some, if_pos hrun, cutDigits]
  dsimp only
  rw [List.dropWhile_cons, if_pos hrun]
  exact List.dropWhile_suffix _

/-- A text that is longer than what is left of it was read from its first character on. -/
theorem exists_cons_of_length_lt {c : Char} {u : List Char} (hcs : c :: cs = u ++ (w ++ v))
    (hlen : (w ++ v).length < (c :: cs).length) : ∃ x, u = c :: x ∧ cs = x ++ (w ++ v) := by
  cases u with
  | nil =>
    rw [hcs] at hlen
    exact absurd hlen (lt_irrefl _)
  | cons d u =>
    simp only [List.cons_append, List.cons.injEq] at hcs
    exact ⟨u, by rw [hcs.1], hcs.2⟩

/-- What begins no number begins none in a shorter text. -/
theorem not_opensNumber_cut {c : Char} {x : List Char}
    (hno : ¬ (c.isDigit || c == '.' && (x ++ (w ++ v)).head?.any Char.isDigit) = true) :
    ¬ (c.isDigit || c == '.' && (x ++ w).head?.any Char.isDigit) = true := by
  intro hyes
  obtain hc | hpoint := Bool.or_eq_true_iff.1 hyes
  · exact hno (by rw [hc, Bool.true_or])
  · obtain ⟨hc, hdigit⟩ := Bool.and_eq_true_iff.1 hpoint
    refine hno (Bool.or_eq_true_iff.2 (.inr (Bool.and_eq_true_iff.2 ⟨hc, ?_⟩)))
    rw [← Bool.not_eq_false]
    intro hfalse
    rw [← List.append_assoc] at hfalse
    rw [head?_any_of_append hfalse] at hdigit
    cases hdigit

/-- What begins a number that ends at the cut begins one in the shorter text, too. -/
theorem opensNumber_cut {c : Char} {x : List Char} {t : Token}
    (h : readNumber (c :: (x ++ (w ++ v))) = (t, w ++ v))
    (hyes : (c.isDigit || c == '.' && (x ++ (w ++ v)).head?.any Char.isDigit) = true) :
    (c.isDigit || c == '.' && (x ++ w).head?.any Char.isDigit) = true := by
  obtain hc | hpoint := Bool.or_eq_true_iff.1 hyes
  · rw [hc, Bool.true_or]
  · -- the digit behind the point belongs to the number
    obtain ⟨hc, hdigit⟩ := Bool.and_eq_true_iff.1 hpoint
    obtain rfl : c = '.' := eq_of_beq hc
    obtain ⟨d, hd, hdd⟩ := (Option.any_eq_true _ _).1 hdigit
    obtain ⟨ds, hx⟩ := List.head?_eq_some_iff.1 hd
    rw [hx] at h
    have hlen := (readNumber_point_suffix hdd ds).length_le
    rw [h] at hlen
    obtain ⟨y, rfl, -⟩ := exists_cons_of_length_lt hx.symm (Nat.lt_succ_of_le hlen)
    simp [hdd]

theorem readToken_cut {t : Token} (h : readToken cs = some (t, w ++ v)) (ht : t ≠ .invalid) :
    ∃ u, cs = u ++ (w ++ v) ∧ readToken (u ++ w) = some (t, w) := by
  revert h
  fun_cases readToken cs with
  | case1 => rintro ⟨⟩
  | case2 cs =>
    intro h
    obtain ⟨u, rfl, hu⟩ := readString_cut (Option.some.inj h) ht
    exact ⟨'"' :: u, rfl, congrArg some hu⟩
  | case3 cs =>
    intro h
    obtain ⟨u, rfl, hu⟩ := readString_cut (Option.some.inj h) ht
    exact ⟨'\'' :: u, rfl, congrArg some hu⟩
  | case4 cs =>
    rintro ⟨⟩
    exact ⟨['\x60'], rfl, rfl⟩
  | case5 c cs hdouble hsingle hquote hnumber =>
    intro h
    have h := Option.some.inj h
    obtain ⟨u, hcs, hu⟩ := readNumber_cut h ht
    have hlen := (readNumber_tail_suffix hnumber).length_le
    rw [h] at hlen
    obtain ⟨x, rfl, rfl⟩ := exists_cons_of_length_lt hcs (Nat.lt_succ_of_le hlen)
    refine ⟨c :: x, hcs, ?_⟩
    rw [List.cons_append, readToken_cons hdouble hsingle hquote,
      if_pos (opensNumber_cut h hnumber), ← List.cons_append, hu]
  | case6 c cs hdouble hsingle hquote hnumber hword =>
    intro h
    have h := Option.some.inj h
    obtain ⟨u, hcs, hu⟩ := readWord_cut h ht
    have hlen : (readWord (c :: cs)).2.length < (c :: cs).length := readWord_length hword
    rw [h] at hlen
    obtain ⟨x, rfl, rfl⟩ := exists_cons_of_length_lt hcs hlen
    refine ⟨c :: x, hcs, ?_⟩
    rw [List.cons_append, readToken_cons hdouble hsingle hquote,
      if_neg (not_opensNumber_cut hnumber), if_pos hword, ← List.cons_append, hu]
  | case7 c cs hdouble hsingle hquote hnumber hword p hp =>
    intro h
    obtain ⟨rfl, hrest⟩ := Prod.mk.inj (Option.some.inj h)
    obtain ⟨hcs, hfind⟩ := punctuator_cut hp hrest
    have hne := (punctuators_plain p (List.mem_of_find?_eq_some hp)).1
    have hpos : 0 < p.1.length := List.length_pos_iff.2 hne
    have hlen : (w ++ v).length < (c :: cs).length := by
      have happend : (p.1 ++ (w ++ v)).length = p.1.length + (w ++ v).length := List.length_append
      rw [hcs, happend]
      omega
    obtain ⟨x, hx, rfl⟩ := exists_cons_of_length_lt hcs hlen
    have hdrop : (p.1 ++ w).drop p.1.length = w := List.drop_left
    refine ⟨p.1, hcs, ?_⟩
    have hlist : p.1 ++ w = c :: (x ++ w) := by rw [hx, List.cons_append]
    rw [hlist] at hfind hdrop ⊢
    rw [readToken_cons hdouble hsingle hquote,
      if_neg (not_opensNumber_cut hnumber), if_neg hword, hfind]
    dsimp only
    rw [hdrop]
  | case8 c cs =>
    rintro ⟨⟩
    exact absurd rfl ht

/-- The text of a template goes on up to a backquote or a substitution; if it ends where a backquote
stands, the text behind it may be cut off. -/
theorem readTemplateToken_cut {previous : Option Token} {t : Token}
    (h : readTemplateToken previous cs = (t, w ++ v)) (ht : t ≠ .invalid) (hs : t ≠ .substitution)
    (hw : t ≠ .backquote → w.head? = some '\x60') :
    ∃ u, cs = u ++ (w ++ v) ∧ readTemplateToken previous (u ++ w) = (t, w) := by
  unfold readTemplateToken at h
  split at h
  · obtain ⟨rfl, rfl⟩ := Prod.mk.inj h
    exact ⟨['\x60'], rfl, rfl⟩
  · exact absurd (congrArg Prod.fst h).symm hs
  · rename_i hquote hsub
    unfold readChunk at h
    split at h
    · rename_i body rest hcut
      obtain ⟨rfl, rfl⟩ := Prod.mk.inj h
      obtain ⟨w, rfl⟩ := List.head?_eq_some_iff.1 (hw nofun)
      obtain ⟨u, rfl, hu⟩ := cutChunk_cut hcut
      have hpart : ∀ {c : Char} {ds : List Char}, u ++ '\x60' :: w = c :: ds →
          u ++ ('\x60' :: w ++ v) = c :: (ds ++ v) := fun hds => by
        rw [← List.append_assoc, hds, List.cons_append]
      refine ⟨u, rfl, ?_⟩
      rw [readTemplateToken_text (fun text rest hp hcs => hquote text _ hp (hpart hcs))
        (fun text rest hp hcs => hsub text _ hp (hpart hcs)), readChunk, hu]
    · exact absurd (congrArg Prod.fst h).symm ht

/-! ### Gaps -/

/-- The gap of the form `u` in front of a text ends there, wherever it begins: with the line ended or
not, and with a mark as many bytes behind its beginning. -/
def Gap.Skips (gap : Gap) (newline : Bool) (u r : List Char) (ended : Bool) (mark : Option Nat) :
    Prop :=
  ∀ o m, skipGap gap (u ++ r) o newline m =
    ⟨r, o + byteLength u, ended, true, m.or (mark.map (o + ·))⟩

theorem Gap.Skips.behind {gap gap' : Gap} {newline newline' ended : Bool} {u r : List Char}
    {mark : Option Nat} (h : gap'.Skips newline' u r ended mark) (p : List Char)
    (hstep : ∀ o m, skipGap gap (p ++ (u ++ r)) o newline m =
      skipGap gap' (u ++ r) (o + byteLength p) newline' m) :
    gap.Skips newline (p ++ u) r ended (mark.map (byteLength p + ·)) := by
  intro o m
  rw [List.append_assoc, hstep, h, byteLength_append, Nat.add_assoc, Option.map_map]
  simp only [Function.comp_def, Nat.add_assoc]

theorem Gap.Skips.behind_mark {gap gap' : Gap} {newline newline' ended : Bool} {u r : List Char}
    {mark : Option Nat} (h : gap'.Skips newline' u r ended mark) (p : List Char)
    (hstep : ∀ o m, skipGap gap (p ++ (u ++ r)) o newline m =
      skipGap gap' (u ++ r) (o + byteLength p) newline' (m.or (some o))) :
    gap.Skips newline (p ++ u) r ended (some 0) := by
  intro o m
  rw [List.append_assoc, hstep, h, byteLength_append, Nat.add_assoc]
  cases m <;> rfl

/-- a text that begins with no blank and no comment; behind the end of a line an arrow `-->` begins
one too -/
structure Solid (newline : Bool) (c : Char) (cs : List Char) : Prop where
  slashes : ∀ ds, c = '/' → cs = '/' :: ds → False
  star : ∀ ds, c = '/' → cs = '*' :: ds → False
  opening : ∀ ds, c = '<' → cs = '!' :: '-' :: '-' :: ds → False
  arrow : ∀ ds, c = '-' → cs = '-' :: '>' :: ds → newline = false
  lineEnd : isLineEnd c = false
  blank : (Text.isBlank c || c == '\ufeff') = false

theorem Solid.of_append {newline : Bool} {c : Char} (h : Solid newline c (w ++ v)) :
    Solid newline c w where
  slashes ds hc hds := h.slashes (ds ++ v) hc (by rw [hds]; rfl)
  star ds hc hds := h.star (ds ++ v) hc (by rw [hds]; rfl)
  opening ds hc hds := h.opening (ds ++ v) hc (by rw [hds]; rfl)
  arrow ds hc hds := h.arrow (ds ++ v) hc (by rw [hds]; rfl)
  lineEnd := h.lineEnd
  blank := h.blank

theorem Solid.skips {newline : Bool} {c : Char} (h : Solid newline c cs) :
    Gap.code.Skips newline [] (c :: cs) newline none := by
  intro o m
  rw [List.nil_append, Option.map_none, Option.or_none]
  by_cases harrow : ∃ ds, c = '-' ∧ cs = '-' :: '>' :: ds
  · obtain ⟨ds, rfl, rfl⟩ := harrow
    rw [skipGap_arrow, h.arrow ds rfl rfl]
    rfl
  · rw [skipGap_code _ _ _ h.slashes h.star h.opening fun ds hc hds => harrow ⟨ds, hc, hds⟩,
      h.lineEnd, h.blank]
    rfl

/-- how the gap in front of the text `cs` ends, of which it leaves `w ++ v` -/
def Gap.Ends (gap : Gap) (newline : Bool) (cs w v : List Char) : Prop :=
  ∃ u ended mark, cs = u ++ (w ++ v) ∧
    (∀ r, r = w ∨ r = w ++ v → gap.Skips newline u r ended mark) ∧
    ∃ c x, w = c :: x ∧ Solid ended c (x ++ v)

theorem Gap.Ends.behind {gap gap' : Gap} {newline newline' : Bool}
    (h : gap'.Ends newline' cs w v) (p : List Char)
    (hstep : ∀ r, r <+: cs → ∀ o m, skipGap gap (p ++ r) o newline m =
      skipGap gap' r (o + byteLength p) newline' m) :
    gap.Ends newline (p ++ cs) w v := by
  obtain ⟨u, ended, mark, rfl, hskips, hsolid⟩ := h
  refine ⟨p ++ u, ended, mark.map (byteLength p + ·), (List.append_assoc _ _ _).symm,
    fun r hr => ?_, hsolid⟩
  refine (hskips r hr).behind p fun o m => hstep _ ?_ o m
  obtain rfl | rfl := hr
  · rw [← List.append_assoc]
    exact List.prefix_append _ _
  · exact List.prefix_refl _

theorem Gap.Ends.behind_mark {gap gap' : Gap} {newline newline' : Bool}
    (h : gap'.Ends newline' cs w v) (p : List Char)
    (hstep : ∀ r o m, skipGap gap (p ++ r) o newline m =
      skipGap gap' r (o + byteLength p) newline' (m.or (some o))) :
    gap.Ends newline (p ++ cs) w v := by
  obtain ⟨u, ended, mark, rfl, hskips, hsolid⟩ := h
  refine ⟨p ++ u, ended, some 0, (List.append_assoc _ _ _).symm, fun r hr => ?_, hsolid⟩
  exact (hskips r hr).behind_mark p fun o m => hstep _ o m

theorem Solid.ends {newline : Bool} {c : Char} (h : Solid newline c cs) (hcs : c :: cs = w ++ v)
    (hw : w ≠ []) : Gap.code.Ends newline (c :: cs) w v := by
  obtain ⟨d, x, rfl⟩ := List.exists_cons_of_ne_nil hw
  obtain ⟨rfl, rfl⟩ := List.cons.inj hcs
  refine ⟨[], newline, none, rfl, ?_, c, x, rfl, h⟩
  rintro r (rfl | rfl)
  · exact h.of_append.skips
  · exact h.skips

/-- What no text `cs` goes on with, its beginning `r` does not go on with. -/
theorem absent_of_begins {r cs : List Char} (hr : r <+: cs) {P : Prop} (p : List Char)
    (h : ∀ ds, P → cs = p ++ ds → False) : ∀ ds, P → r = p ++ ds → False := by
  rintro ds hP rfl
  obtain ⟨t, rfl⟩ := hr
  exact h (ds ++ t) hP (List.append_assoc _ _ _)

/-- The gap in front of a part of a text ends where it does, whatever the text goes on with. -/
theorem skipGap_cut {gap : Gap} {o : Nat} {newline : Bool} {m : Option Nat}
    (h : (skipGap gap cs o newline m).chars = w ++ v) (hw : w ≠ []) : gap.Ends newline cs w v := by
  have hnil : ¬ [] = w ++ v := fun h => hw (List.append_eq_nil_iff.1 h.symm).1
  fun_induction skipGap gap cs o newline m with
  | case1 => exact absurd h hnil
  | case2 => exact absurd h hnil
  | case3 cs o newline m ih => exact (ih h).behind ['*', '/'] fun r _ o m => skipGap_blockEnd _ _ _
  | case4 c cs o newline m hno ih =>
    exact (ih h).behind [c] fun r hr o m =>
      skipGap_block _ _ _ (absent_of_begins hr ['/'] hno)
  | case5 c cs o newline m hc ih =>
    exact (ih h).behind [c] fun r _ o m => (skipGap_line _ _ _).trans (if_pos hc)
  | case6 c cs o newline m hc ih =>
    exact (ih h).behind [c] fun r _ o m => (skipGap_line _ _ _).trans (if_neg hc)
  | case7 cs o newline m ih => exact (ih h).behind ['/', '/'] fun r _ o m => skipGap_lineStart _ _ _
  | case8 cs o newline m ih => exact (ih h).behind ['/', '*'] fun r _ o m => skipGap_blockStart _ _ _
  | case9 cs o newline m ih =>
    exact (ih h).behind_mark ['<', '!', '-', '-'] fun r o m => skipGap_markup _ _ _ _
  | case10 cs o m ih =>
    exact (ih h).behind_mark ['-', '-', '>'] fun r o m => (skipGap_arrow _ _ _ _).trans (if_pos rfl)
  | case11 cs o newline m hnewline =>
    refine Solid.ends ⟨?_, ?_, ?_, fun _ _ _ => ?_, rfl, by decide⟩ h hw
    · rintro _ ⟨⟩
    · rintro _ ⟨⟩
    · rintro _ ⟨⟩
    · exact Bool.eq_false_iff.2 hnewline
  | case12 c cs o newline m hslash hstar hopening harrow hc ih =>
    exact (ih h).behind [c] fun r hr o m =>
      (skipGap_code _ _ _ (absent_of_begins hr ['/'] hslash)
        (absent_of_begins hr ['*'] hstar) (absent_of_begins hr ['!', '-', '-'] hopening)
        (absent_of_begins hr ['-', '>'] harrow)).trans (if_pos hc)
  | case13 c cs o newline m hslash hstar hopening harrow hc hblank ih =>
    exact (ih h).behind [c] fun r hr o m =>
      (skipGap_code _ _ _ (absent_of_begins hr ['/'] hslash)
        (absent_of_begins hr ['*'] hstar) (absent_of_begins hr ['!', '-', '-'] hopening)
        (absent_of_begins hr ['-', '>'] harrow)).trans ((if_neg hc).trans (if_pos hblank))
  | case14 c cs o newline m hslash hstar hopening harrow hc hblank =>
    refine Solid.ends ⟨hslash, hstar, hopening, fun ds h h' => (harrow ds h h').elim, ?_, ?_⟩ h hw
    · exact Bool.eq_false_iff.2 hc
    · exact Bool.eq_false_iff.2 hblank

/-! ### Beginnings -/

/-- where what stands behind a gap begins: at the first comment of the form `<!--` or `-->`, or else
at the token -/
def GapEnd.start (e : GapEnd) : Nat := e.mark.getD e.offset

/-- The gap `e` ends where one does that begins where `e` counts from, whether a line ended in between
or not. -/
structure GapEnd.Restarts (e : GapEnd) (cs : List Char) (o : Nat) (r : List Char) : Prop where
  cut : ∃ u, cs = u ++ r ∧ e.start = o + byteLength u
  same : ∃ b, skipGap .code r e.start true none = { e with newline := b }
  unmarked : r.head? ≠ some '\ufeff'

theorem GapEnd.Restarts.behind {e : GapEnd} {o o' : Nat} {r : List Char} (h : e.Restarts cs o' r)
    (p : List Char) (ho : o' = o + byteLength p) : e.Restarts (p ++ cs) o r where
  cut := by
    obtain ⟨u, hcs, hstart⟩ := h.cut
    refine ⟨p ++ u, by rw [hcs, List.append_assoc], ?_⟩
    rw [hstart, ho, byteLength_append, Nat.add_assoc]
  same := h.same
  unmarked := h.unmarked

theorem GapEnd.restarts_here {e : GapEnd} {o : Nat} (hstart : e.start = o) (b : Bool)
    (hsame : skipGap .code cs o true none = { e with newline := b })
    (hhead : cs.head? ≠ some '\ufeff') : e.Restarts cs o cs :=
  ⟨⟨[], rfl, hstart⟩, ⟨b, hstart ▸ hsame⟩, hhead⟩

/-- Behind a comment of one line a line has ended, unless the text ends there. -/
theorem skipGap_lineComment_newline {o : Nat} {newline : Bool} {m : Option Nat} (newline' : Bool)
    (h : (skipGap .lineComment cs o newline m).chars ≠ []) :
    skipGap .lineComment cs o newline' m = skipGap .lineComment cs o newline m := by
  induction cs generalizing o with
  | nil => exact absurd rfl h
  | cons c cs ih =>
    rw [skipGap_line] at h ⊢
    rw [skipGap_line]
    by_cases hc : isLineEnd c
    · rw [if_pos hc, if_pos hc]
    · rw [if_neg hc] at h ⊢
      rw [if_neg hc]
      exact ih h

/-- The mark of the first comment stays. -/
theorem start_skipGap (gap : Gap) (cs : List Char) (o : Nat) (newline : Bool) (n : Nat) :
    (skipGap gap cs o newline (some n)).start = n := by
  suffices hmark : (skipGap gap cs o newline (some n)).mark = some n by
    rw [GapEnd.start, hmark, Option.getD_some]
  generalize hm : some n = mark
  fun_induction skipGap gap cs o newline mark with
  | case9 _ _ _ _ ih =>
    subst hm
    exact ih rfl
  | case10 _ _ _ ih =>
    subst hm
    exact ih rfl
  | case1 | case2 | case11 | case14 => rfl
  | case3 _ _ _ _ ih | case4 _ _ _ _ _ _ ih | case5 _ _ _ _ _ _ ih | case6 _ _ _ _ _ _ ih
  | case7 _ _ _ _ ih | case8 _ _ _ _ ih | case12 _ _ _ _ _ _ _ _ _ _ ih
  | case13 _ _ _ _ _ _ _ _ _ _ _ ih => exact ih hm

theorem skipGap_restarts {gap : Gap} {o : Nat} {newline : Bool}
    (hne : (skipGap gap cs o newline none).chars ≠ [])
    (harrow : ¬ ['-', '-', '>'] <+: (skipGap gap cs o newline none).chars) :
    ∃ r, (skipGap gap cs o newline none).Restarts cs o r := by
  generalize hm : (none : Option Nat) = mark at hne harrow ⊢
  fun_induction skipGap gap cs o newline mark with
  | case1 => exact absurd rfl hne
  | case2 => exact absurd rfl hne
  | case3 cs o newline m ih =>
    obtain ⟨r, hr⟩ := ih hm hne harrow
    exact ⟨r, hr.behind ['*', '/'] rfl⟩
  | case4 c cs o newline m _ ih =>
    obtain ⟨r, hr⟩ := ih hm hne harrow
    exact ⟨r, hr.behind [c] rfl⟩
  | case5 c cs o newline m _ ih =>
    obtain ⟨r, hr⟩ := ih hm hne harrow
    exact ⟨r, hr.behind [c] rfl⟩
  | case6 c cs o newline m _ ih =>
    obtain ⟨r, hr⟩ := ih hm hne harrow
    exact ⟨r, hr.behind [c] rfl⟩
  | case7 cs o newline m ih =>
    obtain ⟨r, hr⟩ := ih hm hne harrow
    exact ⟨r, hr.behind ['/', '/'] rfl⟩
  | case8 cs o newline m ih =>
    obtain ⟨r, hr⟩ := ih hm hne harrow
    exact ⟨r, hr.behind ['/', '*'] rfl⟩
  | case9 cs o newline m =>
    subst hm
    have hsame := (skipGap_markup o true none cs).trans (skipGap_lineComment_newline true hne)
    exact ⟨_, GapEnd.restarts_here (start_skipGap _ _ _ _ _) _ hsame (by simp)⟩
  | case10 cs o m =>
    subst hm
    have hsame := (skipGap_arrow o true none cs).trans (if_pos rfl)
    exact ⟨_, GapEnd.restarts_here (start_skipGap _ _ _ _ _) _ hsame (by simp)⟩
  | case11 cs o newline m hnewline => exact absurd ⟨cs, rfl⟩ harrow
  | case12 c cs o newline m _ _ _ _ _ ih =>
    obtain ⟨r, hr⟩ := ih hm hne harrow
    exact ⟨r, hr.behind [c] rfl⟩
  | case13 c cs o newline m _ _ _ _ _ _ ih =>
    obtain ⟨r, hr⟩ := ih hm hne harrow
    exact ⟨r, hr.behind [c] rfl⟩
  | case14 c cs o newline m hslash hstar hopening harrow' hc hblank =>
    subst hm
    have hsolid : Solid true c cs := ⟨hslash, hstar, hopening,
      fun ds h h' => (harrow' ds h h').elim, Bool.eq_false_iff.2 hc, Bool.eq_false_iff.2 hblank⟩
    refine ⟨_, GapEnd.restarts_here rfl true (hsolid.skips o none) ?_⟩
    rintro ⟨⟩
    exact hblank (by decide)

end PageQuery.Script
