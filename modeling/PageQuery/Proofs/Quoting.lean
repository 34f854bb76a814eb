import Mathlib.Data.List.Infix
import PageQuery.Text.Quoted

/-!
# Texts in quotes

`scanQuoted` goes over a literal up to its closing quote and no further, whatever follows, and gives
the text that was quoted (`scanQuoted_quotedBody`).  So a literal tells its text, none begins with
another, and nothing in a text ends its literal: `quote_closed`.
-/

namespace PageQuery.Text

/-- reads on from an opening quote: the text of the literal and what follows its closing quote.
A backslash takes the next character with it; a line feed is the only one with a name of its own. -/
def scanQuoted : List Char → Option (List Char × List Char)
  | [] => none
  | '"' :: cs => some ([], cs)
  | '\\' :: 'n' :: cs => (scanQuoted cs).map fun r => ('\n' :: r.1, r.2)
  | '\\' :: c :: cs => (scanQuoted cs).map fun r => (c :: r.1, r.2)
  | '\\' :: [] => none
  | c :: cs => (scanQuoted cs).map fun r => (c :: r.1, r.2)

theorem scanQuoted_cons {c : Char} (hquote : c ≠ '"') (hslash : c ≠ '\\') (cs : List Char) :
    scanQuoted (c :: cs) = (scanQuoted cs).map fun r => (c :: r.1, r.2) := by
  rw [scanQuoted]
  · exact hquote
  · exact fun _ h _ => hslash h
  · exact fun _ _ h _ => hslash h
  · exact fun h _ => hslash h

/-- a text in quotes is read back, whatever follows it -/
theorem scanQuoted_escapeQuoted (cs rest : List Char) :
    scanQuoted (escapeQuoted cs ++ '"' :: rest) = some (cs, rest) := by
  fun_induction escapeQuoted cs with
  | case1 => rfl
  | case2 cs ih => simp [scanQuoted, ih]
  | case3 cs ih => simp [scanQuoted, ih]
  | case4 cs ih => simp [scanQuoted, ih]
  | case5 c cs hquote hslash _ ih =>
    rw [List.cons_append, scanQuoted_cons hquote hslash, ih]
    rfl

/-- what a literal holds behind its opening quote -/
def quotedBody (s : String) : List Char := escapeQuoted s.toList ++ ['"']

theorem scanQuoted_quotedBody (s : String) (rest : List Char) :
    scanQuoted (quotedBody s ++ rest) = some (s.toList, rest) := by
  rw [quotedBody, List.append_assoc]
  exact scanQuoted_escapeQuoted s.toList rest

/-- a literal is the beginning of no other one -/
theorem eq_of_quote_prefix {s t : String} (h : (quote s).toList <+: (quote t).toList) : s = t := by
  obtain ⟨rest, hrest⟩ := h
  have hbody : quotedBody s ++ rest = quotedBody t ++ [] := by
    rw [toList_quote, toList_quote] at hrest
    rw [List.append_nil]
    exact (List.cons.inj hrest).2
  have hscan := scanQuoted_quotedBody s rest
  rw [hbody, scanQuoted_quotedBody] at hscan
  exact String.toList_inj.1 (Prod.mk.inj (Option.some.inj hscan)).1.symm

theorem quote_injective {s t : String} (h : quote s = quote t) : s = t :=
  eq_of_quote_prefix (h ▸ List.prefix_rfl)

/-- **Literals are closed.**  Behind the opening quote of a literal, whatever follows it, the scan stops
at the closing quote and gives the text; so different texts have different literals, none of them the
beginning of another, and no literal holds a line feed. -/
theorem quote_closed :
    (∀ s : String, ∃ body, (quote s).toList = '"' :: (body ++ ['"']) ∧
      ∀ rest, scanQuoted (body ++ '"' :: rest) = some (s.toList, rest)) ∧
    (∀ s t, quote s = quote t → s = t) ∧
    (∀ s t, (quote s).toList <+: (quote t).toList → s = t) ∧
    ∀ s, '\n' ∉ (quote s).toList := by
  refine ⟨fun s => ⟨escapeQuoted s.toList, toList_quote s, scanQuoted_escapeQuoted s.toList⟩,
    fun s t => quote_injective, fun s t => eq_of_quote_prefix, fun s => ?_⟩
  rw [toList_quote]
  simpa using lineFeed_not_mem_escapeQuoted s.toList

end PageQuery.Text
