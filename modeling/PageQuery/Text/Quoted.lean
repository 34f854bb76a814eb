/-!
String literals of the query language: between double quotes, a quote and a backslash follow a
backslash and a line feed is written as a backslash and the letter n.
-/

namespace PageQuery.Text

/-- the characters between the quotes -/
def escapeQuoted : List Char → List Char
  | [] => []
  | '"' :: cs => '\\' :: '"' :: escapeQuoted cs
  | '\\' :: cs => '\\' :: '\\' :: escapeQuoted cs
  | '\n' :: cs => '\\' :: 'n' :: escapeQuoted cs
  | c :: cs => c :: escapeQuoted cs

/-- the text as a string literal -/
def quote (s : String) : String :=
  String.ofList ('"' :: escapeQuoted s.toList ++ ['"'])

theorem toList_quote (s : String) :
    (quote s).toList = '"' :: (escapeQuoted s.toList ++ ['"']) := by
  rw [quote, String.toList_ofList, List.cons_append]

theorem lineFeed_not_mem_escapeQuoted (cs : List Char) : '\n' ∉ escapeQuoted cs := by
  fun_induction escapeQuoted cs with
  | case1 => simp
  | case2 cs ih => simpa using ih
  | case3 cs ih => simpa using ih
  | case4 cs ih => simpa using ih
  | case5 c cs _ _ hfeed ih => simpa using ⟨fun h => hfeed h.symm, ih⟩

end PageQuery.Text
