/-!
Blank characters, as the Unicode property White_Space lists them, and texts without the blanks at
their two ends.
-/

namespace PageQuery.Text

/-- the character has the Unicode property White_Space -/
def isBlank (c : Char) : Bool :=
  let n := c.toNat
  (9 ≤ n && n ≤ 13) || n == 0x20 || n == 0x85 || n == 0xA0 || n == 0x1680 ||
    (0x2000 ≤ n && n ≤ 0x200A) || n == 0x2028 || n == 0x2029 || n == 0x202F || n == 0x205F ||
    n == 0x3000

/-- the characters without the blanks they end in -/
def dropBlanksEnd (cs : List Char) : List Char :=
  (cs.reverse.dropWhile isBlank).reverse

/-- the characters without the blanks at either end -/
def trimBlanks (cs : List Char) : List Char :=
  dropBlanksEnd (cs.dropWhile isBlank)

/-- the text without the blanks at either end -/
def trim (s : String) : String :=
  String.ofList (trimBlanks s.toList)

end PageQuery.Text
