/-!
Escapes in the strings, templates and names of a script.

An escape that denotes a surrogate is not decoded: its source characters stay in the text.
-/

namespace PageQuery.Script

/-- the value of a hexadecimal digit -/
def hexDigit? (c : Char) : Option Nat :=
  if c.isDigit then some (c.toNat - '0'.toNat)
  else if 'a' ≤ c && c ≤ 'f' then some (c.toNat - 'a'.toNat + 10)
  else if 'A' ≤ c && c ≤ 'F' then some (c.toNat - 'A'.toNat + 10)
  else none

/-- the number that one hexadecimal digit or more write -/
def hexValue? (cs : List Char) : Option Nat :=
  if cs.isEmpty then none
  else cs.foldl (fun n c => n.bind fun m => (hexDigit? c).map (m * 16 + ·)) (some 0)

/-- the code point is a surrogate -/
def isSurrogate (n : Nat) : Bool := 0xD800 ≤ n && n < 0xE000

/-- the text of a code point written with these digits, `source` being the whole escape -/
def codePointText? (digits source : List Char) : Option (List Char) :=
  (hexValue? digits).bind fun n =>
    if isSurrogate n then some source
    else if n ≤ 0x10FFFF then some [Char.ofNat n]
    else none

/-- reads on behind a backslash and the letter u: the text of the escape and what follows it -/
def readUnicodeEscape : List Char → Option (List Char × List Char)
  | '\x7b' :: cs =>
    let digits := cs.takeWhile fun c => (hexDigit? c).isSome
    match cs.dropWhile fun c => (hexDigit? c).isSome with
    | '\x7d' :: rest =>
      (codePointText? digits ('\\' :: 'u' :: '\x7b' :: digits ++ ['\x7d'])).map fun t => (t, rest)
    | _ => none
  | a :: b :: c :: d :: rest =>
    (codePointText? [a, b, c, d] ['\\', 'u', a, b, c, d]).map fun t => (t, rest)
  | _ => none

theorem readUnicodeEscape_digits {a b c d : Char} (ha : a ≠ '\x7b') (rest : List Char) :
    readUnicodeEscape (a :: b :: c :: d :: rest) =
      (codePointText? [a, b, c, d] ['\\', 'u', a, b, c, d]).map fun t => (t, rest) := by
  rw [readUnicodeEscape]
  exact ha

/-- the character ends a line -/
def isLineEnd (c : Char) : Bool :=
  c == '\n' || c == '\r' || c == '\u2028' || c == '\u2029'

def isOctal (c : Char) : Bool := '0' ≤ c && c ≤ '7'

/-- reads on at an octal digit behind a backslash: up to three digits while the number stays below
256 -/
def readOctalEscape : List Char → Nat × List Char
  | a :: b :: c :: rest =>
    let va := a.toNat - '0'.toNat
    let vb := b.toNat - '0'.toNat
    let vc := c.toNat - '0'.toNat
    if !isOctal b then (va, b :: c :: rest)
    else if !isOctal c || 256 ≤ va * 64 + vb * 8 + vc then (va * 8 + vb, c :: rest)
    else (va * 64 + vb * 8 + vc, rest)
  | [a, b] =>
    let va := a.toNat - '0'.toNat
    if isOctal b then (va * 8 + (b.toNat - '0'.toNat), []) else (va, [b])
  | [a] => (a.toNat - '0'.toNat, [])
  | [] => (0, [])

/-- reads on behind a backslash: the text of the escape, nothing for a joined line, and what follows
it -/
def readEscape (inTemplate : Bool) : List Char → Option (List Char × List Char)
  | [] => none
  | 'n' :: cs => some (['\n'], cs)
  | 'r' :: cs => some (['\r'], cs)
  | 't' :: cs => some (['\t'], cs)
  | 'b' :: cs => some (['\x08'], cs)
  | 'v' :: cs => some (['\x0b'], cs)
  | 'f' :: cs => some (['\x0c'], cs)
  | '\r' :: '\n' :: cs => some ([], cs)
  | 'x' :: cs =>
    match cs with
    | a :: b :: rest => (codePointText? [a, b] []).map fun t => (t, rest)
    | _ => none
  | 'u' :: cs => readUnicodeEscape cs
  | c :: cs =>
    if isLineEnd c then some ([], cs)
    else if isOctal c then
      if c == '0' && !(cs.head?.any isOctal) then some (['\x00'], cs)
      else if inTemplate then none
      else
        let (n, rest) := readOctalEscape (c :: cs)
        some ([Char.ofNat n], rest)
    else some ([c], cs)

/-- the text that the characters of a literal stand for; in a template every line end that is not
escaped is a line feed -/
def unescape (inTemplate : Bool) : Nat → List Char → Option (List Char)
  | 0, _ => none
  | _ + 1, [] => some []
  | fuel + 1, '\\' :: cs => do
    let (text, rest) ← readEscape inTemplate cs
    (unescape inTemplate fuel rest).map (text ++ ·)
  | fuel + 1, '\r' :: '\n' :: cs =>
    if inTemplate then (unescape inTemplate fuel cs).map ('\n' :: ·)
    else (unescape inTemplate fuel cs).map ('\r' :: '\n' :: ·)
  | fuel + 1, c :: cs =>
    let d := if inTemplate && c == '\r' then '\n' else c
    (unescape inTemplate fuel cs).map (d :: ·)

/-- the text of a literal with this body -/
def literalText? (inTemplate : Bool) (body : List Char) : Option String :=
  (unescape inTemplate (body.length + 1) body).map String.ofList

end PageQuery.Script
