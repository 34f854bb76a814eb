import PageQuery.Script.Token
import PageQuery.Script.Escape
import PageQuery.Number.Numeral
import PageQuery.Text.Identifier

/-!
Where names, numbers, strings and templates end, and what they stand for.

Each reader gets the text from the literal's first character on and gives the token and what
follows it.
-/

namespace PageQuery.Script

open PageQuery.Text

/-! ### Strings, templates and regular expressions -/

/-- the characters up to a closing quote and what follows it; none if the line or the text ends
before -/
def cutString (quote : Char) : List Char → Option (List Char × List Char)
  | [] => none
  | '\\' :: '\r' :: '\n' :: cs => (cutString quote cs).map fun r => ('\\' :: '\r' :: '\n' :: r.1, r.2)
  | '\\' :: c :: cs => (cutString quote cs).map fun r => ('\\' :: c :: r.1, r.2)
  | c :: cs =>
    if c == quote then some ([], cs)
    else if c == '\n' || c == '\r' then none
    else (cutString quote cs).map fun r => (c :: r.1, r.2)

section

variable {quote c : Char} {cs : List Char}

theorem cutString_escape (hline : ∀ ds, c = '\r' → cs ≠ '\n' :: ds) :
    cutString quote ('\\' :: c :: cs) =
      (cutString quote cs).map fun r => ('\\' :: c :: r.1, r.2) := by
  rw [cutString]
  exact hline

theorem cutString_cons (hescape : ∀ d ds, c = '\\' → cs ≠ d :: ds) :
    cutString quote (c :: cs) =
      if c == quote then some ([], cs)
      else if c == '\n' || c == '\r' then none
      else (cutString quote cs).map fun r => (c :: r.1, r.2) := by
  rw [cutString]
  · exact fun ds => hescape '\r' ('\n' :: ds)
  · exact hescape

end

/-- what follows a string that is not closed: the rest from the end of its line on -/
def skipUnclosed : List Char → List Char
  | [] => []
  | '\\' :: '\r' :: '\n' :: cs => skipUnclosed cs
  | '\\' :: _ :: cs => skipUnclosed cs
  | c :: cs => if c == '\n' || c == '\r' then c :: cs else skipUnclosed cs

/-- a string behind its opening quote -/
def readString (quote : Char) (cs : List Char) : Token × List Char :=
  match cutString quote cs with
  | some (body, rest) =>
    match literalText? false body with
    | some s => (.string s, rest)
    | none => (.invalid, rest)
  | none => (.invalid, skipUnclosed cs)

/-- the characters of a template up to a backquote or a substitution, and what follows them from
there on; none if the text ends before -/
def cutChunk : List Char → Option (List Char × List Char)
  | [] => none
  | '\x60' :: cs => some ([], '\x60' :: cs)
  | '$' :: '\x7b' :: cs => some ([], '$' :: '\x7b' :: cs)
  | '\\' :: c :: cs => (cutChunk cs).map fun r => ('\\' :: c :: r.1, r.2)
  | c :: cs => (cutChunk cs).map fun r => (c :: r.1, r.2)

section

variable {c : Char} {cs : List Char}

theorem cutChunk_escape :
    cutChunk ('\\' :: c :: cs) = (cutChunk cs).map fun r => ('\\' :: c :: r.1, r.2) :=
  rfl

theorem cutChunk_cons (hquote : c ≠ '\x60') (hopening : ∀ ds, c = '$' → cs ≠ '\x7b' :: ds)
    (hescape : ∀ d ds, c = '\\' → cs ≠ d :: ds) :
    cutChunk (c :: cs) = (cutChunk cs).map fun r => (c :: r.1, r.2) := by
  rw [cutChunk]
  · exact hquote
  · exact hopening
  · exact hescape

end

/-- a run of a template's text -/
def readChunk (cs : List Char) : Token × List Char :=
  match cutChunk cs with
  | some (body, rest) => (.chunk (literalText? true body), rest)
  | none => (.invalid, [])

/-- what follows the slash that closes a regular expression; none if the line ends before -/
def cutRegex (inClass : Bool) : List Char → Option (List Char)
  | [] => none
  | '\\' :: c :: cs => if isLineEnd c then none else cutRegex inClass cs
  | c :: cs =>
    if isLineEnd c then none
    else if c == '/' && !inClass then some cs
    else if c == '[' then cutRegex true cs
    else if c == ']' then cutRegex false cs
    else cutRegex inClass cs

/-- the letters behind a regular expression are flags, each once -/
def regexFlagsOk (flags : List Char) : Bool :=
  flags.all (fun c => "dgimsuvy".toList.contains c) && flags.eraseDups.length == flags.length

/-! ### Names -/

/-- the characters of a name, whether it has an escape, and what follows it; none if an escape is
malformed or stands for no character of a name -/
def cutWord (first : Bool) : Nat → List Char → Option (List Char × Bool × List Char)
  | 0, _ => none
  | _ + 1, [] => some ([], false, [])
  | fuel + 1, '\\' :: cs =>
    match cs with
    | 'u' :: cs => do
      let (text, rest) ← readUnicodeEscape cs
      let c ← text.head?
      if (if first then isIdentifierStart c else isIdentifierPart c) then
        (cutWord false fuel rest).map fun r => (text ++ r.1, true, r.2.2)
      else none
    | _ => none
  | fuel + 1, c :: cs =>
    if isIdentifierPart c then (cutWord false fuel cs).map fun r => (c :: r.1, r.2.1, r.2.2)
    else some ([], false, c :: cs)

theorem cutWord_cons {c : Char} (hescape : c ≠ '\\') (first : Bool) (fuel : Nat) (cs : List Char) :
    cutWord first (fuel + 1) (c :: cs) =
      if isIdentifierPart c then (cutWord false fuel cs).map fun r => (c :: r.1, r.2.1, r.2.2)
      else some ([], false, c :: cs) := by
  rw [cutWord]
  exact hescape

/-- a name or a keyword; a word that can never name a variable has no escape -/
def readWord (cs : List Char) : Token × List Char :=
  match cutWord true (cs.length + 1) cs with
  | some (text, escaped, rest) =>
    let w := String.ofList text
    if escaped && isReserved w then (.invalid, rest) else (.word w, rest)
  | none => (.invalid, cs.dropWhile fun c => isIdentifierPart c || c == '\\')

/-! ### Numbers -/

/-- a separator stands before a digit, and not behind another separator, a point or the letter that
opens the digits -/
def separatorsOk (digit : Char → Bool) : Char → List Char → Bool
  | _, [] => true
  | p, '_' :: cs =>
    cs.head?.any digit && !(p == '.' || p == '_' || p.isAlpha && !digit p) &&
      separatorsOk digit '_' cs
  | _, c :: cs => separatorsOk digit c cs

/-- a run of digits and separators behind the character `before`: the digits without separators,
whether there is one at all and all separators stand right, and what follows -/
def cutDigits (digit : Char → Bool) (before : Char) (cs : List Char) :
    List Char × Bool × List Char :=
  let run := cs.takeWhile fun c => digit c || c == '_'
  let digits := run.filter digit
  (digits, !digits.isEmpty && separatorsOk digit before run,
    cs.dropWhile fun c => digit c || c == '_')

/-- the number token with these digits, if nothing is wrong with them and no name follows at once;
a letter n makes it a big integer -/
def finishNumber (ok mayBeBig : Bool) (value : Binary64) (rest : List Char) : Token × List Char :=
  let (token, rest) := match mayBeBig, rest with
    | true, 'n' :: rest => (Token.bigint, rest)
    | _, _ => (Token.number value, rest)
  if ok && !(rest.head?.any isIdentifierStart) then (token, rest) else (.invalid, rest)

/-- a number that no letter makes a big integer -/
theorem finishNumber_number {mayBeBig : Bool} {rest : List Char}
    (hbig : ∀ ds, mayBeBig = true → rest ≠ 'n' :: ds) (ok : Bool) (value : Binary64) :
    finishNumber ok mayBeBig value rest =
      if ok && !(rest.head?.any isIdentifierStart) then (.number value, rest)
      else (.invalid, rest) := by
  rw [finishNumber]
  exact hbig

/-- a number in another radix, behind the letter that opens it -/
def readRadix (radix : Nat) (letter : Char) (cs : List Char) : Token × List Char :=
  let (digits, ok, rest) := cutDigits (Number.digitValue · < radix) letter cs
  finishNumber ok true (Binary64.ofNat (Number.digitsValue radix digits)) rest

/-- the exponent of a number, if one follows: its value, whether it is right, and what follows -/
def cutExponent : List Char → Int × Bool × List Char
  | c :: cs =>
    if c == 'e' || c == 'E' then
      let (negative, behind) := Number.splitSign cs
      let before := if behind.length < cs.length then '+' else c
      let (digits, ok, rest) := cutDigits Char.isDigit before behind
      let n : Int := Number.digitsValue 10 digits
      (if negative then -n else n, ok, rest)
    else (0, true, c :: cs)
  | [] => (0, true, [])

/-- a decimal number from its fraction on -/
def finishDecimal (ok : Bool) (whole : List Char) (cs : List Char) : Token × List Char :=
  let (fraction, okFraction, rest) := match cs with
    | '.' :: rest =>
      if rest.head?.any (fun c => c.isDigit || c == '_') then cutDigits Char.isDigit '.' rest
      else ([], true, rest)
    | _ => ([], true, cs)
  let (e, okExponent, rest) := cutExponent rest
  finishNumber (ok && okFraction && okExponent) false
    (Binary64.ofDecimal false (Number.digitsValue 10 (whole ++ fraction)) (e - fraction.length)) rest

/-- a number that begins with a digit.  More than one digit behind a zero are octal, unless there is
an eight or a nine among them. -/
def readDecimal (cs : List Char) : Token × List Char :=
  let (whole, ok, rest) := cutDigits Char.isDigit '0' cs
  if rest.head? == some 'n' then finishNumber ok true .zero rest
  else if whole.head? == some '0' && 1 < cs.length - rest.length && whole.all isOctal then
    finishNumber ok false (Binary64.ofNat (Number.digitsValue 8 whole)) rest
  else finishDecimal ok whole rest

/-- a number -/
def readNumber : List Char → Token × List Char
  | '0' :: 'x' :: cs => readRadix 16 'x' cs
  | '0' :: 'X' :: cs => readRadix 16 'X' cs
  | '0' :: 'o' :: cs => readRadix 8 'o' cs
  | '0' :: 'O' :: cs => readRadix 8 'O' cs
  | '0' :: 'b' :: cs => readRadix 2 'b' cs
  | '0' :: 'B' :: cs => readRadix 2 'B' cs
  | '.' :: cs => finishDecimal true [] ('.' :: cs)
  | cs => readDecimal cs

/-- a number that neither a point nor the letter of a radix tells -/
theorem readNumber_decimal {cs : List Char}
    (h : ∀ ds, ∀ c ∈ ['x', 'X', 'o', 'O', 'b', 'B'], cs ≠ '0' :: c :: ds)
    (hpoint : ∀ ds, cs ≠ '.' :: ds) : readNumber cs = readDecimal cs := by
  rw [readNumber]
  · exact fun ds => h ds 'x' (by decide)
  · exact fun ds => h ds 'X' (by decide)
  · exact fun ds => h ds 'o' (by decide)
  · exact fun ds => h ds 'O' (by decide)
  · exact fun ds => h ds 'b' (by decide)
  · exact fun ds => h ds 'B' (by decide)
  · exact hpoint

end PageQuery.Script
