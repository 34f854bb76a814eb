import PageQuery.Text.Alphanumeric

/-!
# The conditions of the query language

How the query language reads the text of its conditions, set up independently of how such texts are
written: `tokenize` cuts a text into tokens, and `readTerm` and `readRest` make up a `Reading`.

* An operand is a text in quotes, a word or a number.  A word is made of letters, digits, underscores
  and dots between them; a number without a sign is one too.
* A term is an operand, a comparison of two operands, a call of `contains`, a negation or a
  condition in parentheses.  A negation takes no comparison.
* AND and OR have one precedence and group to the left.  Where an operand stands they are words like
  any others.
-/

namespace PageQuery.Where

inductive Token where
  /-- a text in quotes, a word or a number, as it is written -/
  | item (text : String)
  | comparison (symbol : String)
  | bang
  | comma
  | opening
  | closing
deriving DecidableEq

/-! ### Tokens -/

def isNameChar (c : Char) : Bool := Text.isAlphanumeric c || c == '_'

def isWordChar (c : Char) : Bool := isNameChar c || c == '.'

/-- names with dots between them -/
def isWord (cs : List Char) : Bool :=
  (cs.splitOn '.').all fun name => !name.isEmpty && name.all isNameChar

def isDigits (cs : List Char) : Bool := !cs.isEmpty && cs.all Char.isDigit

/-- digits with an optional fraction, or infinity -/
def isNumeral (cs : List Char) : Bool :=
  cs == "Infinity".toList ||
    match cs.splitOn '.' with
    | [whole] => isDigits whole
    | [whole, fraction] => isDigits whole && isDigits fraction
    | _ => false

/-- reads on from an opening quote: what stands before the closing quote and what follows it -/
def quoted? : List Char → Option (List Char × List Char)
  | [] => none
  | '"' :: cs => some ([], cs)
  | '\\' :: c :: cs => (quoted? cs).map fun r => ('\\' :: c :: r.1, r.2)
  | c :: cs => (quoted? cs).map fun r => (c :: r.1, r.2)

/-- the first token and what follows it -/
def token? : List Char → Option (Token × List Char)
  | '(' :: cs => some (.opening, cs)
  | ')' :: cs => some (.closing, cs)
  | ',' :: cs => some (.comma, cs)
  | '=' :: cs => some (.comparison "=", cs)
  | '<' :: '=' :: cs => some (.comparison "<=", cs)
  | '<' :: cs => some (.comparison "<", cs)
  | '>' :: '=' :: cs => some (.comparison ">=", cs)
  | '>' :: cs => some (.comparison ">", cs)
  | '!' :: '=' :: cs => some (.comparison "!=", cs)
  | '!' :: cs => some (.bang, cs)
  | '"' :: cs => (quoted? cs).map fun r => (.item (String.ofList ('"' :: r.1 ++ ['"'])), r.2)
  | '-' :: cs =>
    if isNumeral (cs.takeWhile isWordChar) then
      some (.item (String.ofList ('-' :: cs.takeWhile isWordChar)), cs.dropWhile isWordChar)
    else none
  | cs =>
    if isWord (cs.takeWhile isWordChar) then
      some (.item (String.ofList (cs.takeWhile isWordChar)), cs.dropWhile isWordChar)
    else none

theorem quoted?_length {cs body rest : List Char} (h : quoted? cs = some (body, rest)) :
    rest.length < cs.length := by
  fun_induction quoted? cs generalizing body rest with
  | case1 => cases h
  | case2 cs => cases h; simp
  | case3 c cs ih =>
    obtain ⟨r, hr, he⟩ := Option.map_eq_some_iff.1 h
    cases he
    have := ih hr
    simp
    omega
  | case4 c cs _ _ ih =>
    obtain ⟨r, hr, he⟩ := Option.map_eq_some_iff.1 h
    cases he
    have := ih hr
    simp
    omega

theorem length_dropWhile_le (cs : List Char) :
    (cs.dropWhile isWordChar).length ≤ cs.length :=
  (List.dropWhile_sublist _).length_le

theorem length_dropWhile_lt {cs : List Char} (h : isWord (cs.takeWhile isWordChar) = true) :
    (cs.dropWhile isWordChar).length < cs.length := by
  have hne : (cs.takeWhile isWordChar).length ≠ 0 := by
    intro hnil
    rw [List.length_eq_zero_iff.1 hnil] at h
    revert h
    decide
  have hsplit := congrArg List.length (List.takeWhile_append_dropWhile (p := isWordChar) (l := cs))
  rw [List.length_append] at hsplit
  omega

theorem token?_length {cs rest : List Char} {t : Token} (h : token? cs = some (t, rest)) :
    rest.length < cs.length := by
  unfold token? at h
  split at h
  any_goals
    cases h
    simp only [List.length_cons]
    omega
  · -- a text
    obtain ⟨r, hr, he⟩ := Option.map_eq_some_iff.1 h
    cases he
    exact Nat.lt_succ_of_lt (quoted?_length hr)
  · -- a negative number
    split at h
    · cases h
      exact Nat.lt_succ_of_le (length_dropWhile_le _)
    · cases h
  · -- a word
    split at h
    · rename_i hw
      cases h
      exact length_dropWhile_lt hw
    · cases h

/-- the tokens of a text, with or without spaces between them -/
def tokenize : List Char → Option (List Token)
  | [] => some []
  | ' ' :: cs => tokenize cs
  | c :: cs =>
    match h : token? (c :: cs) with
    | some (t, rest) =>
      have : rest.length < (c :: cs).length := token?_length h
      (tokenize rest).map (t :: ·)
    | none => none
termination_by cs => cs.length
decreasing_by
  · exact Nat.lt_succ_self cs.length
  · assumption

/-! ### Readings -/

inductive Connective where
  | and
  | or
deriving DecidableEq

def Connective.apply : Connective → Bool → Bool → Bool
  | and => (· && ·)
  | or => (· || ·)

/-- what a condition is made of -/
inductive Reading where
  /-- an operand, a comparison or a call of `contains`, by its text -/
  | atom (text : String)
  | not (r : Reading)
  | join (k : Connective) (l r : Reading)
deriving DecidableEq

/-- the truth of a condition by the truth of its atoms -/
def Reading.eval (v : String → Bool) : Reading → Bool
  | .atom text => v text
  | .not r => !r.eval v
  | .join k l r => k.apply (l.eval v) (r.eval v)

def connective? (text : String) : Option Connective :=
  match text with
  | "AND" => some .and
  | "OR" => some .or
  | _ => none

mutual
/-- reads a term and on.  The term goes on with what stands before it in its parentheses; so do all
parentheses around it, the innermost first. -/
def readTerm (outer : List (Reading → Reading)) (before : Reading → Reading) (negated : Bool) :
    List Token → Option Reading
  | .bang :: ts => readTerm outer (fun r => before (.not r)) true ts
  | .opening :: ts => readTerm (before :: outer) id false ts
  | .item f :: .opening :: .item x :: .comma :: .item y :: .closing :: ts =>
    if f = "contains" then readRest outer (before (.atom ("contains(" ++ x ++ ", " ++ y ++ ")"))) ts
    else none
  | .item x :: .comparison op :: .item y :: ts =>
    if negated then none else readRest outer (before (.atom (x ++ " " ++ op ++ " " ++ y))) ts
  | .item x :: ts => readRest outer (before (.atom x)) ts
  | _ => none
/-- reads on behind a term; what stands in its parentheses so far is read -/
def readRest (outer : List (Reading → Reading)) (r : Reading) : List Token → Option Reading
  | [] => if outer.isEmpty then some r else none
  | .closing :: ts =>
    match outer with
    | before :: outer => readRest outer (before r) ts
    | [] => none
  | .item k :: ts =>
    match connective? k with
    | some k => readTerm outer (.join k r) false ts
    | none => none
  | _ => none
end

/-- the reading of a whole text -/
def read (text : String) : Option Reading :=
  (tokenize text.toList).bind (readTerm [] id false)

end PageQuery.Where
