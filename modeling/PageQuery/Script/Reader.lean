import PageQuery.Script.Lexer
import PageQuery.Script.Tree

/-!
Reading a script token by token: the state of a reader, its steps, and what the rules of the grammar
give and depend on.

The rules call each other in circles.  `Grammar` holds those that a rule may call behind at least one
token of its own, so that every rule is a plain function of the grammar one level down.
-/

namespace PageQuery.Script

/-! ### Steps -/

structure ReaderState where
  /-- before the token ahead -/
  before : Cursor
  ahead : Option Lexeme
  /-- behind the token ahead -/
  after : Cursor
  /-- where the last token ended -/
  stop : Nat
  /-- the tokens read so far, the last one first -/
  taken : List Lexeme

/-- the token that a cursor stands before; one null character is passed over -/
def Cursor.lookAhead (c : Cursor) : Option Lexeme × Cursor :=
  match c.next with
  | (some l, c) => (some l, c)
  | (none, c) => c.next

namespace ReaderState

/-- the state before the token that a cursor stands before -/
def load (c : Cursor) (stop : Nat) (taken : List Lexeme) : ReaderState :=
  let r := c.lookAhead
  { before := c, ahead := r.1, after := r.2, stop := stop, taken := taken }

/-- the state behind a token that was read, with the cursor behind it -/
def past (s : ReaderState) (l : Lexeme) (c : Cursor) : ReaderState := load c l.stop (l :: s.taken)

/-- where the token ahead begins, or at the end of the script where the last one ended -/
def position (s : ReaderState) : Nat :=
  match s.ahead with
  | some l => l.start
  | none => s.stop

/-- the state behind the token ahead; what is no token of the language is not read -/
def advance (s : ReaderState) : Except Nat ReaderState :=
  match s.ahead with
  | some l => if l.token = .invalid then .error s.position else .ok (s.past l s.after)
  | none => .ok s

/-- the regular expression that begins at the token ahead and the cursor behind it, or the offset at
which there is none -/
def regexAhead (s : ReaderState) : Except Nat (Lexeme × Cursor) :=
  let gap := skipGap .code s.before.chars s.before.offset s.before.fresh none
  match s.ahead, gap.chars with
  | some slash, '/' :: body =>
    match cutRegex false body with
    | none => .error slash.stop
    | some behind =>
      if regexFlagsOk (behind.takeWhile Text.isIdentifierPart) then
        let rest := behind.dropWhile Text.isIdentifierPart
        .ok (s.after.accept .regex slash.start gap.offset slash.newline gap.chars rest)
      else .error slash.start
  | _, _ => .error s.position

/-- the tokens that are read one after the other between two states -/
inductive Reads : ReaderState → List Lexeme → ReaderState → Prop
  | nil (s : ReaderState) : Reads s [] s
  | token {s t : ReaderState} {l : Lexeme} {ls : List Lexeme} :
    s.ahead = some l → l.token ≠ .invalid → Reads (s.past l s.after) ls t → Reads s (l :: ls) t
  | regex {s t : ReaderState} {l : Lexeme} {c : Cursor} {ls : List Lexeme} :
    s.regexAhead = .ok (l, c) → Reads (s.past l c) ls t → Reads s (l :: ls) t

theorem Reads.append {s t u : ReaderState} {ls ms : List Lexeme} (h : Reads s ls t)
    (h' : Reads t ms u) : Reads s (ls ++ ms) u := by
  induction h with
  | nil _ => exact h'
  | token ha hv _ ih => exact .token ha hv (ih h')
  | regex ha _ ih => exact .regex ha (ih h')

theorem reads_advance {s t : ReaderState} (h : s.advance = .ok t) : ∃ ls, Reads s ls t := by
  unfold advance at h
  split at h
  · rename_i l hl
    split at h
    · cases h
    · rename_i hv
      cases h
      exact ⟨[l], .token hl hv (.nil _)⟩
  · cases h
    exact ⟨[], .nil s⟩

end ReaderState

/-- a reader of a script.  It fails at an offset of the text, or it leaves a state that is reached by
reading tokens. -/
structure Reader (α : Type) where
  run : ReaderState → Except Nat (α × ReaderState)
  forward : ∀ {s t a}, run s = .ok (a, t) → ∃ ls, s.Reads ls t

namespace Reader

instance : Monad Reader where
  pure a := ⟨fun s => .ok (a, s), fun h => by cases h; exact ⟨[], .nil _⟩⟩
  bind r f := ⟨fun s =>
      match r.run s with
      | .ok (a, t) => (f a).run t
      | .error o => .error o,
    fun h => by
      split at h
      · rename_i a u hr
        obtain ⟨ls, hls⟩ := r.forward hr
        obtain ⟨ms, hms⟩ := (f a).forward h
        exact ⟨ls ++ ms, hls.append hms⟩
      · cases h⟩

def failAt {α : Type} (offset : Nat) : Reader α := ⟨fun _ => .error offset, fun h => by cases h⟩

/-- what a state shows -/
def observe {α : Type} (view : ReaderState → α) : Reader α :=
  ⟨fun s => .ok (view s, s), fun h => by cases h; exact ⟨[], .nil _⟩⟩

def position : Reader Nat := observe ReaderState.position

/-- fails at the token ahead -/
def fail {α : Type} : Reader α := do failAt (← position)

def peek : Reader (Option Token) := observe fun s => s.ahead.map (·.token)

/-- the token behind the token ahead -/
def peekSecond : Reader (Option Lexeme) := observe fun s => s.after.lookAhead.1

/-- a line ended before the token ahead -/
def newlineAhead : Reader Bool := observe fun s => s.ahead.any (·.newline)

/-- where the last token ended -/
def lastStop : Reader Nat := observe (·.stop)

def advance : Reader Unit :=
  ⟨fun s => s.advance.map ((), ·), fun {s _ _} h => by
    rcases ha : s.advance with _ | u
    · rw [ha] at h
      cases h
    · rw [ha] at h
      cases h
      exact ReaderState.reads_advance ha⟩

def isAhead (t : Token) : Reader Bool := do pure ((← peek) == some t)

/-- passes over the token if it is ahead -/
def eat (t : Token) : Reader Bool := do
  if ← isAhead t then
    advance
    pure true
  else pure false

def expect (t : Token) : Reader Unit := do
  if ← isAhead t then advance else fail

/-- a name or keyword, whichever it is -/
def anyWord : Reader String := do
  match ← peek with
  | some (.word w) =>
    advance
    pure w
  | _ => fail

/-- the end of a statement: a semicolon, or a place where none is needed -/
def semicolon : Reader Unit := do
  if ← eat .semicolon then pure ()
  else
    match ← peek with
    | none => pure ()
    | some .rightBrace => pure ()
    | _ => if ← newlineAhead then pure () else fail

/-- a name behind a number sign that it touches -/
def privateName : Reader String := do
  expect .hash
  let stop ← lastStop
  if (← position) == stop then anyWord else fail

/-- the regular expression that begins at the token ahead -/
def regex : Reader Unit :=
  ⟨fun s =>
    match s.regexAhead with
    | .ok (l, c) => .ok ((), s.past l c)
    | .error o => .error o,
  fun h => by
    split at h
    · rename_i l c hr
      cases h
      exact ⟨[l], .regex hr (.nil _)⟩
    · cases h⟩

/-- items with commas between them up to a closing token, and whether a comma stands before it -/
def listUpTo {α : Type} (close : Token) (item : Reader α) : Nat → Reader (List α × Bool)
  | 0 => fail
  | n + 1 => do
    if ← eat close then pure ([], false)
    else
      let x ← item
      if ← eat .comma then
        let (xs, trailing) ← listUpTo close item n
        pure (x :: xs, trailing || xs.isEmpty)
      else
        expect close
        pure ([x], false)

end Reader

/-! ### Rules -/

/-- where a rule is applied -/
structure Scope where
  strict : Bool := false
  isAsync : Bool := false
  isGenerator : Bool := false
  /-- within a function, which can return -/
  inFunction : Bool := false
  /-- `in` is an operator -/
  inAllowed : Bool := true
  newTarget : Bool := false
  superField : Bool := false
  breakable : Bool := false
  continuable : Bool := false
  labels : List String := []
  /-- the only place where an arrow function may begin -/
  arrowStart : Option Nat := none

/-- within brackets of any kind -/
def Scope.enclosed (s : Scope) : Scope := { s with inAllowed := true, arrowStart := none }

/-- within a function of its own -/
def Scope.function (s : Scope) (isAsync isGenerator isMethod : Bool) : Scope where
  strict := s.strict
  isAsync := isAsync
  isGenerator := isGenerator
  inFunction := true
  newTarget := true
  superField := isMethod

/-- within the body of an arrow function -/
def Scope.arrowBody (s : Scope) (isAsync : Bool) : Scope :=
  { s with
    isAsync := isAsync, isGenerator := false, inFunction := true, arrowStart := none,
    breakable := false, continuable := false, labels := [] }

/-- the word can name a variable -/
def Scope.canName (s : Scope) (w : String) : Bool :=
  !isReserved w && !(s.strict && strictNames.contains w) && !(s.isGenerator && w == "yield") &&
    !(s.isAsync && w == "await")

/-- what an expression can be on the left of an assignment -/
inductive Role where
  /-- a variable or a member -/
  | target
  /-- a literal that reads as a pattern -/
  | pattern
  /-- an assignment, which within a pattern gives a default -/
  | defaulted
  | other
deriving DecidableEq

/-- an expression as it was read -/
structure Phrase where
  expr : Expr
  extent : Extent
  /-- without the parentheses around it -/
  core : Extent := extent
  role : Role := .other
  /-- it reads as a parameter -/
  binding : Bool := false
  /-- where something stands that only a pattern may hold -/
  unsettled : Option Nat := none
  /-- an arrow function, which no operator follows -/
  isArrow : Bool := false
  /-- begins with an operator of one operand -/
  isUnary : Bool := false

/-- the phrase reads as an element of an assignment pattern -/
def Phrase.inPattern (p : Phrase) : Bool := p.role != .other

/-- the phrase holds nothing that only a pattern may hold -/
def Phrase.settle (p : Phrase) : Reader Phrase :=
  match p.unsettled with
  | some o => Reader.failAt o
  | none => pure p

def Phrase.argument (spread : Bool) (p : Phrase) : Argument Expr := ⟨spread, p.core, p.expr⟩

inductive Statement where
  | expression (e : Expr)
  | returning (e : Option Expr)
  | other

/-- which statements may stand in a place -/
inductive Place where
  /-- any -/
  | list
  /-- no declarations -/
  | body
  /-- no declarations but of functions -/
  | branch
deriving DecidableEq

/-- the rules one level down -/
structure Grammar where
  /-- no fewer than the tokens that are left -/
  fuel : Nat
  assignment : Scope → Reader Phrase
  unary : Scope → Reader Phrase
  /-- a primary expression with accesses and, if they may stand, calls -/
  member : Bool → Scope → Reader Phrase
  /-- a variable or a pattern in a declaration -/
  pattern : Scope → Reader Unit
  statement : Place → Scope → Reader Statement

/-- the grammar without levels left -/
def Grammar.empty : Grammar where
  fuel := 0
  assignment := fun _ => Reader.fail
  unary := fun _ => Reader.fail
  member := fun _ _ => Reader.fail
  pattern := fun _ => Reader.fail
  statement := fun _ _ => Reader.fail

end PageQuery.Script
