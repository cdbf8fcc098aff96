import ShaderSource.Error
import ShaderSource.Grammar.Phrase

/-!
# Parsers

A parser reads lexemes from a place on. It matches and yields a value and the place behind it, or
it fails, or it stops with an error that nothing can recover from. Failing is part of the ordinary
course, since alternatives are tried one after the other; what is kept of it is the furthest place
at which a lexeme was refused, and what would have been accepted there.

Parsers are polymorphic in the table that they carry along. `ShaderSource.Grammar.Memo` uses it to
remember what rules have yielded; the parsers of this module pass it on untouched.
-/

namespace ShaderSource

/-! ### The furthest failure -/

/-- The furthest place at which a lexeme was refused, and what was expected there. -/
structure Failure where
  /-- The index of the lexeme. -/
  place : Nat
  /-- What was expected there, in ascending order. -/
  expected : List String
  deriving DecidableEq, Repr, Inhabited

namespace Failure

/-- Nothing was refused yet. -/
def initial : Failure := ⟨0, []⟩

/-- An ascending list with one more member. -/
def insertAscending (s : String) : List String → List String
  | [] => [s]
  | t :: ts => if s < t then s :: t :: ts else if s = t then t :: ts else t :: insertAscending s ts

/-- An ascending list with more members. -/
def insertAll (new old : List String) : List String :=
  new.foldl (fun acc s => insertAscending s acc) old

/-- The failure after a lexeme was refused: a further place counts alone, the same place adds to
what was expected, and a place before it counts for nothing. -/
def note (f : Failure) (place : Nat) (expected : List String) : Failure :=
  if expected.isEmpty || place < f.place then f
  else if place = f.place then ⟨place, insertAll expected f.expected⟩
  else ⟨place, insertAll expected []⟩

end Failure

/-! ### Input and progress -/

/-- What a parser reads. -/
structure Input where
  lexemes : Lexemes
  /-- Whether nodes get spans. -/
  located : Bool

namespace Input

/-- The lexeme at a place. -/
def lexeme (input : Input) (place : Nat) : Lexeme :=
  input.lexemes.get place

/-- A number that no count of successive lexemes reaches. -/
def bound (input : Input) : Nat :=
  input.lexemes.body.size + 1

/-- The span of the lexemes from `first` to before `stop`. -/
def spanOf (input : Input) (first stop : Nat) : Span :=
  let start := (input.lexeme first).start
  ⟨start, if first < stop then (input.lexeme (stop - 1)).stop else start⟩

/-- The span for a node, if nodes get spans. -/
def nodeSpan (input : Input) (first stop : Nat) : Option Span :=
  if input.located then some (input.spanOf first stop) else none

end Input

/-- What a parser has gathered so far. -/
structure Progress (μ : Type) where
  table : μ
  failure : Failure

/-- A parser with values in `α` and a table in `μ`. -/
def Parser (μ α : Type) : Type :=
  Input → Nat → Progress μ → Except Error (Option (α × Nat) × Progress μ)

namespace Parser

variable {μ α β : Type}

/-- Yields a value and reads nothing. -/
def succeed (a : α) : Parser μ α :=
  fun _ place progress => .ok (some (a, place), progress)

/-- One parser after the other. -/
def andThen (p : Parser μ α) (f : α → Parser μ β) : Parser μ β :=
  fun input place progress =>
    match p input place progress with
    | .error e => .error e
    | .ok (none, progress) => .ok (none, progress)
    | .ok (some (a, next), progress) => f a input next progress

instance : Monad (Parser μ) where
  pure := succeed
  bind := andThen

/-- Fails. -/
def fail : Parser μ α :=
  fun _ _ progress => .ok (none, progress)

/-- The second parser where the first one fails, from the same place. -/
def orElse (p q : Parser μ α) : Parser μ α :=
  fun input place progress =>
    match p input place progress with
    | .error e => .error e
    | .ok (none, progress) => q input place progress
    | .ok (some result, progress) => .ok (some result, progress)

/-- Stops with an error at the lexeme that comes next. -/
def stopAt (e : Span → Error) : Parser μ α :=
  fun input place _ => .error (e (input.lexeme place).span)

/-- The current place. -/
def here : Parser μ Nat :=
  fun _ place progress => .ok (some (place, place), progress)

/-- A number that no count of successive lexemes reaches. -/
def bound : Parser μ Nat :=
  fun input place progress => .ok (some (input.bound, place), progress)

/-- Notes that something else was expected here. -/
def note (expected : List String) : Parser μ Unit :=
  fun _ place progress =>
    .ok (some ((), place), { progress with failure := progress.failure.note place expected })

/-- Whether the lexemes from `place` on are the given terminals. -/
def looksAt (input : Input) (place : Nat) : List Terminal → Bool
  | [] => true
  | t :: ts => t.accepts (input.lexeme place) && looksAt input (place + 1) ts

/-- Whether the lexemes that come next are the given terminals. -/
def sees (ahead : List Terminal) : Parser μ Bool :=
  fun input place progress => .ok (some (looksAt input place ahead, place), progress)

/-- The token of the lexeme that comes next, if it is the terminal. -/
def token (t : Terminal) : Parser μ Token :=
  fun input place progress =>
    if t.accepts (input.lexeme place) then
      .ok (some ((input.lexeme place).token, place + 1), progress)
    else
      .ok (none, { progress with failure := progress.failure.note place t.expected })

/-- Succeeds at the end of the source. -/
def atEnd : Parser μ Unit :=
  fun input place progress =>
    if (input.lexeme place).isEnd then .ok (some ((), place), progress)
    else
      .ok (none,
        { progress with failure := progress.failure.note place Terminal.endOfInput.expected })

/-- A node over the lexemes from `first` to the current place. -/
def node (kind : Kind) (first : Nat) (parts : List Part) : Parser μ Node :=
  fun input place progress =>
    .ok (some (.mk kind NodeId.detached (input.nodeSpan first place) parts, place), progress)

/-- The value of the parser if it does not fail. -/
def optional (p : Parser μ α) : Parser μ (Option α) :=
  (do return some (← p)).orElse (succeed none)

/-- The values of a parser as often as it does not fail, at most `n` times. -/
def repeated (p : Parser μ α) : (n : Nat) → Parser μ (List α)
  | 0 => succeed []
  | n + 1 => (do
      let a ← p
      let rest ← repeated p n
      return a :: rest).orElse (succeed [])

/-- The values of a parser as often as it does not fail. -/
def many (p : Parser μ α) : Parser μ (List α) := do
  repeated p (← bound)

/-- A comma. -/
def comma : Parser μ Token :=
  token (.punct [","])

/-- A comma and a value behind it. -/
def afterComma (p : Parser μ α) : Parser μ (Token × α) := do
  let separator ← comma
  return (separator, ← p)

/-- Values with commas between them. A comma that no value follows is left alone. -/
def separated (p : Parser μ α) : Parser μ (α × List (Token × α)) := do
  let first ← p
  return (first, ← many (afterComma p))

/-- A value and what a step makes of it, the step taken as often as it does not fail, at most `n`
times. -/
def extended (step : α → Parser μ α) : (n : Nat) → α → Parser μ α
  | 0, a => succeed a
  | n + 1, a => (do extended step n (← step a)).orElse (succeed a)

end Parser

end ShaderSource
