import ShaderSource.Token.Basic

/-!
# Cutting a source into lexemes

Each function here says how many of the leading characters belong to one thing: a run of trivia,
a preprocessor line, a number, a lexeme of any kind. `scan` walks over the characters once. Where
a lexeme starts, it emits it and notes how many characters that settles; these are then passed
over. The recursion is on the characters, so nothing has to be known about the lengths.
-/

namespace ShaderSource.Scan

/-- A character of trivia outside comments. -/
def isSpace (c : Char) : Bool :=
  c == ' ' || c == '\t' || c == '\n' || c == '\x0b' || c == '\x0c' || c == '\r'

/-- A character that starts a word. -/
def startsWord (c : Char) : Bool :=
  c == '_' || c.isAlpha

/-- A character that continues a word. -/
def continuesWord (c : Char) : Bool :=
  c == '_' || c.isAlphanum

/-- A hexadecimal digit. -/
def isHexDigit (c : Char) : Bool :=
  c.isDigit || ('a' ≤ c && c ≤ 'f') || ('A' ≤ c && c ≤ 'F')

/-- The number of leading characters that satisfy `p`. -/
def run (p : Char → Bool) (cs : List Char) : Nat :=
  (cs.takeWhile p).length

/-! ### Trivia -/

/-- Whether the characters hold the end of a block comment. -/
def closesComment : List Char → Bool
  | '*' :: '/' :: _ => true
  | _ :: cs => closesComment cs
  | [] => false

/-- What a run of trivia is in the middle of. -/
inductive TriviaMode where
  | between
  | lineComment
  | blockComment
  deriving DecidableEq, Repr

/-- The length of the trivia at the front. A block comment counts only if it is closed. -/
def triviaFrom : TriviaMode → List Char → Nat
  | .between, '/' :: '/' :: cs => 2 + triviaFrom .lineComment cs
  | .between, '/' :: '*' :: cs =>
    if closesComment cs then 2 + triviaFrom .blockComment cs else 0
  | .between, c :: cs => if isSpace c then 1 + triviaFrom .between cs else 0
  | .lineComment, c :: cs =>
    if c = '\n' then 1 + triviaFrom .between cs else 1 + triviaFrom .lineComment cs
  | .blockComment, '*' :: '/' :: cs => 2 + triviaFrom .between cs
  | .blockComment, _ :: cs => 1 + triviaFrom .blockComment cs
  | _, [] => 0

/-- The length of the trivia at the front. -/
def trivia (cs : List Char) : Nat :=
  triviaFrom .between cs

/-! ### Lexemes -/

/-- The length of a preprocessor line. `continued` holds if the line so far ends with a backslash,
carriage returns left aside; then the line feed belongs to the directive and the next line too. -/
def directive (continued : Bool) : List Char → Nat
  | [] => 0
  | c :: cs =>
    if c = '\n' then if continued then 1 + directive false cs else 0
    else if c = '\r' then 1 + directive continued cs
    else 1 + directive (c == '\\') cs

/-- The length of an exponent at the front: a mark, a sign or none, and at least one digit. -/
def exponent : List Char → Nat
  | e :: s :: cs =>
    if e = 'e' ∨ e = 'E' then
      if s.isDigit then 1 + run Char.isDigit (s :: cs)
      else if s = '+' ∨ s = '-' then
        let digits := run Char.isDigit cs
        if digits = 0 then 0 else 2 + digits
      else 0
    else 0
  | _ => 0

/-- The length of a fraction at the front: a point and any number of digits. -/
def fraction : List Char → Nat
  | '.' :: cs => 1 + run Char.isDigit cs
  | _ => 0

/-- The kind and the length of a decimal number, given the length and the form of what comes
before its suffix. -/
def suffixed (length : Nat) (isFloat : Bool) : List Char → LexemeKind × Nat
  | 'f' :: _ => (.floatConstant, length + 1)
  | 'F' :: _ => (.floatConstant, length + 1)
  | 'l' :: 'f' :: _ => (.floatConstant, length + 2)
  | 'L' :: 'F' :: _ => (.floatConstant, length + 2)
  | c :: _ =>
    if isFloat then (.floatConstant, length)
    else if c = 'u' ∨ c = 'U' then (.intConstant, length + 1)
    else (.intConstant, length)
  | [] => (if isFloat then .floatConstant else .intConstant, length)

/-- The kind and the length of a decimal number. -/
def decimal (cs : List Char) : LexemeKind × Nat :=
  let whole := run Char.isDigit cs
  let point := fraction (cs.drop whole)
  let power := exponent (cs.drop (whole + point))
  suffixed (whole + point + power) (0 < point || 0 < power) (cs.drop (whole + point + power))

/-- The length of the rest of a hexadecimal number, after its mark. -/
def hexadecimal (cs : List Char) : Nat :=
  let digits := run isHexDigit cs
  match cs.drop digits with
  | 'u' :: _ => digits + 1
  | 'U' :: _ => digits + 1
  | _ => digits

/-- The kind and the length of a number. -/
def number : List Char → LexemeKind × Nat
  | '0' :: 'x' :: cs => (.intConstant, 2 + hexadecimal cs)
  | '0' :: 'X' :: cs => (.intConstant, 2 + hexadecimal cs)
  | cs => decimal cs

/-- Whether a number starts at the front. -/
def startsNumber : List Char → Bool
  | '.' :: d :: _ => d.isDigit
  | c :: _ => c.isDigit
  | [] => false

/-- The kind of a word. -/
def wordKind (word : String) : LexemeKind :=
  if word = "true" ∨ word = "false" then .boolConstant
  else match Vocabulary.keywordClass word with
    | some c => .keyword c
    | none => .identifier

/-- The length of the longest punctuation mark at the front. -/
def mark? (cs : List Char) : Option Nat :=
  (Vocabulary.punctuation.find? fun p => p.toList.isPrefixOf cs).map String.length

/-- Whether the characters begin a block comment. -/
def opensComment : List Char → Bool
  | '/' :: '*' :: _ => true
  | _ => false

/-- The kind and the length of the lexeme at the front of characters that are not trivia. A
comment that begins there is one that is never closed, and reaches to the end. -/
def lexeme (c : Char) (cs : List Char) : LexemeKind × Nat :=
  if c = '#' then (.directive, directive false (c :: cs))
  else if startsWord c then
    let n := run continuesWord (c :: cs)
    (wordKind (String.ofList ((c :: cs).take n)), n)
  else if startsNumber (c :: cs) then number (c :: cs)
  else if opensComment (c :: cs) then (.invalid, (c :: cs).length)
  else match mark? (c :: cs) with
    | some n => (.punctuation, n)
    | none => (.invalid, 1)

/-- The lexemes of the characters, which start at `place`. The first `settled` characters belong to
the lexeme before them. -/
def scan (place : Position) : (settled : Nat) → List Char → List Lexeme
  | _, [] => []
  | settled + 1, _ :: cs => scan place settled cs
  | 0, c :: cs =>
    let (kind, n) := lexeme c cs
    let text := String.ofList ((c :: cs).take n)
    let rest := (c :: cs).drop n
    let gap := String.ofList (rest.take (trivia rest))
    ⟨kind, text, gap, place⟩ :: scan ((place.advance text).advance gap) (n + trivia rest - 1) cs

end ShaderSource.Scan

namespace ShaderSource

/-- The lexemes of a source. -/
def Lexemes.ofString (source : String) : Lexemes :=
  let cs := source.toList
  let n := Scan.trivia cs
  let leading := String.ofList (cs.take n)
  { leading
    body := (Scan.scan (Position.start.advance leading) 0 (cs.drop n)).toArray
    final := ⟨.endOfInput, "", "", Position.start.advance source⟩ }

end ShaderSource
