import ShaderSource.Position
import ShaderSource.Token.Vocabulary

/-!
# Tokens and lexemes

A token is a terminal of the tree: its text and the trivia (blanks and comments) after it. A
lexeme is a token as it stands in a source, with its kind and its place. The lexemes of a source,
together with the trivia before the first one, hold every character of it.
-/

namespace ShaderSource

/-- A terminal: its text and the blanks and comments that follow it. -/
structure Token where
  text : String
  trivia : String
  deriving DecidableEq, Repr, Inhabited

/-- The characters that the token stands for, trivia included. -/
def Token.source (t : Token) : String :=
  t.text ++ t.trivia

/-- The kind of a lexeme. -/
inductive LexemeKind where
  | identifier
  | keyword (c : KeywordClass)
  | intConstant
  | floatConstant
  | boolConstant
  | punctuation
  /-- A whole preprocessor line. -/
  | directive
  /-- A character that starts no token, or a comment that is never closed. -/
  | invalid
  | endOfInput
  deriving DecidableEq, Repr, Inhabited

/-- A token in its source. -/
structure Lexeme where
  kind : LexemeKind
  text : String
  trivia : String
  /-- Where the text starts. -/
  start : Position
  deriving DecidableEq, Repr, Inhabited

namespace Lexeme

/-- The lexeme as a terminal of the tree. -/
def token (l : Lexeme) : Token :=
  ⟨l.text, l.trivia⟩

/-- The place after the text, before the trivia. -/
def stop (l : Lexeme) : Position :=
  l.start.advance l.text

/-- The place after the trivia. -/
def triviaStop (l : Lexeme) : Position :=
  l.stop.advance l.trivia

/-- The range of the text, trivia left out. -/
def span (l : Lexeme) : Span :=
  ⟨l.start, l.stop⟩

/-- Whether the lexeme marks the end of the source. -/
def isEnd (l : Lexeme) : Bool :=
  l.kind == .endOfInput

end Lexeme

/-- A source cut into lexemes. -/
structure Lexemes where
  /-- The trivia before the first lexeme. -/
  leading : String
  /-- The lexemes in source order, the end left out. -/
  body : Array Lexeme
  /-- The end of the source. -/
  final : Lexeme
  deriving Repr, Inhabited

namespace Lexemes

/-- The lexeme at an index; past the last one stands the end of the source. -/
def get (ls : Lexemes) (i : Nat) : Lexeme :=
  ls.body[i]?.getD ls.final

/-- All lexemes in source order, the end included. -/
def toList (ls : Lexemes) : List Lexeme :=
  ls.body.toList ++ [ls.final]

end Lexemes

end ShaderSource
