/-!
# Positions and spans

A position says where a character stands in a source: how many bytes come before it, on which
line it is, and in which column. Positions are reached by moving over text from the start, so the
three numbers of a position always describe the same piece of text.
-/

namespace ShaderSource

/-- A place in a source text. -/
structure Position where
  /-- Bytes of UTF-8 before this place. -/
  offset : Nat
  /-- Line, counted from one. -/
  line : Nat
  /-- Column in characters, counted from one. -/
  column : Nat
  deriving DecidableEq, Repr, Inhabited

namespace Position

/-- Where a source starts. -/
def start : Position := ⟨0, 1, 1⟩

/-- The place after the character `c`. Only a line feed ends a line. -/
def next (p : Position) (c : Char) : Position :=
  if c = '\n' then ⟨p.offset + c.utf8Size, p.line + 1, 1⟩
  else ⟨p.offset + c.utf8Size, p.line, p.column + 1⟩

/-- The place after the given characters. -/
def after (p : Position) (cs : List Char) : Position :=
  cs.foldl next p

/-- The place after the text `s`. -/
def advance (p : Position) (s : String) : Position :=
  p.after s.toList

/-- Line and column, as messages give a place. -/
def text (p : Position) : String :=
  toString p.line ++ ":" ++ toString p.column

end Position

/-- A range of source text. -/
structure Span where
  /-- Where the first character stands. -/
  start : Position
  /-- The place right after the last character. -/
  stop : Position
  deriving DecidableEq, Repr, Inhabited

/-- Both ends of a span, as messages give it. -/
def Span.text (s : Span) : String :=
  s.start.text ++ "-" ++ s.stop.text

end ShaderSource
