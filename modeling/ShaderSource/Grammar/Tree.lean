import ShaderSource.Grammar.Memo

/-!
# Reading whole sources

A source is read from a start: usually as a whole shader, but also as a single declaration,
statement or expression. Whatever the start, it has to reach the end of the source, and the result
is a `program` node over what was read. Where that fails, the error tells of the furthest lexeme
that was refused.
-/

namespace ShaderSource

/-- What a source is read as. -/
inductive Start where
  /-- A whole shader. -/
  | translationUnit
  /-- A single function or declaration. -/
  | externalDeclaration
  /-- A single statement. -/
  | statement
  /-- A single expression. -/
  | expression
  deriving DecidableEq, Repr, Inhabited

section Start

variable {μ : Type} (call : Rule → Parser μ Node)

/-- Reads the nodes below the root. -/
def Start.nodes : Start → Parser μ (List Node)
  | .translationUnit => Parser.many (Grammar.externalDeclaration.parser call)
  | .externalDeclaration => do return [← Grammar.externalDeclaration.parser call]
  | .statement => do return [← call .statement]
  | .expression => do return [← call .expression]

/-- Reads the root of a tree, up to the end of the source. -/
def Start.root (start : Start) (leading : String) : Parser μ Node := do
  let nodes ← start.nodes call
  Parser.atEnd
  Parser.node .program 0 [.text leading, .list nodes]

end Start

/-- The error for a source whose reading failed. -/
def Failure.error (f : Failure) (input : Input) (source : Option String) : Error :=
  let l := input.lexeme f.place
  .unexpected
    { expected := f.expected
      found := if l.isEnd then none else some l.text
      span := l.span
      source }

/-- What comes of reading the whole input by a parser. -/
def Parser.run {μ α : Type} (p : Parser μ α) (table : μ) (input : Input) (source : Option String) :
    Except Error α :=
  match p input 0 ⟨table, Failure.initial⟩ with
  | .error e => .error e
  | .ok (some (a, _), _) => .ok a
  | .ok (none, progress) => .error (progress.failure.error input source)

/-- Reads the tree of a source. Its nodes have no identities yet. -/
def readTree (start : Start) (input : Input) (source : Option String) : Except Error Node :=
  (start.root (Rule.read Rule.maxDepth) input.lexemes.leading).run Memo.empty input source

/-- Reads the tree of a source as `readTree` does, but without remembering anything. -/
def readTreePlainly (start : Start) (input : Input) (source : Option String) : Except Error Node :=
  (start.root (Rule.readPlainly Rule.maxDepth) input.lexemes.leading).run () input source

end ShaderSource
