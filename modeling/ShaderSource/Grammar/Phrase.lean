import ShaderSource.Tree.Basic

/-!
# Phrases: grammars as data

A grammar is written down as data. A `Terminal` accepts single lexemes and says what it expected
when it does not. A `Phrase` stands for one node of the tree; its body is a list of `Item`s, each
of which adds one part to the node, so that a production is spelled as the list of parts of the
node that it yields. The productions that may nest without end are named by a `Rule`, and phrases
refer to them by name.

How a phrase is read is told in `ShaderSource.Grammar.Reading`; which phrase each rule stands for
is told in `ShaderSource.Grammar.Productions`.
-/

namespace ShaderSource

/-- A single lexeme of the grammar. -/
inductive Terminal where
  /-- One of the given punctuation marks. -/
  | punct (marks : List String)
  /-- One of the given reserved words. -/
  | keyword (words : List String)
  /-- Any reserved word of a class. -/
  | keywordOf (c : KeywordClass)
  /-- A word for a precision. -/
  | precisionQualifier
  /-- A name. -/
  | identifier
  /-- A name in a layout qualifier, where `shared` is one too. -/
  | layoutName
  /-- A number or a truth value. -/
  | literal
  /-- A preprocessor line. -/
  | directive
  /-- The end of the source. -/
  | endOfInput
  deriving DecidableEq, Repr, Inhabited

namespace Terminal

/-- Whether the lexeme is a reserved word. -/
def isKeyword : LexemeKind → Bool
  | .keyword _ => true
  | _ => false

/-- Whether the lexeme is the terminal. -/
def accepts (t : Terminal) (l : Lexeme) : Bool :=
  match t with
  | punct marks => l.kind == .punctuation && marks.contains l.text
  | keyword words => isKeyword l.kind && words.contains l.text
  | keywordOf c => l.kind == .keyword c
  | precisionQualifier =>
    l.kind == .keyword .qualifier && Vocabulary.isPrecisionQualifier l.text
  | identifier => l.kind == .identifier
  | layoutName => l.kind == .identifier || (isKeyword l.kind && l.text == "shared")
  | literal => l.kind == .intConstant || l.kind == .floatConstant || l.kind == .boolConstant
  | directive => l.kind == .directive
  | endOfInput => l.kind == .endOfInput

/-- A mark or word between quotes, as an expectation names it. -/
def named (text : String) : String :=
  "\"" ++ text ++ "\""

/-- What is said to be expected where the terminal is missing. -/
def expected : Terminal → List String
  | punct marks => marks.map named
  | keyword words => words.map named
  | keywordOf .type => ["type name"]
  | keywordOf .qualifier => ["qualifier"]
  | keywordOf .reserved => ["keyword"]
  | precisionQualifier => ["precision qualifier"]
  | identifier => ["identifier"]
  | layoutName => ["identifier"]
  | literal => ["literal"]
  | directive => ["preprocessor directive"]
  | endOfInput => ["end of input"]

end Terminal

/-- The productions that others refer to by name. What a rule yields at a place is remembered, and
rules count towards the depth of nesting. -/
inductive Rule where
  | functionPrototype
  | declaration
  | fullySpecifiedType
  | typeSpecifier
  | statement
  | expression
  | assignment
  | ternary
  /-- Binary operations of one level of precedence, the loosest first. -/
  | binary (level : Fin 11)
  | unary
  | postfixExpr
  | functionCall
  | primary
  deriving DecidableEq, Repr, Inhabited

/-- How many nodes a comma-separated list needs, and how it may end. -/
inductive Listing where
  /-- At least one. -/
  | oneOrMore
  /-- Any number. -/
  | zeroOrMore
  /-- At least one, and a comma may follow the last. -/
  | trailing
  /-- At least one, or none if the part before is a type that can stand alone. -/
  | oneUnlessBare
  deriving DecidableEq, Repr, Inhabited

mutual

/-- What yields one node. -/
inductive Phrase where
  /-- A node of the given kind, its parts read one after the other. -/
  | node (kind : Kind) (items : List Item)
  /-- The node that a rule yields. -/
  | rule (r : Rule)
  /-- The initializer of a variable. It is the one phrase that contains itself without a rule in
  between. -/
  | initializer
  /-- The second phrase where the first one fails. -/
  | orElse (first second : Phrase)
  /-- The first phrase where the lexemes ahead are the given terminals, else the second one. In
  the second case the listed expectations are noted. -/
  | choose (ahead : List Terminal) (noted : List String) (yes no : Phrase)
  /-- Nothing: it fails, and the listed expectations are noted. -/
  | refuse (expected : List String)
  /-- A node and then suffixes, each of which makes a node around what stands before it: any number
  of them, or at most one. -/
  | suffixed (first : Phrase) (repeated : Bool) (suffixes : List Suffix)
  /-- A comma-separated list; a single node stands for itself. -/
  | joined (kind : Kind) (item : Phrase)

/-- What makes a node around the node before it: that node is the first part, the items yield the
others. One of the suffixes in `follow` may then make a node around that one. -/
inductive Suffix where
  | mk (kind : Kind) (items : List Item) (follow : List Suffix)

/-- What adds parts to a node. -/
inductive Item where
  /-- A terminal, as a token. -/
  | token (t : Terminal)
  /-- A terminal, as a token that could have been absent. -/
  | presentToken (t : Terminal)
  /-- A node. -/
  | child (p : Phrase)
  /-- A node, as one that could have been absent. -/
  | present (p : Phrase)
  /-- A node if there is one. -/
  | optional (p : Phrase)
  /-- All nodes that follow each other, at least `least` of them. -/
  | list (least : Nat) (p : Phrase)
  /-- Nodes with commas between them. -/
  | separated (mode : Listing) (p : Phrase)
  /-- A single node, as a list without separators. -/
  | single (p : Phrase)
  /-- A word and the node that it introduces. -/
  | branch (word : Terminal) (p : Phrase)
  /-- A part that no lexeme goes into. -/
  | empty (part : Part)
  /-- The first items where the lexemes ahead are the given terminals, else the second ones. In
  the second case the listed expectations are noted. -/
  | choose (ahead : List Terminal) (noted : List String) (yes no : List Item)
  /-- No part. It is an error if the phrase can be read here and the closing terminal is not
  next. -/
  | forbid (closing : Terminal) (p : Phrase)

end

instance : Inhabited Phrase := ⟨.refuse []⟩

end ShaderSource
