import ShaderSource.Grammar.Tree
import ShaderSource.Scope.Binding
import ShaderSource.Token.Scan
import ShaderSource.Tree.Content
import ShaderSource.Tree.Numbering

/-!
# Programs

A program is a source that was read and bound: its tree, whose nodes are numbered in the order in
which a reader meets them, its scopes, and its diagnostics.
-/

namespace ShaderSource

/-- How a source is read. -/
structure Options where
  /-- Nodes and scopes get spans. -/
  located : Bool
  /-- The first diagnostic is an error. -/
  strict : Bool
  /-- Diagnostics are not logged. -/
  quiet : Bool
  /-- The name of the source in messages. -/
  source : Option String
  /-- What the source is read as. -/
  start : Start
  deriving DecidableEq, Repr

namespace Options

/-- A whole shader, without spans, its diagnostics kept and logged. -/
def default : Options := ⟨false, false, false, none, .translationUnit⟩

/-- What is done about diagnostics. -/
def policy (o : Options) : Policy := ⟨o.strict, o.quiet⟩

end Options

/-- A source that was read and bound. -/
structure Program where
  root : Node
  scopes : ScopeTree
  diagnostics : List Diagnostic

namespace Program

/-- The tree of a source. -/
abbrev readText (text : String) (options : Options) : Except Error Node :=
  readTree options.start ⟨Lexemes.ofString text, options.located⟩ options.source

/-- The tree of a source with its nodes numbered, and the last number. -/
def readNumbered (text : String) (options : Options) : Except Error (Node × NodeId) :=
  (readText text options).map (Node.number 0)

/-- Reads a source. The log tells how far it went also if it fails. -/
def parseLogged (text : String) (options : Options) : Except Error Program × Log :=
  match readNumbered text options with
  | .error e => (.error e, [])
  | .ok (root, lastId) =>
    match Binding.ofTree options.policy root lastId with
    | (.error e, b) => (.error e, b.log)
    | (.ok (), b) =>
      (.ok ⟨root.exchangeCallees b.callees, b.scopes, b.diagnostics⟩,
        b.log ++ [.parsed b.scopes.size b.diagnostics.length])

/-- Reads a source. -/
def parse (text : String) (options : Options) : Except Error Program :=
  (parseLogged text options).1

/-- A tree made by hand, with nothing registered. -/
def ofTree (root : Node) : Program :=
  ⟨root, ScopeTree.initial none, []⟩

/-- The source text of the program. -/
def source (p : Program) : String :=
  p.root.source

/-- The first node with the given identity. -/
def find? (p : Program) (i : NodeId) : Option Node :=
  p.root.find? i

end Program

end ShaderSource
