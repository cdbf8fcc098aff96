import ShaderSource.Diagnostic
import ShaderSource.Text.Quoted

/-!
# Errors

The reasons for which reading, editing or renaming a program stops, each with its wording.
-/

namespace ShaderSource

/-- A lexeme that no continuation of the text before it allows. -/
structure Unexpected where
  /-- What would have been accepted there, in ascending order. -/
  expected : List String
  /-- The text found, or `none` at the end of the source. -/
  found : Option String
  /-- The range of the text found. -/
  span : Span
  /-- The name of the source, if it has one. -/
  source : Option String
  deriving DecidableEq, Repr, Inhabited

namespace Unexpected

/-- Alternatives as a phrase: the last one after "or", the others between commas. -/
def alternatives : List String → String
  | [] => "end of input"
  | [a] => a
  | a :: rest => ", ".intercalate (a :: rest.dropLast) ++ " or " ++ rest.getLastD ""

/-- The wording, without the name of the error. -/
def message (e : Unexpected) : String :=
  let source := match e.source with
    | some name => name ++ ":"
    | none => ""
  let found := match e.found with
    | some text => Text.quoted text
    | none => "end of input"
  source ++ e.span.start.text ++ ": expected " ++ alternatives e.expected ++ " but " ++ found ++
    " found"

end Unexpected

/-- What an edit does to a node. -/
inductive Operation where
  | remove
  | replace
  deriving DecidableEq, Repr, Inhabited

/-- The name of an operation in messages. -/
def Operation.name : Operation → String
  | remove => "remove"
  | replace => "replace"

/-- Why an operation on a program stopped. -/
inductive Error where
  /-- The source does not follow the grammar. -/
  | unexpected (e : Unexpected)
  /-- A diagnostic came up where none is tolerated. -/
  | diagnostic (d : Diagnostic)
  /-- The outermost scope was to be left. -/
  | popRootScope
  /-- A node that stands in no slot was to be removed or replaced. -/
  | detachedNode (operation : Operation)
  /-- The only node of a slot that needs one was to be removed. -/
  | requiredSlot (parent : Kind) (slot : String)
  /-- A reference is a node without a name to change. -/
  | unrecognizedReference (kind : Kind)
  /-- A reference is not in the tree. -/
  | missingReference (name : String)
  /-- A declaration is a node without a name to declare. -/
  | invalidDeclarator (kind : Kind)
  /-- A statement of a switch stands before every label. -/
  | invalidSwitchBody (span : Span)
  /-- Productions are nested deeper than is supported. -/
  | nestingTooDeep (span : Span)
  deriving DecidableEq, Repr, Inhabited

/-- The wording of an error. -/
def Error.message : Error → String
  | unexpected e => "syntax error: " ++ e.message
  | diagnostic d => d.text
  | popRootScope => "cannot pop the root scope"
  | detachedNode operation => "cannot " ++ operation.name ++ " a node that has no parent"
  | requiredSlot parent slot =>
    "cannot remove a node from the required " ++ slot ++ " slot of a " ++ parent.name ++ " node"
  | unrecognizedReference kind => "cannot rename a reference of shape " ++ kind.name
  | missingReference name => "reference to " ++ name ++ " was not found in the tree"
  | invalidDeclarator kind => "invalid declarator shape: " ++ kind.name
  | invalidSwitchBody span =>
    span.text ++ ": switch body must begin with a case or default label"
  | nestingTooDeep span => span.text ++ ": nesting is too deep"

end ShaderSource
