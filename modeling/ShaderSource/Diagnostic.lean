import ShaderSource.Scope.Signature
import ShaderSource.Tree.Basic

/-!
# Diagnostics

What can be wrong with the names of a program that is well formed otherwise. A `Problem` is the
cause; a `Diagnostic` is its report, worded and tied to a node.
-/

namespace ShaderSource

/-- Where a name occurs: a node and its range. -/
structure Site where
  id : NodeId
  span : Option Span
  deriving DecidableEq, Repr, Inhabited

/-- The site of a node. -/
def Node.site (n : Node) : Site :=
  ⟨n.id, n.span⟩

/-- The kind of a diagnostic. -/
inductive DiagnosticKind where
  | undeclaredVariable
  | undeclaredType
  | undeclaredFunction
  | duplicateVariable
  | duplicateType
  | duplicateFunction
  | duplicatePrototype
  | noMatchingOverload
  deriving DecidableEq, Repr, Inhabited

/-- A report about a node. -/
structure Diagnostic where
  kind : DiagnosticKind
  message : String
  node : NodeId
  span : Option Span
  deriving DecidableEq, Repr, Inhabited

/-- The report as one line, with its place if it is known. -/
def Diagnostic.text (d : Diagnostic) : String :=
  match d.span with
  | some s => s.start.text ++ ": " ++ d.message
  | none => d.message

/-- What is wrong with a name. -/
inductive Problem where
  | undeclaredVariable (name : String)
  | undeclaredType (name : String)
  | undeclaredFunction (name : String)
  | duplicateVariable (name scope : String)
  | duplicateType (name scope : String)
  | duplicateFunction (name : String) (signature : Signature)
  | duplicatePrototype (name : String) (signature : Signature)
  | noMatchingOverload (name : String) (arguments : Nat)
  deriving DecidableEq, Repr, Inhabited

namespace Problem

/-- The kind of report that the problem leads to. -/
def kind : Problem → DiagnosticKind
  | undeclaredVariable _ => .undeclaredVariable
  | undeclaredType _ => .undeclaredType
  | undeclaredFunction _ => .undeclaredFunction
  | duplicateVariable _ _ => .duplicateVariable
  | duplicateType _ _ => .duplicateType
  | duplicateFunction _ _ => .duplicateFunction
  | duplicatePrototype _ _ => .duplicatePrototype
  | noMatchingOverload _ _ => .noMatchingOverload

/-- The wording of the report. -/
def message : Problem → String
  | undeclaredVariable name => "variable " ++ name ++ " is used before being declared"
  | undeclaredType name => "type " ++ name ++ " is used before being declared"
  | undeclaredFunction name => "function " ++ name ++ " is called before being declared"
  | duplicateVariable name scope => "variable " ++ name ++ " is already declared in " ++ scope
  | duplicateType name scope => "type " ++ name ++ " is already declared in " ++ scope
  | duplicateFunction name signature =>
    "function " ++ name ++ " (" ++ signature.key ++ ") is already defined"
  | duplicatePrototype name signature =>
    "prototype " ++ name ++ " (" ++ signature.key ++ ") is already declared"
  | noMatchingOverload name arguments =>
    "no overload of " ++ name ++ " matches a call with " ++ toString arguments ++ " argument(s)"

/-- The report of the problem at a site. -/
def diagnostic (p : Problem) (site : Site) : Diagnostic :=
  ⟨p.kind, p.message, site.id, site.span⟩

end Problem

end ShaderSource
