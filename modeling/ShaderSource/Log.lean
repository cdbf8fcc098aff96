import ShaderSource.Diagnostic

/-!
# Log entries

What an operation on a program tells about its course, beside its result. Entries are data: a
caller chooses the level from which on it wants to see them.
-/

namespace ShaderSource

/-- How much a log entry matters. -/
inductive LogLevel where
  | warn
  | debug
  | trace
  deriving DecidableEq, Repr, Inhabited

namespace LogLevel

/-- The rank of a level; what matters more comes first. -/
def rank : LogLevel → Nat
  | warn => 0
  | debug => 1
  | trace => 2

/-- The name of a level in a log. -/
def name : LogLevel → String
  | warn => "WARN"
  | debug => "DEBUG"
  | trace => "TRACE"

end LogLevel

/-- Something that an operation tells about its course. -/
inductive LogEntry where
  | reported (d : Diagnostic)
  | declaringVariable (name scope : String)
  | declaringType (name scope : String)
  | declaringPrototype (name : String) (signature : Signature)
  | definingFunction (name : String) (signature : Signature)
  | callResolved (name : String) (signature : Signature)
  | constructorCall (name : String)
  | builtinCall (name : String)
  | parsed (scopes diagnostics : Nat)
  | changingName (old new : String)
  | foundDeclarations (count : Nat) (qualifier : String)
  | enteringScope (name : String)
  | leavingScope (name : String)
  | applyingEdits (count : Nat)
  deriving DecidableEq, Repr, Inhabited

/-- Log entries in the order in which they were made. -/
abbrev Log := List LogEntry

namespace LogEntry

/-- How much an entry matters. -/
def level : LogEntry → LogLevel
  | reported _ => .warn
  | enteringScope _ => .trace
  | leavingScope _ => .trace
  | applyingEdits _ => .trace
  | _ => .debug

/-- The wording of an entry. -/
def message : LogEntry → String
  | reported d => d.text
  | declaringVariable name scope => "declaring variable " ++ name ++ " in " ++ scope
  | declaringType name scope => "declaring type " ++ name ++ " in " ++ scope
  | declaringPrototype name signature =>
    "declaring prototype " ++ name ++ " (" ++ signature.key ++ ")"
  | definingFunction name signature =>
    "defining function " ++ name ++ " (" ++ signature.key ++ ")"
  | callResolved name signature => "call to " ++ name ++ " resolved to (" ++ signature.key ++ ")"
  | constructorCall name => name ++ " is a constructor call"
  | builtinCall name => name ++ " is a built-in function call"
  | parsed scopes diagnostics =>
    "parsed program with " ++ toString scopes ++ " scopes and " ++ toString diagnostics ++
      " diagnostics"
  | changingName old new => "renaming " ++ old ++ " to " ++ new
  | foundDeclarations count qualifier =>
    "found " ++ toString count ++ " " ++ qualifier ++ " declarations"
  | enteringScope name => "entering scope " ++ name
  | leavingScope name => "leaving scope " ++ name
  | applyingEdits count => "applying " ++ toString count ++ " tree edits"

end LogEntry

/-- The entries that matter at least as much as the given level. -/
def Log.upTo (log : Log) (level : LogLevel) : Log :=
  log.filter fun e => e.level.rank ≤ level.rank

end ShaderSource
