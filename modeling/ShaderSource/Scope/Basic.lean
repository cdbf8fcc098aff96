import ShaderSource.Diagnostic
import ShaderSource.Scope.Registry

/-!
# Scopes

A scope registers the variables and types that are declared or first used in it, each with the
nodes that refer to it. Scopes form a tree, kept as a list in the order in which they were opened:
the index of a scope is its identity, and every scope but the first has a parent before it.
Functions are registered in the outermost scope, by name and signature.

The operations that register an occurrence of a name return the new scopes together with what is
wrong with the occurrence, if anything is.
-/

namespace ShaderSource

/-- Identity of a scope: its index in the order of opening. -/
abbrev ScopeId := Nat

/-- A variable or type. -/
structure Entry where
  /-- The node that declared it first; none if it is only used. -/
  declaration : Option NodeId
  /-- The nodes that refer to it in the order of binding, declarations included. -/
  references : List NodeId
  deriving DecidableEq, Repr, Inhabited

namespace Entry

/-- The entry after a declaration at a node. The first declaration stays. -/
def declare (e : Entry) (node : NodeId) : Entry :=
  ⟨some (e.declaration.getD node), e.references ++ [node]⟩

/-- The entry after a use at a node. -/
def use (e : Entry) (node : NodeId) : Entry :=
  ⟨e.declaration, e.references ++ [node]⟩

end Entry

/-- A function of a certain signature. -/
structure Overload where
  signature : Signature
  /-- The node that declared it first; none if it is only called. -/
  declaration : Option NodeId
  /-- Whether it was declared with a body. -/
  defined : Bool
  /-- The nodes that refer to it in the order of binding, declarations included. -/
  references : List NodeId
  deriving DecidableEq, Repr, Inhabited

/-- The functions of one name, by the text of their signatures. -/
abbrev Overloads := Registry String Overload

/-- A scope. -/
structure Scope where
  id : ScopeId
  name : String
  parent : Option ScopeId
  span : Option Span
  vars : Registry String Entry
  types : Registry String Entry
  functions : Registry String Overloads
  deriving DecidableEq, Repr, Inhabited

/-- What an entry of a scope names. -/
inductive NameClass where
  | var
  | type
  deriving DecidableEq, Repr, Inhabited

namespace Scope

/-- A scope in which nothing is registered. -/
def fresh (id : ScopeId) (name : String) (parent : Option ScopeId) (span : Option Span) : Scope :=
  ⟨id, name, parent, span, [], [], []⟩

/-- The outermost scope of a program with the given span. -/
def global (span : Option Span) : Scope :=
  fresh 0 "global" none span

/-- The entries of a class. -/
def entries (s : Scope) : NameClass → Registry String Entry
  | .var => s.vars
  | .type => s.types

/-- The scope with other entries of a class. -/
def setEntries (s : Scope) (c : NameClass) (r : Registry String Entry) : Scope :=
  match c with
  | .var => { s with vars := r }
  | .type => { s with types := r }

/-- Whether the scope is the outermost one. -/
def isRoot (s : Scope) : Bool :=
  s.parent.isNone

end Scope

/-- The scopes of a program in the order in which they were opened. -/
structure ScopeTree where
  scopes : List Scope
  deriving DecidableEq, Repr, Inhabited

namespace ScopeTree

/-- The scopes before anything is opened or registered. -/
def initial (span : Option Span) : ScopeTree :=
  ⟨[Scope.global span]⟩

/-- The number of scopes. -/
def size (t : ScopeTree) : Nat :=
  t.scopes.length

/-- The scope with the given identity. -/
def get? (t : ScopeTree) (i : ScopeId) : Option Scope :=
  t.scopes[i]?

/-- The outermost scope. -/
def root (t : ScopeTree) : Scope :=
  t.scopes.headD (Scope.global none)

/-- The scopes right inside a scope. -/
def children (t : ScopeTree) (i : ScopeId) : List Scope :=
  t.scopes.filter fun s => s.parent == some i

/-- A scope and those around it, at most `n` of them. -/
def chain (t : ScopeTree) : (n : Nat) → ScopeId → List Scope
  | 0, _ => []
  | n + 1, i =>
    match t.get? i with
    | none => []
    | some s =>
      match s.parent with
      | none => [s]
      | some p => s :: chain t n p

/-- A scope and those around it, the innermost first. -/
def ancestors (t : ScopeTree) (i : ScopeId) : List Scope :=
  t.chain t.size i

/-- The innermost scope around `i` that registers a name, and the entry there. -/
def lookup (t : ScopeTree) (c : NameClass) (i : ScopeId) (name : String) : Option (Scope × Entry) :=
  (t.ancestors i).findSome? fun s => ((s.entries c).get? name).map fun e => (s, e)

/-- The functions of a name. -/
def lookupFunction (t : ScopeTree) (name : String) : Option Overloads :=
  t.root.functions.get? name

/-- The scopes with one of them changed. -/
def modify (t : ScopeTree) (i : ScopeId) (f : Scope → Scope) : ScopeTree :=
  ⟨t.scopes.modify i f⟩

/-- The scopes with a new one inside `parent`, and its identity. -/
def push (t : ScopeTree) (parent : ScopeId) (name : String) (span : Option Span) :
    ScopeTree × ScopeId :=
  (⟨t.scopes ++ [Scope.fresh t.size name (some parent) span]⟩, t.size)

/-- The name of a scope. -/
def nameOf (t : ScopeTree) (i : ScopeId) : String :=
  ((t.get? i).map Scope.name).getD ""

/-- The scopes with the entries of one of them changed. -/
def modifyEntries (t : ScopeTree) (i : ScopeId) (c : NameClass)
    (f : Registry String Entry → Registry String Entry) : ScopeTree :=
  t.modify i fun s => s.setEntries c (f (s.entries c))

/-! ### Variables and types -/

/-- The problem with a second declaration in a scope. -/
def duplicate (c : NameClass) (name scope : String) : Problem :=
  match c with
  | .var => .duplicateVariable name scope
  | .type => .duplicateType name scope

/-- The problem with a use of a name that is not declared. -/
def undeclared (c : NameClass) (name : String) : Problem :=
  match c with
  | .var => .undeclaredVariable name
  | .type => .undeclaredType name

/-- Registers the declaration of a name in the scope `i`. -/
def declare (t : ScopeTree) (c : NameClass) (i : ScopeId) (name : String) (node : NodeId) :
    ScopeTree × Option Problem :=
  let known := (t.get? i).bind fun s => (s.entries c).get? name
  let entry := (known.getD ⟨none, []⟩).declare node
  let problem :=
    if (known.bind Entry.declaration).isSome then some (duplicate c name (t.nameOf i)) else none
  (t.modifyEntries i c (Registry.insert name entry), problem)

/-- Registers the use of a name in the scope `i`. It refers to the innermost scope around it that
registers the name; where there is none, the name is registered in `i` itself. -/
def use (t : ScopeTree) (c : NameClass) (i : ScopeId) (name : String) (node : NodeId) :
    ScopeTree × Option Problem :=
  match t.lookup c i name with
  | some (s, _) => (t.modifyEntries s.id c (Registry.modify name fun e => e.use node), none)
  | none =>
    (t.modifyEntries i c (Registry.insert name ⟨none, [node]⟩), some (undeclared c name))

end ScopeTree

end ShaderSource
