import ShaderSource.Scope.Basic

/-!
# Functions in scopes

Functions of one name are told apart by their signatures. A call leaves types open, so it refers
to the first function that its signature agrees with. A function may be called before it is
declared: the call then registers a function that has no declaration, and the first declaration
that agrees with it takes its place over.
-/

namespace ShaderSource

namespace Overloads

/-- The first function that is only called and that a declaration with the given signature could
mean, by its key. -/
def awaiting? (os : Overloads) (signature : Signature) : Option (String × Overload) :=
  List.find? (fun (_, o) => o.declaration.isNone && o.signature.agrees signature) os

/-- The functions of a name with the one that a declaration with the given signature means, if it
means one of them: the one with that signature, or else one that awaits its declaration, which
then gets the signature and moves to the end. -/
def adopt? (os : Overloads) (signature : Signature) : Option (Overloads × Overload) :=
  match Registry.get? signature.key os with
  | some o => some (os, o)
  | none =>
    (os.awaiting? signature).map fun (key, o) =>
      let adopted := { o with signature }
      ((Registry.erase key os).insert signature.key adopted, adopted)

/-- The first function that a call with the given signature can mean. -/
def callee? (os : Overloads) (signature : Signature) : Option (String × Overload) :=
  List.find? (fun (_, o) => o.signature.agrees signature) os

end Overloads

namespace Overload

/-- The function with one more reference. -/
def refer (o : Overload) (node : NodeId) : Overload :=
  { o with references := o.references ++ [node] }

/-- The function after a prototype at a node. -/
def declare (o : Overload) (node : NodeId) : Overload :=
  { o.refer node with declaration := some (o.declaration.getD node) }

/-- The function after a definition at a node. -/
def define (o : Overload) (node : NodeId) : Overload :=
  { o.declare node with defined := true }

end Overload

namespace ScopeTree

/-- The scopes with the functions of a name changed. -/
def setOverloads (t : ScopeTree) (name : String) (os : Overloads) : ScopeTree :=
  t.modify 0 fun s => { s with functions := s.functions.insert name os }

/-- The scopes with a function registered under its signature. -/
def setOverload (t : ScopeTree) (name : String) (os : Overloads) (o : Overload) : ScopeTree :=
  t.setOverloads name (Registry.insert o.signature.key o os)

/-- The functions of a name, none if the name is not known. -/
def overloads (t : ScopeTree) (name : String) : Overloads :=
  (t.lookupFunction name).getD []

/-- Registers a prototype. -/
def declareFunction (t : ScopeTree) (name : String) (signature : Signature) (node : NodeId) :
    ScopeTree × Option Problem :=
  match (t.overloads name).adopt? signature with
  | some (os, o) =>
    (t.setOverload name os (o.declare node),
      if o.declaration.isSome then some (.duplicatePrototype name signature) else none)
  | none =>
    (t.setOverload name (t.overloads name) ⟨signature, some node, false, [node]⟩, none)

/-- Registers a definition. -/
def defineFunction (t : ScopeTree) (name : String) (signature : Signature) (node : NodeId) :
    ScopeTree × Option Problem :=
  match (t.overloads name).adopt? signature with
  | some (os, o) =>
    if o.defined then
      (t.setOverload name os (o.refer node), some (.duplicateFunction name signature))
    else (t.setOverload name os (o.define node), none)
  | none =>
    (t.setOverload name (t.overloads name) ⟨signature, some node, true, [node]⟩, none)

/-- What a call refers to. -/
inductive CallOutcome where
  /-- A function with the given signature. -/
  | resolved (signature : Signature)
  /-- Nothing that is known. -/
  | problem (p : Problem)
  deriving DecidableEq, Repr, Inhabited

/-- Registers a call. -/
def callFunction (t : ScopeTree) (name : String) (arguments : Nat) (node : NodeId) :
    ScopeTree × CallOutcome :=
  let signature := Signature.call arguments
  match (t.overloads name).callee? signature with
  | some (key, o) =>
    (t.setOverloads name ((t.overloads name).insert key (o.refer node)), .resolved o.signature)
  | none =>
    (t.setOverload name (t.overloads name) ⟨signature, none, false, [node]⟩,
      .problem (if (t.lookupFunction name).isSome then .noMatchingOverload name arguments
        else .undeclaredFunction name))

end ScopeTree

end ShaderSource
