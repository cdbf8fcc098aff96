import ShaderSource.Error
import ShaderSource.Log
import ShaderSource.Scope.Occurrence
import ShaderSource.Scope.Overload

/-!
# Binding names

Binding goes through the occurrences of a tree in their order and registers them in scopes. A name
that is called is a type if one of that name is known, then a function that the program declares
or calls, and else a built-in function, which is not registered. Once a callee is known not to be a
type, its node in the tree is exchanged for an identifier with a fresh identity, which the binding
notes down; the same call may be reached a second time, and then has that callee.

A diagnostic either ends the binding or is kept and logged, as the policy says. What was done and
logged until then is there also if the binding ends early.
-/

namespace ShaderSource

/-- What is done about diagnostics. -/
structure Policy where
  /-- The first diagnostic is an error. -/
  strict : Bool
  /-- Diagnostics are not logged. -/
  quiet : Bool
  deriving DecidableEq, Repr, Inhabited

/-- What has been bound so far. -/
structure Binding where
  scopes : ScopeTree
  /-- The innermost open scope. -/
  current : ScopeId
  diagnostics : List Diagnostic
  log : Log
  /-- The last identity that was given to a node. -/
  lastId : NodeId
  /-- The calls whose callees are functions, with the identities of their new callees. -/
  callees : Registry NodeId NodeId
  deriving Repr, Inhabited

/-- A step of binding. What was bound before an error is kept. -/
abbrev BindM := ExceptT Error (StateM Binding)

namespace BindM

/-- Adds an entry to the log. -/
def tell (entry : LogEntry) : BindM Unit :=
  modify fun b => { b with log := b.log ++ [entry] }

/-- Deals with a problem at a site. -/
def report (policy : Policy) (site : Site) (problem : Problem) : BindM Unit := do
  let d := problem.diagnostic site
  if policy.strict then throw (.diagnostic d)
  unless policy.quiet do tell (.reported d)
  modify fun b => { b with diagnostics := b.diagnostics ++ [d] }

/-- Takes over what an operation on the scopes did, and deals with the problem if there is one. -/
def register (policy : Policy) (site : Site) (result : ScopeTree × Option Problem) :
    BindM Unit := do
  modify fun b => { b with scopes := result.1 }
  match result.2 with
  | some problem => report policy site problem
  | none => pure ()

/-- Opens a scope. -/
def enter (name : String) (span : Option Span) : BindM Unit := do
  tell (.enteringScope name)
  modify fun b =>
    let (scopes, current) := b.scopes.push b.current name span
    { b with scopes, current }

/-- Leaves the innermost open scope. -/
def leave : BindM Unit := do
  let b ← get
  match b.scopes.get? b.current with
  | none => throw .popRootScope
  | some scope =>
    tell (.leavingScope scope.name)
    match scope.parent with
    | none => throw .popRootScope
    | some parent => modify fun b => { b with current := parent }

/-- Declares a variable. Names of built-in variables are not registered. -/
def declareVariable (policy : Policy) (name : String) (site : Site) : BindM Unit := do
  unless Vocabulary.isBuiltinVariable name do
    let b ← get
    tell (.declaringVariable name (b.scopes.nameOf b.current))
    register policy site (b.scopes.declare .var b.current name site.id)

/-- Uses a variable. Names of built-in variables are not registered. -/
def useVariable (policy : Policy) (name : String) (site : Site) : BindM Unit := do
  unless Vocabulary.isBuiltinVariable name do
    let b ← get
    register policy site (b.scopes.use .var b.current name site.id)

/-- Declares a type. -/
def declareType (policy : Policy) (name : String) (site : Site) : BindM Unit := do
  let b ← get
  tell (.declaringType name (b.scopes.nameOf b.current))
  register policy site (b.scopes.declare .type b.current name site.id)

/-- Uses a type. -/
def useType (policy : Policy) (name : String) (site : Site) : BindM Unit := do
  let b ← get
  register policy site (b.scopes.use .type b.current name site.id)

/-- Declares a function. -/
def declareFunction (policy : Policy) (name : String) (signature : Signature) (site : Site) :
    BindM Unit := do
  tell (.declaringPrototype name signature)
  let b ← get
  register policy site (b.scopes.declareFunction name signature site.id)

/-- Defines a function. -/
def defineFunction (policy : Policy) (name : String) (signature : Signature) (site : Site) :
    BindM Unit := do
  tell (.definingFunction name signature)
  let b ← get
  register policy site (b.scopes.defineFunction name signature site.id)

/-- Calls a function that is not built in. -/
def callFunction (policy : Policy) (name : String) (arguments : Nat) (site : Site) :
    BindM Unit := do
  let b ← get
  let (scopes, outcome) := b.scopes.callFunction name arguments site.id
  modify fun b => { b with scopes }
  match outcome with
  | .resolved signature => tell (.callResolved name signature)
  | .problem problem => report policy site problem

/-- Exchanges the callee of a call for an identifier, if that was not done yet. -/
def exchangeCallee (site : Site) : BindM Unit :=
  modify fun b =>
    if b.callees.contains site.id then b
    else { b with
      lastId := b.lastId + 1
      callees := b.callees.insert site.id (b.lastId + 1) }

/-- Settles what a call refers to. -/
def call (policy : Policy) (name : String) (callee : Site) (arguments : Nat) (site : Site) :
    BindM Unit := do
  let b ← get
  if (b.scopes.lookup .type b.current name).isSome then
    tell (.constructorCall name)
    useType policy name ⟨(b.callees.get? site.id).getD callee.id, callee.span⟩
  else
    if (b.scopes.lookupFunction name).isSome || !Vocabulary.isBuiltinFunction name then
      callFunction policy name arguments site
    else
      tell (.builtinCall name)
    exchangeCallee site

/-- Registers one occurrence. -/
def step (policy : Policy) : Occurrence → BindM Unit
  | .enter name span => enter name span
  | .leave => leave
  | .declareVariable name site => declareVariable policy name site
  | .useVariable name site => useVariable policy name site
  | .declareType name site => declareType policy name site
  | .useType name site => useType policy name site
  | .declareFunction name signature site => declareFunction policy name signature site
  | .defineFunction name signature site => defineFunction policy name signature site
  | .call name callee arguments site => call policy name callee arguments site
  | .malformed kind => throw (.invalidDeclarator kind)

/-- Registers occurrences in their order. -/
def steps (policy : Policy) : List Occurrence → BindM Unit
  | [] => pure ()
  | o :: os => do
    step policy o
    steps policy os

end BindM

namespace Binding

/-- Before anything is bound. The nodes of the tree have identities up to `lastId`. -/
def initial (span : Option Span) (lastId : NodeId) : Binding :=
  ⟨ScopeTree.initial span, 0, [], [], lastId, []⟩

/-- Binds the names of a tree whose nodes have identities up to `lastId`. -/
def ofTree (policy : Policy) (root : Node) (lastId : NodeId) : Except Error Unit × Binding :=
  (BindM.steps policy (root.occurrences .plain)).run.run (initial root.span lastId)

end Binding

mutual

/-- The tree with the callees of calls exchanged for identifiers, `callees` giving the identities
of the calls and of the new callees. -/
def Node.exchangeCallees (callees : Registry NodeId NodeId) : Node → Node
  | .mk .functionCall id span
      (.child (.mk .typeSpecifier callee calleeSpan
        [.child (.mk .typeName nameId nameSpan [.token t]), .list []]) :: parts) =>
    let name := match callees.get? id with
      | some fresh => Node.mk .identifier fresh calleeSpan [.token t]
      | none =>
        .mk .typeSpecifier callee calleeSpan
          [.child (.mk .typeName nameId nameSpan [.token t]), .list []]
    .mk .functionCall id span (.child name :: Part.exchangeCalleesAll callees parts)
  | .mk kind id span parts => .mk kind id span (Part.exchangeCalleesAll callees parts)

/-- A list of parts with the callees exchanged. -/
def Part.exchangeCalleesAll (callees : Registry NodeId NodeId) : List Part → List Part
  | [] => []
  | p :: ps => p.exchangeCallees callees :: Part.exchangeCalleesAll callees ps

/-- A part with the callees exchanged. -/
def Part.exchangeCallees (callees : Registry NodeId NodeId) : Part → Part
  | .text s => .text s
  | .token t => .token t
  | .optToken t => .optToken t
  | .child n => .child (n.exchangeCallees callees)
  | .optChild none => .optChild none
  | .optChild (some n) => .optChild (some (n.exchangeCallees callees))
  | .list ns => .list (Node.exchangeCalleesAll callees ns)
  | .separated ns separators => .separated (Node.exchangeCalleesAll callees ns) separators
  | .branch word none => .branch word none
  | .branch word (some n) => .branch word (some (n.exchangeCallees callees))

/-- A list of nodes with the callees exchanged. -/
def Node.exchangeCalleesAll (callees : Registry NodeId NodeId) : List Node → List Node
  | [] => []
  | n :: ns => n.exchangeCallees callees :: Node.exchangeCalleesAll callees ns

end

end ShaderSource
