import ShaderSource.Edit.Visit
import ShaderSource.Scope.Basic

/-!
# Renaming

A renaming changes the names of everything that one registry of a scope holds. A reference is a
node that a registry lists; its name stands in a leaf, the node itself or one below it. The walk
finds the references by their identities, asks what their new names are, and exchanges the leaves.
References that are not in the tree are found out when the walk is over, and then the others have
been renamed.
-/

namespace ShaderSource

/-- The registry that a renaming is about. -/
inductive RenameTarget where
  | vars
  | types
  | functions
  deriving DecidableEq, Repr, Inhabited

/-- The names in a registry of a scope, each with the nodes that refer to it. -/
def Scope.references (s : Scope) : RenameTarget → List (String × List NodeId)
  | .vars => s.vars.map fun (name, e) => (name, e.references)
  | .types => s.types.map fun (name, e) => (name, e.references)
  | .functions =>
    s.functions.map fun (name, os) => (name, os.flatMap fun (_, o) => o.references)

/-- The names that nodes refer to, by the identities of the nodes. -/
def referenceNames (entries : List (String × List NodeId)) : Registry NodeId String :=
  (entries.flatMap fun (name, ids) => ids.map fun i => (i, name)).foldl
    (fun r (i, name) => r.insert i name) []

/-- The leaf in which the name of a reference stands, or the kind of the node where none is to be
found. -/
def Node.namedLeaf (target : RenameTarget) : Node → Except Kind Node
  | .mk .identifier id span parts =>
    if target = .types then .error .identifier else .ok (.mk .identifier id span parts)
  | .mk .typeName id span parts =>
    if target = .types then .ok (.mk .typeName id span parts) else .error .typeName
  | .mk .declarator _ _ (.child name :: _) =>
    if target = .vars then name.namedLeaf target else .error .declarator
  | .mk .quantifiedIdentifier _ _ (.child name :: _) =>
    if target = .vars then name.namedLeaf target else .error .quantifiedIdentifier
  | .mk .conditionExpression _ _ (.child _ :: .child name :: _) =>
    if target = .vars then name.namedLeaf target else .error .conditionExpression
  | .mk .parameter _ _ [.list _, .child _, .optChild (some name), .list _] =>
    if target = .vars then name.namedLeaf target else .error .parameter
  | .mk .typeSpecifier _ _ (.child type :: _) =>
    if target = .types then type.namedLeaf target else .error .typeSpecifier
  | .mk .fullySpecifiedType _ _ [.list _, .child type] =>
    if target = .types then type.namedLeaf target else .error .fullySpecifiedType
  | .mk .structSpecifier _ _ (.token _ :: .optChild (some name) :: _) =>
    if target = .types then name.namedLeaf target else .error .structSpecifier
  | .mk .functionDefinition _ _ (.child prototype :: _) =>
    if target = .functions then prototype.namedLeaf target else .error .functionDefinition
  | .mk .functionPrototype _ _ (.child header :: _) =>
    if target = .functions then header.namedLeaf target else .error .functionPrototype
  | .mk .functionHeader _ _ (.child _ :: .child name :: _) =>
    if target = .functions then name.namedLeaf target else .error .functionHeader
  | .mk .functionCall _ _ (.child (.mk .identifier id span parts) :: _) =>
    if target = .functions then .ok (.mk .identifier id span parts) else .error .functionCall
  | .mk .functionCall _ _
      (.child (.mk .typeSpecifier _ _ [.child (.mk .typeName id span parts), .list []]) :: _) =>
    if target = .functions then .ok (.mk .typeName id span parts) else .error .functionCall
  | n => .error n.kind

/-- The leaf with another name. Nodes that carry no name stay. -/
def Node.withName (name : String) : Node → Node
  | .mk .identifier id span [.token t] => .mk .identifier id span [.token ⟨name, t.trivia⟩]
  | .mk .typeName id span [.token t] => .mk .typeName id span [.token ⟨name, t.trivia⟩]
  | n => n

/-- What gives new names: it sees the old name and the reference, and has a state of its own. -/
abbrev Mangle (τ : Type) := String → Node → StateM τ String

/-- The state of a renaming. -/
structure RenameState (τ : Type) where
  /-- The references that were not reached yet, with their names. -/
  references : Registry NodeId String
  /-- The leaves that were not reached yet, with their new names. -/
  pending : Registry NodeId String
  log : Log
  /-- The state of what gives new names. -/
  mangling : τ

namespace RenameState

variable {τ : Type}

/-- The state in which a renaming of a registry begins. -/
def start (scope : Scope) (target : RenameTarget) (mangling : τ) : RenameState τ :=
  ⟨referenceNames (scope.references target), [], [], mangling⟩

/-- The references and leaves that were not reached. -/
def leftOver (s : RenameState τ) : Registry NodeId String :=
  s.references ++ s.pending

end RenameState

namespace Rename

variable {τ : Type}

/-- Gives a reference its new name, which is then pending for its leaf. -/
def resolve (target : RenameTarget) (mangle : Mangle τ) (node : Node) :
    VisitM (RenameState τ) Unit := do
  let s ← get
  match s.references.get? node.id with
  | none => pure ()
  | some name =>
    let (new, mangling) := (mangle name node).run s.mangling
    set { s with references := s.references.erase node.id, mangling }
    match node.namedLeaf target with
    | .error kind => throw (.unrecognizedReference kind)
    | .ok leaf =>
      modify fun s =>
        { s with
          pending := s.pending.insert leaf.id new
          log := s.log ++ [.changingName name new] }

/-- Exchanges a node for which a new name is pending. -/
def exchange (path : Path) : VisitM (RenameState τ) Decision := do
  let s ← get
  match s.pending.get? path.node.id with
  | none => pure Decision.pass
  | some new =>
    set { s with pending := s.pending.erase path.node.id }
    match path.replace (path.node.withName new) with
    | .error e => throw e
    | .ok edit => pure { Decision.pass with edit := some edit }

/-- The visitor that renames. -/
def visitor (target : RenameTarget) (mangle : Mangle τ) : Visitor (RenameState τ) where
  enter path := do
    resolve target mangle path.node
    exchange path
  exit := Visitor.idle

/-- What is missing when the walk is over. -/
def missing? (s : RenameState τ) : Option Error :=
  s.leftOver.head?.map fun (_, name) => .missingReference name

end Rename

/-- What comes of a renaming. -/
structure Renaming (τ : Type) where
  /-- The tree, renamed as far as the references were found. -/
  root : Node
  error : Option Error
  /-- The state of what gives new names at the end. -/
  mangling : τ
  log : Log

/-- Renames everything that a registry of a scope holds. -/
def Node.rename {τ : Type} (root : Node) (scope : Scope) (target : RenameTarget)
    (mangle : Mangle τ) (mangling : τ) : Renaming τ :=
  let v := root.visit (Rename.visitor target mangle) (.start scope target mangling)
  match v.result with
  | .error e => ⟨root, some e, v.state.mangling, v.state.log ++ v.log⟩
  | .ok root => ⟨root, Rename.missing? v.state, v.state.mangling, v.state.log ++ v.log⟩

end ShaderSource
