import ShaderSource.Edit.Patch
import ShaderSource.Log

/-!
# Visiting a tree

A visit walks over a tree, each node before and again after the nodes below it, and asks a visitor
about each. The visitor keeps a state of its own; it may have the walk skip the nodes below a node,
and it may ask for the node to be removed or replaced. The walk sees the tree as it was: the edits
are gathered with the addresses of their nodes and applied when the walk is over. If the visitor
fails, nothing is applied, but its state is there.
-/

namespace ShaderSource

/-- What a visitor decides about a node. -/
structure Decision where
  /-- The nodes below are not visited. -/
  skip : Bool
  /-- The node is changed. -/
  edit : Option Edit

/-- The decision to do nothing. -/
def Decision.pass : Decision := ⟨false, none⟩

/-- A computation with a state that survives an error. -/
abbrev VisitM (σ : Type) := ExceptT Error (StateM σ)

/-- A question to a visitor. -/
abbrev Hook (σ : Type) := Path → VisitM σ Decision

/-- A visitor with states in `σ`. -/
structure Visitor (σ : Type) where
  /-- Asked before the nodes below. -/
  enter : Hook σ
  /-- Asked after the nodes below. It is not asked about nodes that `enter` changes. -/
  exit : Hook σ

namespace Visitor

variable {σ : Type}

/-- A hook that does nothing. -/
def idle : Hook σ := fun _ => pure Decision.pass

/-- The visitor that does nothing. -/
def nothing : Visitor σ := ⟨idle, idle⟩

/-- The hook for a kind of node among hooks by kind; the last one counts. -/
def hookFor (hooks : List (Kind × Hook σ)) : Hook σ := fun path =>
  match hooks.reverse.lookup path.node.kind with
  | some hook => hook path
  | none => pure Decision.pass

/-- The visitor that has its hooks by kinds of nodes. -/
def byKind (enter exit : List (Kind × Hook σ)) : Visitor σ :=
  ⟨hookFor enter, hookFor exit⟩

end Visitor

/-- The edit of a decision, at the node itself. -/
def Decision.edits (d : Decision) : Edits :=
  match d.edit with
  | some e => [([], e)]
  | none => []

section Walk

variable {σ : Type} (v : Visitor σ)

mutual

/-- Walks over a node and those below it, and gathers the edits of them. -/
def Node.walk (ancestors : List Node) (key : Option SlotKey) : Node → VisitM σ Edits
  | .mk kind id span parts => do
    let node := Node.mk kind id span parts
    let path : Path := ⟨node, ancestors, key⟩
    let entered ← v.enter path
    if entered.edit.isSome then return entered.edits
    let inner ← if entered.skip then pure [] else Part.walkAll (node :: ancestors) 0 parts
    let left ← v.exit path
    return inner ++ left.edits
termination_by structural n => n

/-- Walks over parts; the next slot has the given index. -/
def Part.walkAll (ancestors : List Node) (slot : Nat) : List Part → VisitM σ Edits
  | [] => pure []
  | p :: ps => do
    let first ← p.walk ancestors slot
    let rest ← Part.walkAll ancestors (if p.slot?.isSome then slot + 1 else slot) ps
    return first ++ rest
termination_by structural ps => ps

/-- Walks over a part, which has the given index among the slots. -/
def Part.walk (ancestors : List Node) (slot : Nat) : Part → VisitM σ Edits
  | .text _ => pure []
  | .token _ => pure []
  | .optToken _ => pure []
  | .child n => do
    return (← n.walk ancestors (some ⟨.required, slot, none⟩)).under ⟨slot, 0⟩
  | .optChild none => pure []
  | .optChild (some n) => do
    return (← n.walk ancestors (some ⟨.optional, slot, none⟩)).under ⟨slot, 0⟩
  | .list ns => Node.walkAll ancestors slot 0 ns
  | .separated ns _ => Node.walkAll ancestors slot 0 ns
  | .branch _ none => pure []
  | .branch _ (some n) => do
    return (← n.walk ancestors (some ⟨.optional, slot, none⟩)).under ⟨slot, 0⟩
termination_by structural p => p

/-- Walks over the nodes of a list, which begins at the given index. -/
def Node.walkAll (ancestors : List Node) (slot index : Nat) : List Node → VisitM σ Edits
  | [] => pure []
  | n :: ns => do
    let first ← n.walk ancestors (some ⟨.list, slot, some index⟩)
    let rest ← Node.walkAll ancestors slot (index + 1) ns
    return first.under ⟨slot, index⟩ ++ rest
termination_by structural ns => ns

end

end Walk

/-- What comes of a visit. -/
structure Visit (σ : Type) where
  /-- The tree with the edits applied, or the error that ended the walk. -/
  result : Except Error Node
  /-- The state of the visitor at the end. -/
  state : σ
  log : Log

/-- Visits a tree, the visitor beginning in the state `s`. -/
def Node.visit {σ : Type} (root : Node) (v : Visitor σ) (s : σ) : Visit σ :=
  match (root.walk v [] none).run.run s with
  | (.error e, s) => ⟨.error e, s, []⟩
  | (.ok [], s) => ⟨.ok root, s, []⟩
  | (.ok edits, s) => ⟨.ok (root.patch edits), s, [.applyingEdits edits.length]⟩

end ShaderSource
