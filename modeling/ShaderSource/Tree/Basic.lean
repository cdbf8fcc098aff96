import ShaderSource.Token.Basic
import ShaderSource.Tree.Kind

/-!
# Trees

A node is a kind, an identity, a span if places were asked for, and its parts in source order. The
parts hold every token of the source that the node was read from, with its trivia, so nothing of
the source is lost. All nodes share this one form: what a production is made of is a list of
parts, and each operation on trees is one recursion over such lists.

Parts that hold nodes are the slots of a node. Slots are what a walk descends into and what an
edit changes.
-/

namespace ShaderSource

/-- Identity of a node. The nodes of a program that was read are numbered from one. -/
abbrev NodeId := Nat

/-- Identity of the nodes that no program was read into. -/
def NodeId.detached : NodeId := 0

mutual

/-- A node of a tree. -/
inductive Node where
  | mk (kind : Kind) (id : NodeId) (span : Option Span) (parts : List Part)

/-- A part of a node. -/
inductive Part where
  /-- Text that belongs to no token. -/
  | text (s : String)
  /-- A token. -/
  | token (t : Token)
  /-- A token that may be absent. -/
  | optToken (t : Option Token)
  /-- A node that must be there. -/
  | child (n : Node)
  /-- A node that may be absent. -/
  | optChild (n : Option Node)
  /-- Any number of nodes. -/
  | list (ns : List Node)
  /-- Any number of nodes; the separator at an index follows the node at that index. -/
  | separated (ns : List Node) (separators : List Token)
  /-- The alternative of a choice with the word that introduces it. The word is written only
  together with the node. -/
  | branch (word : Option Token) (body : Option Node)

end

instance : Inhabited Node := ⟨.mk default 0 none []⟩

instance : Inhabited Part := ⟨.text ""⟩

/-- How a slot holds its nodes. -/
inductive SlotKind where
  /-- Exactly one node. -/
  | required
  /-- One node or none. -/
  | optional
  /-- Any number of nodes. -/
  | list
  deriving DecidableEq, Repr, Inhabited

/-- A slot with the nodes that it holds. -/
inductive Slot where
  | required (n : Node)
  | optional (n : Option Node)
  | list (ns : List Node)
  | separated (ns : List Node) (separators : List Token)

/-- The slot that a part is, if it holds nodes. -/
def Part.slot? : Part → Option Slot
  | .text _ => none
  | .token _ => none
  | .optToken _ => none
  | .child n => some (.required n)
  | .optChild n => some (.optional n)
  | .list ns => some (.list ns)
  | .separated ns separators => some (.separated ns separators)
  | .branch _ body => some (.optional body)

/-- The nodes in a slot. -/
def Slot.nodes : Slot → List Node
  | .required n => [n]
  | .optional n => n.toList
  | .list ns => ns
  | .separated ns _ => ns

namespace Node

/-- A node that belongs to no program. -/
def detached (kind : Kind) (parts : List Part) : Node :=
  .mk kind NodeId.detached none parts

/-- The production that the node stands for. -/
def kind : Node → Kind
  | .mk k _ _ _ => k

/-- The identity of the node. -/
def id : Node → NodeId
  | .mk _ i _ _ => i

/-- The source range of the node, trailing trivia left out. -/
def span : Node → Option Span
  | .mk _ _ s _ => s

/-- The parts of the node in source order. -/
def parts : Node → List Part
  | .mk _ _ _ ps => ps

/-- The node with another identity. -/
def withId (i : NodeId) : Node → Node
  | .mk k _ s ps => .mk k i s ps

/-- The slots of the node in source order. -/
def slots (n : Node) : List Slot :=
  n.parts.filterMap Part.slot?

/-- The nodes right below the node, in source order. -/
def children (n : Node) : List Node :=
  n.slots.flatMap Slot.nodes

/-- The token that the node consists of, for nodes of a single token. -/
def leaf? : Node → Option Token
  | .mk _ _ _ [.token t] => some t
  | _ => none

/-- The name that a leaf carries: that of an identifier, a type name or a keyword. -/
def name? (n : Node) : Option String :=
  match n.kind with
  | .identifier | .typeName | .keyword => n.leaf?.map Token.text
  | _ => none

end Node

end ShaderSource
