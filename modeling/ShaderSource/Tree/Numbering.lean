import ShaderSource.Tree.Basic

/-!
# Identities in a tree

The nodes of a tree in the order in which a reader meets them, each node before those below it;
numbering the nodes in that order; and looking a node up by its identity.
-/

namespace ShaderSource

mutual

/-- The node and all nodes below it, each before those below it. -/
def Node.preorder : Node → List Node
  | .mk k i s ps => .mk k i s ps :: Part.preorders ps

/-- The nodes in a list of parts. -/
def Part.preorders : List Part → List Node
  | [] => []
  | p :: ps => p.preorder ++ Part.preorders ps

/-- The nodes in a part. -/
def Part.preorder : Part → List Node
  | .text _ => []
  | .token _ => []
  | .optToken _ => []
  | .child n => n.preorder
  | .optChild none => []
  | .optChild (some n) => n.preorder
  | .list ns => Node.preorders ns
  | .separated ns _ => Node.preorders ns
  | .branch _ none => []
  | .branch _ (some n) => n.preorder

/-- The nodes in a list of nodes. -/
def Node.preorders : List Node → List Node
  | [] => []
  | n :: ns => n.preorder ++ Node.preorders ns

end

/-- The first node with the given identity. -/
def Node.find? (root : Node) (i : NodeId) : Option Node :=
  root.preorder.find? fun n => n.id == i

mutual

/-- The node with its identity and those below it numbered in order after `last`, and the last
number that was given. -/
def Node.number (last : NodeId) : Node → Node × NodeId
  | .mk k _ s ps =>
    let (ps, next) := Part.numbers (last + 1) ps
    (.mk k (last + 1) s ps, next)

/-- A list of parts numbered after `last`. -/
def Part.numbers (last : NodeId) : List Part → List Part × NodeId
  | [] => ([], last)
  | p :: ps =>
    let (p, next) := p.number last
    let (ps, next) := Part.numbers next ps
    (p :: ps, next)

/-- A part numbered after `last`. -/
def Part.number (last : NodeId) : Part → Part × NodeId
  | .text s => (.text s, last)
  | .token t => (.token t, last)
  | .optToken t => (.optToken t, last)
  | .child n =>
    let (n, next) := n.number last
    (.child n, next)
  | .optChild none => (.optChild none, last)
  | .optChild (some n) =>
    let (n, next) := n.number last
    (.optChild (some n), next)
  | .list ns =>
    let (ns, next) := Node.numbers last ns
    (.list ns, next)
  | .separated ns separators =>
    let (ns, next) := Node.numbers last ns
    (.separated ns separators, next)
  | .branch word none => (.branch word none, last)
  | .branch word (some n) =>
    let (n, next) := n.number last
    (.branch word (some n), next)

/-- A list of nodes numbered after `last`. -/
def Node.numbers (last : NodeId) : List Node → List Node × NodeId
  | [] => ([], last)
  | n :: ns =>
    let (n, next) := n.number last
    let (ns, next) := Node.numbers next ns
    (n :: ns, next)

end

end ShaderSource
