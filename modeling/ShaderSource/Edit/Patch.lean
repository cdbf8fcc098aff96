import ShaderSource.Edit.Path

/-!
# Applying edits

Edits are addressed by the places of nodes in the tree as it was before any of them: from the root
down, which slot and which index in it. Applying them goes down the tree once. On the way down, the
edits of a node are parted by their first step, so that each child sees the edits below it with
addresses that start at itself. An edit of a node hides the edits below that node.

A node that leaves a separated list takes the separator after it along. The node that is then last
keeps its separator only if the list ended with one before. A separator that follows no node is
dropped, but only from a list of a node with edits below it: any other node stays as it is.
-/

namespace ShaderSource

/-- A step from a node to a node right below it. -/
structure Step where
  slot : Nat
  index : Nat
  deriving DecidableEq, Repr, Inhabited

/-- The way from a node to a node below it. -/
abbrev Address := List Step

/-- Edits with the addresses of the nodes that they change. -/
abbrev Edits := List (Address × Edit)

namespace Edits

/-- The edits below a step, with addresses that start there. -/
def below (es : Edits) (step : Step) : Edits :=
  es.filterMap fun (address, e) =>
    match address with
    | [] => none
    | s :: rest => if s = step then some (rest, e) else none

/-- The edits of nodes below a step, with addresses that start above it. -/
def under (es : Edits) (step : Step) : Edits :=
  es.map fun (address, e) => (step :: address, e)

/-- The edit of the node where the addresses start. -/
def here? (es : Edits) : Option Edit :=
  es.findSome? fun (address, e) => if address.isEmpty then some e else none

end Edits

/-- The separators that stay with the nodes at the given indices, out of `size` many. -/
def keptSeparators (size : Nat) (separators : List Token) (kept : List Nat) : List Token :=
  let trailing := 0 < size && size ≤ separators.length
  let holders := if trailing then kept else kept.dropLast
  holders.filterMap fun i => separators[i]?

mutual

/-- The node after the edits below it. -/
def Node.patch (es : Edits) : Node → Node
  | .mk kind id span parts =>
    .mk kind id span (if es.isEmpty then parts else Part.patchAll es 0 parts)

/-- The parts after the edits; the next slot has the given index. -/
def Part.patchAll (es : Edits) (slot : Nat) : List Part → List Part
  | [] => []
  | p :: ps =>
    p.patch es slot :: Part.patchAll es (if p.slot?.isSome then slot + 1 else slot) ps

/-- The part after the edits, where it has the given index among the slots. -/
def Part.patch (es : Edits) (slot : Nat) : Part → Part
  | .text s => .text s
  | .token t => .token t
  | .optToken t => .optToken t
  | .child n => .child ((n.patched (es.below ⟨slot, 0⟩)).getD n)
  | .optChild none => .optChild none
  | .optChild (some n) => .optChild (n.patched (es.below ⟨slot, 0⟩))
  | .list ns => .list ((Node.patchedAll es slot 0 ns).map Prod.snd)
  | .separated ns separators =>
    let kept := Node.patchedAll es slot 0 ns
    .separated (kept.map Prod.snd) (keptSeparators ns.length separators (kept.map Prod.fst))
  | .branch word none => .branch word none
  | .branch word (some n) => .branch word (n.patched (es.below ⟨slot, 0⟩))

/-- What becomes of a node through the edits of it and below it; none if it is removed. -/
def Node.patched (es : Edits) : Node → Option Node
  | .mk kind id span parts =>
    match es.here? with
    | some (.replace n) => some n
    | some .remove => none
    | none => some (.mk kind id span (if es.isEmpty then parts else Part.patchAll es 0 parts))

/-- The nodes of a list that the edits leave there, each with the index it had. The list begins at
the given index. -/
def Node.patchedAll (es : Edits) (slot index : Nat) : List Node → List (Nat × Node)
  | [] => []
  | n :: ns =>
    ((n.patched (es.below ⟨slot, index⟩)).map fun m => (index, m)).toList ++
      Node.patchedAll es slot (index + 1) ns

end

end ShaderSource
