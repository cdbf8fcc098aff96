import ShaderSource.Error

/-!
# Paths and edits

A path is a node of a tree with what stands above it. It says where in its parent the node stands,
and from that, whether the node may be removed or replaced.
-/

namespace ShaderSource

/-- Where a node stands in its parent. -/
structure SlotKey where
  kind : SlotKind
  /-- The index of the slot among the slots of the parent. -/
  slot : Nat
  /-- The index of the node in the slot, for lists. -/
  index : Option Nat
  deriving DecidableEq, Repr, Inhabited

/-- The key as messages give it. -/
def SlotKey.text (k : SlotKey) : String :=
  match k.index with
  | some i => "#" ++ toString k.slot ++ "[" ++ toString i ++ "]"
  | none => "#" ++ toString k.slot

/-- A change to a node. -/
inductive Edit where
  | remove
  | replace (n : Node)

/-- A node in its tree. -/
structure Path where
  node : Node
  /-- The nodes above it, the nearest first. -/
  ancestors : List Node
  /-- Where it stands in its parent; none for the root. -/
  key : Option SlotKey

namespace Path

/-- The node right above. -/
def parent (p : Path) : Option Node :=
  p.ancestors.head?

/-- The removal of the node, if its slot can do without it. -/
def remove (p : Path) : Except Error Edit :=
  match p.key with
  | none => .error (.detachedNode .remove)
  | some key =>
    if key.kind = .required then
      .error (.requiredSlot ((p.parent.map Node.kind).getD .program) key.text)
    else .ok .remove

/-- The replacement of the node, if it stands in a slot. -/
def replace (p : Path) (n : Node) : Except Error Edit :=
  match p.key with
  | none => .error (.detachedNode .replace)
  | some _ => .ok (.replace n)

end Path

end ShaderSource
