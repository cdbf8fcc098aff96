import ShaderSource.Tree.Basic

/-!
# Equal content

Two nodes have the same content if they agree in kind and in all parts, at every depth. Identities
and spans say where a node came from and do not count.
-/

namespace ShaderSource

mutual

/-- Whether two nodes have the same content. -/
def Node.same : Node → Node → Bool
  | .mk k _ _ ps, .mk k' _ _ ps' => k == k' && Part.sameAll ps ps'

/-- Whether two lists of parts have the same content. -/
def Part.sameAll : List Part → List Part → Bool
  | [], [] => true
  | p :: ps, p' :: ps' => p.same p' && Part.sameAll ps ps'
  | _, _ => false

/-- Whether two parts have the same content. -/
def Part.same : Part → Part → Bool
  | .text s, .text s' => s == s'
  | .token t, .token t' => t == t'
  | .optToken t, .optToken t' => t == t'
  | .child n, .child n' => n.same n'
  | .optChild none, .optChild none => true
  | .optChild (some n), .optChild (some n') => n.same n'
  | .list ns, .list ns' => Node.sameAll ns ns'
  | .separated ns ts, .separated ns' ts' => Node.sameAll ns ns' && ts == ts'
  | .branch t none, .branch t' none => t == t'
  | .branch t (some n), .branch t' (some n') => t == t' && n.same n'
  | _, _ => false

/-- Whether two lists of nodes have the same content. -/
def Node.sameAll : List Node → List Node → Bool
  | [], [] => true
  | n :: ns, n' :: ns' => n.same n' && Node.sameAll ns ns'
  | _, _ => false

end

end ShaderSource
