import ShaderSource.Tree.Basic

/-!
# The source text of a tree

A tree is written by writing its parts in order. Two cases do not read a stored token back: where
a separator is missing between two nodes a comma stands for it, and an alternative without its
word is introduced by `else`.
-/

namespace ShaderSource

/-- The source of an optional token. -/
def Token.optSource : Option Token → String
  | none => ""
  | some t => t.source

/-- What stands after a node of a separated list, given the separators from its index on and
whether another node follows. -/
def separatorSource (more : Bool) : List Token → String
  | t :: _ => t.source
  | [] => if more then "," else ""

mutual

/-- The source text of a node. -/
def Node.source : Node → String
  | .mk _ _ _ parts => Part.sources parts

/-- The source text of a list of parts. -/
def Part.sources : List Part → String
  | [] => ""
  | p :: ps => p.source ++ Part.sources ps

/-- The source text of a part. -/
def Part.source : Part → String
  | .text s => s
  | .token t => t.source
  | .optToken t => Token.optSource t
  | .child n => n.source
  | .optChild none => ""
  | .optChild (some n) => n.source
  | .list ns => Node.sources ns
  | .separated ns separators => Node.separatedSource ns separators
  | .branch _ none => ""
  | .branch none (some n) => "else " ++ n.source
  | .branch (some t) (some n) => t.source ++ n.source

/-- The source text of nodes that follow each other. -/
def Node.sources : List Node → String
  | [] => ""
  | n :: ns => n.source ++ Node.sources ns

/-- The source text of nodes with separators between them. -/
def Node.separatedSource : List Node → List Token → String
  | [], _ => ""
  | n :: ns, separators =>
    n.source ++ separatorSource (!ns.isEmpty) separators ++
      Node.separatedSource ns separators.tail

end

end ShaderSource
