/-!
# Registries

A registry is a finite map that keeps its keys in the order in which they were first put in.
Putting in a key again changes its value and not its place.
-/

namespace ShaderSource

/-- A map with its keys in order of insertion. -/
abbrev Registry (κ α : Type) := List (κ × α)

namespace Registry

variable {κ α : Type} [DecidableEq κ]

/-- The value of a key. -/
def get? (k : κ) : Registry κ α → Option α
  | [] => none
  | (k', a) :: r => if k' = k then some a else get? k r

/-- The registry with a value for a key: in the place of the old value, or at the end. -/
def insert (k : κ) (a : α) : Registry κ α → Registry κ α
  | [] => [(k, a)]
  | (k', a') :: r => if k' = k then (k, a) :: r else (k', a') :: insert k a r

/-- The registry with the value of a key changed, if it has one. -/
def modify (k : κ) (f : α → α) : Registry κ α → Registry κ α
  | [] => []
  | (k', a) :: r => if k' = k then (k', f a) :: r else (k', a) :: modify k f r

/-- The registry without a key. -/
def erase (k : κ) : Registry κ α → Registry κ α
  | [] => []
  | (k', a) :: r => if k' = k then r else (k', a) :: erase k r

/-- Whether the key has a value. -/
def contains (k : κ) (r : Registry κ α) : Bool :=
  (r.get? k).isSome

end Registry

end ShaderSource
