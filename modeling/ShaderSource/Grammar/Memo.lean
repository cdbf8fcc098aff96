import Std.Data.TreeMap
import ShaderSource.Grammar.Reading

/-!
# Rules that remember

Alternatives of the grammar often begin with the same rule at the same place. A table keeps, for
each place and rule, what came of reading the rule there. A failure is never repeated. A match is
read once more when the rule is wanted a second time, and only then is its node kept, since most
nodes are wanted only once.
-/

namespace ShaderSource

/-- What came of reading a rule at a place. -/
inductive Memory where
  /-- It failed. -/
  | failed
  /-- It matched, and was wanted once. -/
  | matched
  /-- It matched and was wanted again: its node and the place behind it. -/
  | kept (node : Node) (next : Nat)

/-- What came of reading rules, by place. -/
structure Memo where
  byPlace : Std.TreeMap Nat (List (Rule × Memory))

namespace Memo

/-- Nothing was read yet. -/
def empty : Memo := ⟨∅⟩

/-- What came of reading the rule at the place, if it was read. -/
def find? (m : Memo) (place : Nat) (r : Rule) : Option Memory :=
  (m.byPlace[place]?.getD []).lookup r

/-- The table with what came of reading the rule at the place. -/
def insert (m : Memo) (place : Nat) (r : Rule) (memory : Memory) : Memo :=
  ⟨m.byPlace.insert place
    ((r, memory) :: (m.byPlace[place]?.getD []).filter fun e => e.1 ≠ r)⟩

/-- What is to be remembered of an outcome. `again` holds if the rule had matched there before. -/
def memoryOf (again : Bool) : Option (Node × Nat) → Memory
  | none => .failed
  | some (node, next) => if again then .kept node next else .matched

/-- Reads a rule by the parser `p`, unless the table knows what comes of it. -/
def request (r : Rule) (p : Parser Memo Node) : Parser Memo Node :=
  fun input place progress =>
    match progress.table.find? place r with
    | some .failed => .ok (none, progress)
    | some (.kept node next) => .ok (some (node, next), progress)
    | known =>
      match p input place progress with
      | .error e => .error e
      | .ok (outcome, after) =>
        .ok (outcome,
          { after with table := after.table.insert place r (memoryOf known.isSome outcome) })

end Memo

/-- Reads a rule, remembering what rules yield. -/
def Rule.read (depth : Nat) (r : Rule) : Parser Memo Node :=
  Rule.readWith Memo.request depth r

end ShaderSource
