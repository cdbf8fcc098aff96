import ShaderSource.Edit.Visit

/-!
# Rules

A visitor can be put together from rules. A rule says on which nodes it acts and what it does
there: skip the nodes below, remove or replace the node, or make a note. Rules are run in their
order, and a later edit of the same node takes the place of an earlier one. An action that is not
allowed ends the visit, unless the rule goes on after a note of the error.
-/

namespace ShaderSource

/-- When a visitor is asked about a node. -/
inductive Phase where
  | enter
  | exit
  deriving DecidableEq, Repr, Inhabited

/-- What a rule does at a node. -/
inductive Action where
  /-- Does not visit the nodes below. -/
  | skip
  /-- Removes the node. -/
  | remove
  /-- Replaces the node by another one that depends on it. -/
  | replace (make : Path → Node)
  /-- Notes something about the node. -/
  | note (text : Path → String)

/-- A rule. -/
structure EditRule where
  phase : Phase
  /-- The kind of nodes that it acts on; none for all. -/
  kind : Option Kind
  /-- What must hold of a node for the rule to act. -/
  condition : Path → Bool
  actions : List Action
  /-- An action that is not allowed is noted, and the rule goes on. -/
  tolerant : Bool

/-- The notes that rules make. -/
abbrev Notes := List String

namespace EditRule

/-- Adds a note. -/
def note (text : String) : VisitM Notes Unit :=
  modify fun notes => notes ++ [text]

/-- The decision with an edit, if the edit is allowed. -/
def decide (tolerant : Bool) (d : Decision) (edit : Except Error Edit) : VisitM Notes Decision :=
  match edit with
  | .ok e => pure { d with edit := some e }
  | .error e =>
    if tolerant then do
      note ("caught: " ++ e.message)
      pure d
    else throw e

/-- Runs an action on a node about which a decision was made already. -/
def act (tolerant : Bool) (path : Path) (d : Decision) : Action → VisitM Notes Decision
  | .skip => pure { d with skip := true }
  | .remove => decide tolerant d path.remove
  | .replace make => decide tolerant d (path.replace (make path))
  | .note text => do
    note (text path)
    pure d

/-- Runs a rule on a node about which a decision was made already. -/
def run (path : Path) (d : Decision) (rule : EditRule) : VisitM Notes Decision :=
  if rule.condition path then rule.actions.foldlM (act rule.tolerant path) d else pure d

/-- Whether the rule is for the phase and the kind of the node. -/
def concerns (rule : EditRule) (phase : Phase) (path : Path) : Bool :=
  rule.phase == phase && rule.kind.all (· == path.node.kind)

/-- The hook that runs all rules of a phase in their order. -/
def hook (rules : List EditRule) (phase : Phase) : Hook Notes := fun path =>
  (rules.filter fun r => r.concerns phase path).foldlM (run path) Decision.pass

/-- The visitor that runs all rules. -/
def visitor (rules : List EditRule) : Visitor Notes :=
  ⟨hook rules .enter, hook rules .exit⟩

/-- The rules of a phase as hooks by kind. Rules for all kinds are left out. -/
def hooksByKind (rules : List EditRule) (phase : Phase) : List (Kind × Hook Notes) :=
  rules.filterMap fun r =>
    if r.phase == phase then r.kind.map fun k => (k, fun path => run path Decision.pass r) else none

/-- The visitor that has one rule for each phase and kind, the last of them. -/
def visitorByKind (rules : List EditRule) : Visitor Notes :=
  Visitor.byKind (hooksByKind rules .enter) (hooksByKind rules .exit)

/-- A line about the phase and the place of a node. -/
def traceLine (phase : Phase) (path : Path) : String :=
  (match phase with | .enter => "enter " | .exit => "exit ") ++ path.node.kind.name ++ " " ++
    toString path.node.id ++ " " ++ (path.key.map SlotKey.text).getD "-"

/-- The rule that notes the phase and the place of every node. -/
def tracing (phase : Phase) : EditRule :=
  ⟨phase, none, fun _ => true, [.note (traceLine phase)], false⟩

end EditRule

end ShaderSource
