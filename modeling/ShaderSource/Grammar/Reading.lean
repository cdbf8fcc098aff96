import ShaderSource.Grammar.Parser
import ShaderSource.Grammar.Productions

/-!
# Reading phrases

How a phrase is read. Reading recurses on the phrase. It leaves open what a rule and what an
initializer yields and takes the two as arguments, so it is a plain structural recursion, and the
same reading serves for rules that remember and for rules that do not. `Rule.readWith` closes the
knot: rules may nest to a given depth, and the recursion is on what is left of it.
-/

namespace ShaderSource

/-- Whether a type may stand in a declaration that declares no names: one that is built in, or a
structure that the declaration itself introduces. -/
def Node.standsAlone : Node → Bool
  | .mk .fullySpecifiedType _ _ [.list _, .child (.mk .typeSpecifier _ _ (.child n :: _))] =>
    n.kind == .keyword || n.kind == .structSpecifier
  | _ => false

/-- Whether the part is a type that may stand alone. -/
def Part.standsAlone : Part → Bool
  | .child n => n.standsAlone
  | _ => false

namespace Parser

variable {μ : Type}

/-- The values of a separated list as a part. -/
def separatedPart (first : Node) (rest : List (Token × Node)) : Part :=
  .separated (first :: rest.map Prod.snd) (rest.map Prod.fst)

/-- A separated list with at least one node. -/
def oneOrMore (p : Parser μ Node) : Parser μ Part := do
  let (first, rest) ← separated p
  return separatedPart first rest

/-- A separated list with any number of nodes. -/
def zeroOrMore (p : Parser μ Node) : Parser μ Part :=
  (oneOrMore p).orElse (succeed (.separated [] []))

/-- A separated list with at least one node, and a comma after the last if there is one. -/
def trailing (p : Parser μ Node) : Parser μ Part := do
  let (first, rest) ← separated p
  let last ← optional comma
  return .separated (first :: rest.map Prod.snd) (rest.map Prod.fst ++ last.toList)

/-- A separated list, after the part `before`. -/
def listing (mode : Listing) (before : Option Part) (p : Parser μ Node) : Parser μ Part :=
  match mode with
  | .oneOrMore => oneOrMore p
  | .zeroOrMore => zeroOrMore p
  | .trailing => trailing p
  | .oneUnlessBare => if before.any Part.standsAlone then zeroOrMore p else oneOrMore p

end Parser

section Reading

variable {μ : Type} (call : Rule → Parser μ Node) (nested : Parser μ Node)

mutual

/-- Reads a phrase. Rules are read by `call`, initializers by `nested`. -/
def Phrase.read : Phrase → Parser μ Node
  | .node kind items => do
    let first ← Parser.here
    let parts ← Item.readAll none items
    Parser.node kind first parts
  | .rule r => call r
  | .initializer => nested
  | .orElse first second => first.read.orElse second.read
  | .choose ahead noted yes no => do
    if ← Parser.sees ahead then yes.read
    else
      Parser.note noted
      no.read
  | .refuse expected => do
    Parser.note expected
    Parser.fail
  | .suffixed first repeated suffixes => do
    let start ← Parser.here
    let head ← first.read
    let limit ← if repeated then Parser.bound else pure 1
    Parser.extended (Suffix.readAny suffixes start) limit head
  | .joined kind item => do
    let start ← Parser.here
    let (first, rest) ← Parser.separated item.read
    if rest.isEmpty then return first
    else Parser.node kind start [Parser.separatedPart first rest]

/-- Reads the first of the suffixes that does not fail, around a node that begins at `start`. -/
def Suffix.readAny : List Suffix → (start : Nat) → Node → Parser μ Node
  | [], _, _ => Parser.fail
  | .mk kind items follow :: others, start, head =>
    (do
      let parts ← Item.readAll none items
      let node ← Parser.node kind start (.child head :: parts)
      (Suffix.readAny follow start node).orElse (Parser.succeed node)).orElse
    (Suffix.readAny others start head)

/-- Reads items one after the other, after the part `before`. -/
def Item.readAll : (before : Option Part) → List Item → Parser μ (List Part)
  | _, [] => pure []
  | before, item :: items => do
    let parts ← item.read before
    let rest ← Item.readAll (parts.getLast?.or before) items
    return parts ++ rest

/-- Reads an item, after the part `before`. -/
def Item.read : (before : Option Part) → Item → Parser μ (List Part)
  | _, .token t => do return [.token (← Parser.token t)]
  | _, .presentToken t => do return [.optToken (some (← Parser.token t))]
  | _, .child p => do return [.child (← p.read)]
  | _, .present p => do return [.optChild (some (← p.read))]
  | _, .optional p => do return [.optChild (← Parser.optional p.read)]
  | _, .list least p => do
    let nodes ← Parser.many p.read
    if nodes.length < least then Parser.fail else return [.list nodes]
  | before, .separated mode p => do return [← Parser.listing mode before p.read]
  | _, .single p => do return [.separated [← p.read] []]
  | _, .branch word p => do
    let token ← Parser.token word
    return [.branch (some token) (some (← p.read))]
  | _, .empty part => pure [part]
  | before, .choose ahead noted yes no => do
    if ← Parser.sees ahead then Item.readAll before yes
    else
      Parser.note noted
      Item.readAll before no
  | _, .forbid closing p => do
    if ← Parser.sees [closing] then return []
    else
      let first ← Parser.here
      match ← Parser.optional p.read with
      | none => return []
      | some _ => fun input _ _ => .error (.invalidSwitchBody (input.lexeme first).span)

end

end Reading

variable {μ : Type}

/-- Reads an initializer; lists in braces nest to the given depth. -/
def readInitializer (call : Rule → Parser μ Node) : (depth : Nat) → Parser μ Node
  | 0 => Parser.fail
  | depth + 1 => Grammar.initializer.read call (readInitializer call depth)

/-- Reads an initializer. Each list in braces takes a lexeme, so the bound on the lexemes bounds the
depth of the lists. -/
def initializerParser (call : Rule → Parser μ Node) : Parser μ Node := do
  readInitializer call (← Parser.bound)

/-- Reads a phrase, given how rules are read. -/
def Phrase.parser (call : Rule → Parser μ Node) (p : Phrase) : Parser μ Node :=
  p.read call (initializerParser call)

/-- Reads a rule. Other rules may nest in it to the given depth. Each time a rule is wanted,
`request` decides whether its production has to be read. -/
def Rule.readWith (request : Rule → Parser μ Node → Parser μ Node) :
    (depth : Nat) → Rule → Parser μ Node
  | 0, r => request r (Parser.stopAt .nestingTooDeep)
  | depth + 1, r => request r ((Grammar.production r).parser (Rule.readWith request depth))

/-- How deep rules may nest. -/
def Rule.maxDepth : Nat := 512

/-- Reads a rule without remembering anything. -/
def Rule.readPlainly (depth : Nat) (r : Rule) : Parser Unit Node :=
  Rule.readWith (fun _ p => p) depth r

end ShaderSource
