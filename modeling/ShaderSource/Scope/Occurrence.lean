import ShaderSource.Diagnostic
import ShaderSource.Text.Blank
import ShaderSource.Tree.Source

/-!
# Occurrences of names

What a tree says about names, as a list: which scopes it opens and leaves, and where it declares,
uses and calls names in between, in the order in which this takes effect. That order is not always
the order of the source: the initializer of a variable comes before the variable, since the name
is not yet known in it, and the members of a structure come before its name.

What a call refers to depends on what is registered when it is reached. The list therefore only
says that a name is called; `ShaderSource.Scope.Binding` settles the rest.
-/

namespace ShaderSource

/-- Something that a tree says about names. -/
inductive Occurrence where
  /-- A scope opens. -/
  | enter (name : String) (span : Option Span)
  /-- The innermost open scope ends. -/
  | leave
  /-- A variable is declared. -/
  | declareVariable (name : String) (site : Site)
  /-- A variable is used. -/
  | useVariable (name : String) (site : Site)
  /-- A type is declared. -/
  | declareType (name : String) (site : Site)
  /-- A type is used. -/
  | useType (name : String) (site : Site)
  /-- A function is declared. -/
  | declareFunction (name : String) (signature : Signature) (site : Site)
  /-- A function is defined. -/
  | defineFunction (name : String) (signature : Signature) (site : Site)
  /-- A name is called: a function, or a type of which a value is made. The callee is the site of
  the name. -/
  | call (name : String) (callee : Site) (arguments : Nat) (site : Site)
  /-- A node stands where a name should be declared, and declares none. -/
  | malformed (kind : Kind)
  deriving DecidableEq, Repr, Inhabited

/-! ### Names and types of declarations -/

/-- The name that a node declares. -/
def Node.declaredName? (n : Node) : Option String :=
  match n.kind with
  | .identifier | .typeName => n.leaf?.map Token.text
  | _ => none

/-- The occurrence of a declaration by the given node. -/
def Node.declares (n : Node) (make : String → Site → Occurrence) : Occurrence :=
  match n.declaredName? with
  | some name => make name n.site
  | none => .malformed n.kind

/-- An array dimension as part of the name of a type. -/
def Node.dimensionText : Node → String
  | .mk .arraySpecifier _ _ [.token _, .optChild (some e), .token _] =>
    "[" ++ Text.trim e.source ++ "]"
  | _ => "[]"

/-- The name of a type without its dimensions. A structure without a name is called `struct`. -/
def Node.typeBase : Node → String
  | .mk .structSpecifier _ _ [.token _, .optChild name, .token _, .list _, .token _] =>
    (name.bind Node.name?).getD "struct"
  | n => n.name?.getD ""

/-- The text of a type: its name, its dimensions, and the given ones after them. -/
def Node.typeText (more : List Node) : Node → String
  | .mk .fullySpecifiedType _ _ [.list _, .child n] => n.typeText more
  | .mk .typeSpecifier _ _ [.child n, .list dimensions] =>
    n.typeBase ++ String.join ((dimensions ++ more).map Node.dimensionText)
  | n => n.typeBase ++ String.join (more.map Node.dimensionText)

/-- The text of the type of a parameter, or the kind of a node that is none. -/
def Node.parameterType : Node → Except Kind String
  | .mk .parameter _ _ [.list _, .child type, .optChild _, .list dimensions] =>
    .ok (type.typeText dimensions)
  | n => .error n.kind

/-- The signature of a prototype. A single parameter of type `void` is none. -/
def prototypeSignature (result : Node) (parameters : List Node) : Except Kind Signature :=
  (parameters.mapM Node.parameterType).map fun types =>
    Signature.declared (result.typeText [])
      (if types = [Signature.void] then [] else types)

/-- The occurrences of a prototype's name: the function is registered and its scope opens. -/
def prototypeOccurrences (make : String → Signature → Occurrence) (span : Option Span)
    (result name : Node) (parameters : List Node) : List Occurrence :=
  match name.declaredName?, prototypeSignature result parameters with
  | none, _ => [.malformed name.kind]
  | some _, .error kind => [.malformed kind]
  | some text, .ok signature => [make text signature, .enter text span]

/-- The node of a prototype that has not the form it should have. -/
def Node.prototypeFault : Node → Kind
  | .mk .functionPrototype _ _ (.child header :: _) => header.kind
  | n => n.kind

/-- The number of arguments of a call; a single `void` is none. -/
def argumentCount : List Node → Nat
  | [n] => if n.name? = some Signature.void then 0 else 1
  | ns => ns.length

/-! ### The occurrences of a tree -/

/-- What a node is in the node above it. -/
inductive Role where
  /-- Nothing special. -/
  | plain
  /-- The body of a statement that has opened a scope for it. -/
  | body
  /-- A member, whose name is not a variable. -/
  | member
  deriving DecidableEq, Repr, Inhabited

mutual

/-- The occurrences in a node, in the order in which they take effect. -/
def Node.occurrences (role : Role) : Node → List Occurrence
  | .mk .identifier id span [.token t] => [.useVariable t.text ⟨id, span⟩]
  | .mk .typeName id span [.token t] => [.useType t.text ⟨id, span⟩]
  | .mk .functionCall id span
      [.child (.mk .typeSpecifier _ calleeSpan
        [.child (.mk .typeName nameId _ [.token t]), .list []]),
        .token _, .separated arguments _, .token _] =>
    .call t.text ⟨nameId, calleeSpan⟩ (argumentCount arguments) ⟨id, span⟩ ::
      Node.occurrencesAll .plain none arguments
  | .mk .functionDefinition id span
      [.child (.mk .functionPrototype _ _
        [.child (.mk .functionHeader _ _ [.child result, .child name, .token _]),
          .separated parameters _, .token _]),
        .child body] =>
    result.occurrences .plain ++
      prototypeOccurrences (fun n s => .defineFunction n s ⟨id, span⟩) span result name
        parameters ++
      Node.occurrencesAll .plain none parameters ++ body.occurrences .body ++ [.leave]
  | .mk .functionDefinition _ _ [.child prototype, .child _] =>
    [.malformed prototype.prototypeFault]
  | .mk .functionPrototype id span
      [.child (.mk .functionHeader _ _ [.child result, .child name, .token _]),
        .separated parameters _, .token _] =>
    result.occurrences .plain ++
      prototypeOccurrences (fun n s => .declareFunction n s ⟨id, span⟩) span result name
        parameters ++
      Node.occurrencesAll .plain none parameters ++ [.leave]
  | .mk .functionPrototype _ _ [.child header, .separated _ _, .token _] => [.malformed header.kind]
  | .mk .parameter _ _ [.list qualifiers, .child type, .optChild name, .list dimensions] =>
    Node.occurrencesAll .plain none qualifiers ++ type.occurrences .plain ++
      Node.occurrencesAll .plain none dimensions ++
      (name.map fun n => n.declares .declareVariable).toList
  | .mk .declaratorList _ _ [.child type, .separated declarators _] =>
    type.occurrences .plain ++ Node.occurrencesAll .plain (some .declarator) declarators
  | .mk .declarator _ _ [.child name, .list dimensions, .optToken _, .optChild none] =>
    Node.occurrencesAll .plain none dimensions ++ [name.declares .declareVariable]
  | .mk .declarator _ _ [.child name, .list dimensions, .optToken _, .optChild (some value)] =>
    Node.occurrencesAll .plain none dimensions ++ value.occurrences .plain ++
      [name.declares .declareVariable]
  | .mk .structSpecifier _ _ [.token _, .optChild name, .token _, .list members, .token _] =>
    Node.occurrencesAll .plain (some .structDeclaration) members ++
      (name.map fun n => n.declares .declareType).toList
  | .mk .structDeclaration _ _ [.child type, .separated members _, .token _] =>
    type.occurrences .plain ++ Node.occurrencesAll .member none members
  | .mk .quantifiedIdentifier _ _ [.child name, .list dimensions] =>
    Node.occurrencesAll .plain none dimensions ++
      (if role = .member then [] else [name.declares .declareVariable])
  | .mk .interfaceBlock _ _
      [.list qualifiers, .token _, .token _, .list members, .token _, .optChild none] =>
    Node.occurrencesAll .plain none qualifiers ++
      Node.occurrencesAll .plain (some .structDeclaration) members ++
      Node.memberVariables members
  | .mk .interfaceBlock _ _
      [.list qualifiers, .token _, .token _, .list members, .token _, .optChild (some block)] =>
    Node.occurrencesAll .plain none qualifiers ++
      Node.occurrencesAll .plain (some .structDeclaration) members ++
      (if block.kind = .quantifiedIdentifier then block.occurrences .plain
        else [.malformed block.kind])
  | .mk .conditionExpression _ _ [.child type, .child name, .token _, .child value] =>
    type.occurrences .plain ++ value.occurrences .plain ++ [name.declares .declareVariable]
  | .mk .compoundStatement _ span [.token _, .list statements, .token _] =>
    if role = .body then Node.occurrencesAll .plain none statements
    else .enter "compound statement" span :: Node.occurrencesAll .plain none statements ++ [.leave]
  | .mk .whileStatement _ span [.token _, .token _, .child condition, .token _, .child body] =>
    .enter "while" span :: condition.occurrences .plain ++ body.occurrences .body ++ [.leave]
  | .mk .doStatement _ span
      [.token _, .child body, .token _, .token _, .child condition, .token _, .token _] =>
    .enter "do" span :: body.occurrences .body ++ [.leave] ++ condition.occurrences .plain
  | .mk .forStatement _ span
      [.token _, .token _, .child init, condition, .token _, step, .token _, .child body] =>
    .enter "for" span :: init.occurrences .plain ++ condition.occurrences ++ step.occurrences ++
      body.occurrences .body ++ [.leave]
  | .mk .switchStatement _ span
      [.token _, .token _, .child value, .token _, .token _, .list cases, .token _] =>
    value.occurrences .plain ++ .enter "switch" span ::
      Node.occurrencesAll .plain none cases ++ [.leave]
  | .mk _ _ _ parts => Part.occurrencesAll parts

/-- The occurrences in a list of parts. -/
def Part.occurrencesAll : List Part → List Occurrence
  | [] => []
  | p :: ps => p.occurrences ++ Part.occurrencesAll ps

/-- The occurrences in a part. -/
def Part.occurrences : Part → List Occurrence
  | .text _ => []
  | .token _ => []
  | .optToken _ => []
  | .child n => n.occurrences .plain
  | .optChild none => []
  | .optChild (some n) => n.occurrences .plain
  | .list ns => Node.occurrencesAll .plain none ns
  | .separated ns _ => Node.occurrencesAll .plain none ns
  | .branch _ none => []
  | .branch _ (some n) => n.occurrences .plain

/-- The occurrences in nodes of the same role. Where a kind is given, nodes of other kinds are
malformed. -/
def Node.occurrencesAll (role : Role) (only : Option Kind) : List Node → List Occurrence
  | [] => []
  | n :: ns =>
    (if only.all (· = n.kind) then n.occurrences role else [.malformed n.kind]) ++
      Node.occurrencesAll role only ns

/-- The members of an interface block without a name of its own, as variables. -/
def Node.memberVariables : List Node → List Occurrence
  | [] => []
  | .mk .structDeclaration _ _ [.child _, .separated members _, .token _] :: ns =>
    Node.occurrencesAll .plain (some .quantifiedIdentifier) members ++ Node.memberVariables ns
  | _ :: ns => Node.memberVariables ns

end

end ShaderSource
