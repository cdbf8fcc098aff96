import ShaderSource.Program

/-!
# Names declared with a qualifier

The names that the declarations of a program carry a given qualifier for, such as its uniforms. A
list of declarators contributes all its names. An interface block contributes the name of its
instance, or the names of its members if the instance has none.
-/

namespace ShaderSource

/-- Whether one of the qualifiers is the given word. -/
def hasQualifier (qualifiers : List Node) (word : String) : Bool :=
  qualifiers.any fun n => n.kind == .keyword && n.name? == some word

/-- The name of a declarator. -/
def Node.declaratorName? : Node → Option String
  | .mk .declarator _ _ (.child name :: _) => name.name?
  | .mk .quantifiedIdentifier _ _ (.child name :: _) => name.name?
  | n => n.name?

/-- The members declared in one line of an interface block. -/
def Node.memberNames : Node → List String
  | .mk .structDeclaration _ _ [.child _, .separated members _, .token _] =>
    members.filterMap Node.declaratorName?
  | _ => []

/-- The names that a declaration declares with a qualifier. -/
def Node.qualifiedNames (qualifier : String) : Node → List String
  | .mk .declaratorList _ _
      [.child (.mk .fullySpecifiedType _ _ [.list qualifiers, .child _]),
        .separated declarators _] =>
    if hasQualifier qualifiers qualifier then declarators.filterMap Node.declaratorName? else []
  | .mk .interfaceBlock _ _
      [.list qualifiers, .token _, .token _, .list members, .token _, .optChild block] =>
    if hasQualifier qualifiers qualifier then
      match block with
      | some b => b.declaratorName?.toList
      | none => members.flatMap Node.memberNames
    else []
  | _ => []

/-- The statements of a whole source; any other node is its own only statement. -/
def Node.statements : Node → List Node
  | .mk .program _ _ [.text _, .list nodes] => nodes
  | n => [n]

/-- The names that a statement declares with a qualifier. -/
def Node.statementNames (qualifier : String) : Node → List String
  | .mk .declarationStatement _ _ [.child declaration, .token _] =>
    declaration.qualifiedNames qualifier
  | _ => []

/-- The names that the statements of a tree declare with a qualifier, in source order. -/
def Node.declaredNames (root : Node) (qualifier : String) : List String :=
  root.statements.flatMap (Node.statementNames qualifier)

/-- The names as `Node.declaredNames` gives them, and what the log says about it. -/
def Node.declaredNamesLogged (root : Node) (qualifier : String) : List String × Log :=
  let names := root.declaredNames qualifier
  (names, [.foundDeclarations names.length qualifier])

/-- The names of the uniforms of a source. Diagnostics are not logged. -/
def uniformNamesLogged (text : String) : Except Error (List String) × Log :=
  match Program.parseLogged text { Options.default with quiet := true } with
  | (.error e, log) => (.error e, log)
  | (.ok p, log) =>
    let (names, found) := p.root.declaredNamesLogged "uniform"
    (.ok names, log ++ found)

/-- The names of the uniforms of a source. -/
def uniformNames (text : String) : Except Error (List String) :=
  (uniformNamesLogged text).1

end ShaderSource
