import ShaderSource.Grammar.Phrase

/-!
# The productions of the shading language

The grammar, production by production: expressions, types and declarations, statements. Each
production lists the parts of its node, so it can be read against `Kind.layout`.

Binary operators have eleven levels of precedence. A level reads operands of the next tighter level
and folds them to the left; the tightest one reads unary expressions.
-/

namespace ShaderSource.Grammar

/-! ### Small phrases -/

/-- A punctuation mark. -/
def mark (text : String) : Item :=
  .token (.punct [text])

/-- A reserved word. -/
def word (text : String) : Item :=
  .token (.keyword [text])

/-- A name. -/
def identifier : Phrase :=
  .node .identifier [.token .identifier]

/-- A name in the place of a type. -/
def typeName : Phrase :=
  .node .typeName [.token .identifier]

/-- A node of a single reserved word. -/
def keyword (t : Terminal) : Phrase :=
  .node .keyword [.token t]

/-- A preprocessor line. -/
def preprocessor : Phrase :=
  .node .preprocessor [.token .directive]

/-- A mark and a node behind it, or neither. -/
def clause (text : String) (p : Phrase) : Item :=
  .choose [.punct [text]] [Terminal.named text]
    [.presentToken (.punct [text]), .present p]
    [.empty (.optToken none), .empty (.optChild none)]

/-! ### Expressions -/

/-- The operators that assign. -/
def assignmentOperators : List String :=
  ["=", "*=", "/=", "%=", "+=", "-=", "<<=", ">>=", "&=", "^=", "|="]

/-- The operators in front of an operand. -/
def unaryOperators : List String :=
  ["++", "--", "+", "-", "!", "~"]

/-- The operators behind an operand. -/
def stepOperators : List String :=
  ["++", "--"]

/-- The binary operators of a level, the loosest level first. -/
def binaryOperators : Fin 11 → List String
  | 0 => ["||"]
  | 1 => ["^^"]
  | 2 => ["&&"]
  | 3 => ["|"]
  | 4 => ["^"]
  | 5 => ["&"]
  | 6 => ["==", "!="]
  | 7 => ["<", ">", "<=", ">="]
  | 8 => ["<<", ">>"]
  | 9 => ["+", "-"]
  | 10 => ["*", "/", "%"]

/-- What a binary operator of a level takes as its operands. -/
def operand (level : Fin 11) : Rule :=
  if h : level.val + 1 < 11 then .binary ⟨level.val + 1, h⟩ else .unary

/-- An array dimension or an index. -/
def arraySpecifier : Phrase :=
  .node .arraySpecifier [mark "[", .optional (.rule .expression), mark "]"]

/-- The selection of a field, a component or a method. -/
def fieldSelection : Phrase :=
  .node .fieldSelection [mark ".", .token .identifier]

/-- The arguments of a call, parentheses included. A single `void` stands for no arguments. -/
def arguments : List Item :=
  [mark "(",
    .choose [.keyword ["void"], .punct [")"]] []
      [.single (keyword (.keyword ["void"]))]
      [.separated .zeroOrMore (.rule .assignment)],
    mark ")"]

/-- Expressions with commas between them. -/
def expression : Phrase :=
  .joined .sequence (.rule .assignment)

/-- An assignment or a conditional expression. -/
def assignment : Phrase :=
  .orElse
    (.node .assignment
      [.child (.rule .unary), .token (.punct assignmentOperators), .child (.rule .assignment)])
    (.rule .ternary)

/-- A conditional expression. -/
def ternary : Phrase :=
  .suffixed (.rule (.binary 0)) false
    [.mk .ternary
      [mark "?", .child (.rule .expression), mark ":", .child (.rule .assignment)] []]

/-- Binary operations of a level, folded to the left. -/
def binary (level : Fin 11) : Phrase :=
  .suffixed (.rule (operand level)) true
    [.mk .binary [.token (.punct (binaryOperators level)), .child (.rule (operand level))] []]

/-- An operand with operators in front of it. -/
def unary : Phrase :=
  .choose [.punct unaryOperators] (unaryOperators.map Terminal.named)
    (.node .unary [.token (.punct unaryOperators), .child (.rule .unary)])
    (.rule .postfixExpr)

/-- A call or primary expression with indices, selections, method calls and steps behind it. -/
def postfixExpr : Phrase :=
  .suffixed (.orElse (.rule .functionCall) (.rule .primary)) true
    [.mk .postfixExpr [.child arraySpecifier] [],
      .mk .postfixExpr [.child (.node .postfixOperator [.token (.punct stepOperators)])] [],
      .mk .postfixExpr [.child fieldSelection] [.mk .functionCall arguments []]]

/-- A call. Its callee reads like a type; what it means is settled when scopes are known. -/
def functionCall : Phrase :=
  .node .functionCall (.child (.rule .typeSpecifier) :: arguments)

/-- A name, a literal, or an expression in parentheses. -/
def primary : Phrase :=
  .choose [.identifier] [] identifier
    (.choose [.literal] [] (.node .literal [.token .literal])
      (.choose [.punct ["("]] []
        (.node .group [mark "(", .child (.rule .expression), mark ")"])
        (.refuse [Terminal.named "(", "identifier", "literal"])))

/-! ### Types and declarations -/

/-- A name and its array dimensions. -/
def quantifiedIdentifier : Phrase :=
  .node .quantifiedIdentifier [.child identifier, .list 0 arraySpecifier]

/-- Members of one type. -/
def structDeclaration : Phrase :=
  .node .structDeclaration
    [.child (.rule .fullySpecifiedType), .separated .oneOrMore quantifiedIdentifier, mark ";"]

/-- A structure. -/
def structSpecifier : Phrase :=
  .node .structSpecifier
    [word "struct", .optional typeName, mark "\x7b", .list 0 structDeclaration, mark "\x7d"]

/-- A built-in type, a name of a type, or a structure, with array dimensions. -/
def typeSpecifier : Phrase :=
  .node .typeSpecifier
    [.child
      (.choose [.keywordOf .type] [] (keyword (.keywordOf .type))
        (.choose [.identifier] [] typeName
          (.choose [.keyword ["struct"]] [] structSpecifier
            (.refuse [Terminal.named "struct", "type specifier"])))),
      .list 0 arraySpecifier]

/-- An entry of a layout qualifier. -/
def layoutQualifierId : Phrase :=
  .node .layoutQualifierId [.token .layoutName, clause "=" (.rule .ternary)]

/-- A layout qualifier. -/
def layoutQualifier : Phrase :=
  .node .layoutQualifier
    [word "layout", mark "(", .separated .oneOrMore layoutQualifierId, mark ")"]

/-- A qualifier of a type. -/
def typeQualifier : Phrase :=
  .orElse layoutQualifier (keyword (.keywordOf .qualifier))

/-- A type with its qualifiers. -/
def fullySpecifiedType : Phrase :=
  .node .fullySpecifiedType [.list 0 typeQualifier, .child (.rule .typeSpecifier)]

/-- The initializer of a variable: a list in braces, or an assignment expression. -/
def initializer : Phrase :=
  .orElse
    (.node .initializerList [mark "\x7b", .separated .trailing .initializer, mark "\x7d"])
    (.rule .assignment)

/-- A name that is declared, with dimensions and initializer. -/
def declarator : Phrase :=
  .node .declarator
    [.child identifier, .list 0 arraySpecifier, clause "=" .initializer]

/-- A type and the names declared with it. -/
def declaratorList : Phrase :=
  .node .declaratorList
    [.child (.rule .fullySpecifiedType), .separated .oneUnlessBare declarator]

/-- The default precision of a type. -/
def precision : Phrase :=
  .node .precision
    [word "precision", .child (keyword .precisionQualifier), .child (.rule .typeSpecifier)]

/-- An interface block. -/
def interfaceBlock : Phrase :=
  .node .interfaceBlock
    [.list 1 typeQualifier, .token .identifier, mark "\x7b", .list 0 structDeclaration,
      mark "\x7d", .optional quantifiedIdentifier]

/-- Qualifiers for names declared elsewhere, or alone. -/
def qualifierDeclarator : Phrase :=
  .node .qualifierDeclarator [.list 1 typeQualifier, .separated .zeroOrMore identifier]

/-- A parameter of a function. Only a named one has dimensions after its type. -/
def parameter : Phrase :=
  .node .parameter
    [.list 0 typeQualifier, .child (.rule .typeSpecifier),
      .choose [.identifier] ["identifier"]
        [.present identifier, .list 0 arraySpecifier]
        [.empty (.optChild none), .empty (.list [])]]

/-- The beginning of a prototype. -/
def functionHeader : Phrase :=
  .node .functionHeader [.child (.rule .fullySpecifiedType), .child identifier, mark "("]

/-- The prototype of a function. -/
def functionPrototype : Phrase :=
  .node .functionPrototype [.child functionHeader, .separated .zeroOrMore parameter, mark ")"]

/-- A declaration without its semicolon. -/
def declaration : Phrase :=
  .orElse (.rule .functionPrototype)
    (.orElse interfaceBlock (.orElse precision (.orElse declaratorList qualifierDeclarator)))

/-- A declaration with its semicolon. -/
def declarationStatement : Phrase :=
  .node .declarationStatement [.child (.rule .declaration), mark ";"]

/-! ### Statements -/

/-- Statements in braces. -/
def compoundStatement : Phrase :=
  .node .compoundStatement [mark "\x7b", .list 0 (.rule .statement), mark "\x7d"]

/-- An expression or nothing, and a semicolon. -/
def expressionStatement : Phrase :=
  .node .expressionStatement [.optional (.rule .expression), mark ";"]

/-- The condition of a loop: a declaration with an initializer, or an expression. -/
def condition : Phrase :=
  .orElse
    (.node .conditionExpression
      [.child (.rule .fullySpecifiedType), .child identifier, mark "=", .child .initializer])
    (.rule .expression)

/-- A choice between two statements. -/
def ifStatement : Phrase :=
  .node .ifStatement
    [word "if", mark "(", .child (.rule .expression), mark ")", .child (.rule .statement),
      .choose [.keyword ["else"]] [Terminal.named "else"]
        [.branch (.keyword ["else"]) (.rule .statement)]
        [.empty (.branch none none)]]

/-- A label of a switch and the statements behind it. -/
def switchCase : Phrase :=
  .node .switchCase
    [.choose [.keyword ["case"]] [Terminal.named "case"]
        [word "case", .present (.rule .expression)]
        [word "default", .empty (.optChild none)],
      mark ":", .list 0 (.rule .statement)]

/-- A choice between cases. Cases take all statements that follow them, so a statement after the
last case is one that no label stands before. -/
def switchStatement : Phrase :=
  .node .switchStatement
    [word "switch", mark "(", .child (.rule .expression), mark ")", mark "\x7b",
      .list 0 switchCase, .forbid (.punct ["\x7d"]) (.rule .statement), mark "\x7d"]

/-- A loop with its condition in front. -/
def whileStatement : Phrase :=
  .node .whileStatement
    [word "while", mark "(", .child condition, mark ")", .child (.rule .statement)]

/-- A loop with its condition behind. -/
def doStatement : Phrase :=
  .node .doStatement
    [word "do", .child (.rule .statement), word "while", mark "(", .child (.rule .expression),
      mark ")", mark ";"]

/-- A loop with a header. -/
def forStatement : Phrase :=
  .node .forStatement
    [word "for", mark "(", .child (.orElse declarationStatement expressionStatement),
      .optional condition, mark ";", .optional (.rule .expression), mark ")",
      .child (.rule .statement)]

/-- The end of a function. -/
def returnStatement : Phrase :=
  .node .returnStatement [word "return", .optional (.rule .expression), mark ";"]

/-- The words that leave a block. -/
def jumps : List String :=
  ["break", "continue", "discard"]

/-- The end of a loop, a round or an invocation. -/
def jumpStatement : Phrase :=
  .node .jumpStatement [.token (.keyword jumps), mark ";"]

/-- A statement. What it begins with tells which, but for declarations and expressions: there a
declaration is tried first. -/
def statement : Phrase :=
  .choose [.directive] [] preprocessor
    (.choose [.keyword ["if"]] [] ifStatement
      (.choose [.keyword ["switch"]] [] switchStatement
        (.choose [.keyword ["while"]] [] whileStatement
          (.choose [.keyword ["do"]] [] doStatement
            (.choose [.keyword ["for"]] [] forStatement
              (.choose [.keyword ["return"]] [] returnStatement
                (.choose [.keyword jumps] [] jumpStatement
                  (.choose [.punct ["\x7b"]] [] compoundStatement
                    (.orElse declarationStatement expressionStatement)))))))))

/-! ### Whole sources -/

/-- A function with its body. -/
def functionDefinition : Phrase :=
  .node .functionDefinition [.child (.rule .functionPrototype), .child compoundStatement]

/-- What a source is made of: preprocessor lines, functions and declarations. -/
def externalDeclaration : Phrase :=
  .choose [.directive] [] preprocessor (.orElse functionDefinition declarationStatement)

/-- The phrase that a rule stands for. -/
def production : Rule → Phrase
  | .functionPrototype => functionPrototype
  | .declaration => declaration
  | .fullySpecifiedType => fullySpecifiedType
  | .typeSpecifier => typeSpecifier
  | .statement => statement
  | .expression => expression
  | .assignment => assignment
  | .ternary => ternary
  | .binary level => binary level
  | .unary => unary
  | .postfixExpr => postfixExpr
  | .functionCall => functionCall
  | .primary => primary

end ShaderSource.Grammar
